import MiniPascal.Proofs.Grammar.Recognition
import MiniPascal.Proofs.Printing.Derived
import MiniPascal.Tree.Printer

/-!
The text of a tree is lexed into what its derivation yields. No two tokens run into each other: a
blank, a parenthesis or a semicolon stands between a word or a number and the next one.
-/

set_option autoImplicit false
set_option relaxedAutoImplicit false

namespace MiniPascal

theorem Derivation.derives_of_lexes {r : Rule} {d : Derivation r} {text : List Char}
    (h : Lexes text d.yield []) : d.Derives (String.ofList text) := by
  obtain ⟨q, hreads⟩ := h .start
  have hend : Feed.ofScanner ⟨[], q⟩ = ⟨[], .finish q⟩ := by
    rw [Feed.ofScanner_eq]
    rfl
  have hfeed : Feed.ofString (String.ofList text) = Feed.ofScanner ⟨text, .start⟩ := by
    rw [Feed.ofString, Scanner.ofString, String.toList_ofList]
  rw [hend] at hreads
  rw [Derives, hfeed, Feed.exists_all_iff_reads]
  exact ⟨q, hreads⟩

private theorem lexes_op (op : BinaryOp) (rest : List Char) :
    Lexes (op.text.toList ++ ' ' :: rest) [op.token] (' ' :: rest) := by
  cases op with
  | add => exact lexes_plain_mark (m := .plus) (by decide) (by decide)
  | subtract => exact lexes_plain_mark (m := .minus) (by decide) (by decide)
  | multiply => exact lexes_plain_mark (m := .star) (by decide) (by decide)
  | divide => exact lexes_plain_mark (m := .slash) (by decide) (by decide)
  | div => exact lexes_reserved .div (.cons (by decide))

theorem lexes_sign (op : UnaryOp) (rest : List Char) :
    Lexes (op.text.toList ++ rest) [op.token] rest := by
  cases op with
  | plus => exact lexes_plain_mark (m := .plus) (by decide) (by decide)
  | minus => exact lexes_plain_mark (m := .minus) (by decide) (by decide)

private theorem lexes_semicolon (rest : List Char) : Lexes (';' :: rest) [.mark .semicolon] rest :=
  lexes_plain_mark (m := .semicolon) (by decide) (by decide)

private theorem lexes_leftParen (rest : List Char) : Lexes ('(' :: rest) [.mark .leftParen] rest :=
  lexes_plain_mark (m := .leftParen) (by decide) (by decide)

private theorem lexes_rightParen (rest : List Char) :
    Lexes (')' :: rest) [.mark .rightParen] rest :=
  lexes_plain_mark (m := .rightParen) (by decide) (by decide)

variable {rest : List Char}

theorem Expr.lexes_write {e : Expr} (h : e.Fits Binary64.Finite) (hrest : Parted rest) :
    Lexes (e.write rest) e.derivation.yield rest := by
  induction e generalizing rest with
  | integer n =>
    rw [write, derivation, Derivation.yield]
    exact lexes_integer h hrest
  | real x =>
    rw [write, derivation]
    cases hnegative : x.negative with
    | false =>
      rw [if_neg Bool.false_ne_true, Derivation.yield]
      exact lexes_real h hnegative hrest
    | true =>
      have hfinite : x.negate.isFinite = true := h
      have hpositive : x.negate.negative = false := by simp [Binary64.negate, hnegative]
      rw [if_pos rfl, Derivation.yield, Derivation.yield, RealStyle.write_negate h hnegative]
      exact .cons (lexes_sign .minus _) (lexes_real hfinite hpositive hrest)
  | var name =>
    rw [write, derivation, Derivation.yield]
    exact lexes_name h hrest.endsWord
  | binary l op r ihl ihr =>
    have hright := (ihr h.2 (.cons (by decide))).append (lexes_rightParen rest)
    have hop := (lexes_op op _).cons hright.space
    have hleft := (ihl h.1 (.cons (by decide))).append hop.space
    have htext := (lexes_leftParen _).cons hleft
    rw [write, derivation, Derivation.yield, Derivation.yield_joined, List.append_assoc,
      List.cons_append]
    exact htext
  | unary op e ih =>
    have hoperand := (ih h (.cons (by decide))).append (lexes_rightParen rest)
    have htext := (lexes_leftParen _).cons ((lexes_sign op _).cons hoperand)
    rw [write, derivation, Derivation.yield, Derivation.yield_ofFactor, Derivation.yield]
    exact htext

namespace Statement

private theorem parted_writeBody (ss : List Statement) (hrest : Parted rest) :
    Parted (writeBody true ss rest) := by
  cases ss with
  | nil => exact hrest
  | cons s ss => exact .cons (by decide)

private theorem yield_ofStatements (s : Statement) (ss : List Statement) :
    (Derivation.ofStatements (derivations (s :: ss))).yield =
      s.derivation.yield ++ ss.flatMap fun s => .mark .semicolon :: s.derivation.yield := by
  rw [derivations, Derivation.ofStatements, Derivation.yield, derivations_eq, List.flatMap_map]

section Body

variable {body : List Statement}
  (each : ∀ s ∈ body, ∀ {rest}, Parted rest → Lexes (s.write rest) s.derivation.yield rest)

include each

private theorem lexes_writeBody_of (hrest : Parted rest) :
    Lexes (writeBody true body rest) (body.flatMap fun s => .mark .semicolon :: s.derivation.yield)
      rest := by
  induction body with
  | nil =>
    rw [writeBody, List.flatMap_nil]
    exact .nil rest
  | cons s ss ih =>
    obtain ⟨first, others⟩ := List.forall_mem_cons.mp each
    have hfirst := (lexes_semicolon _).cons (first (parted_writeBody ss hrest)).newline
    rw [writeBody, List.flatMap_cons]
    exact hfirst.append (ih others)

private theorem lexes_write_compound_of (some_statement : body ≠ []) (hrest : EndsWord rest) :
    Lexes ((compound body).write rest) (bodyDerivation body).yield rest := by
  cases body with
  | nil => exact absurd rfl some_statement
  | cons s ss =>
    obtain ⟨first, others⟩ := List.forall_mem_cons.mp each
    have hend := (lexes_reserved .blockEnd hrest).newline
    have hparted : Parted ('\n' :: (Reserved.blockEnd.text.toList ++ rest)) := .cons (by decide)
    have hothers := (lexes_writeBody_of others hparted).append hend
    have hfirst := (first (parted_writeBody ss hparted)).append hothers
    have hbegin := (lexes_reserved .blockBegin (.cons (by decide))).cons hfirst.newline
    rw [write, writeBody, bodyDerivation, Derivation.yield, yield_ofStatements, List.append_assoc]
    exact hbegin

end Body

private theorem lexes_write {s : Statement} (h : s.Fits Binary64.Finite) (hrest : Parted rest) :
    Lexes (s.write rest) s.derivation.yield rest := by
  induction h generalizing rest with
  | compound some_statement each ih =>
    have hbody := lexes_write_compound_of ih some_statement hrest.endsWord
    rw [derivation, Derivation.yield]
    exact hbody
  | assign target_name value_fits =>
    have hvalue := Expr.lexes_write value_fits hrest
    have hassign := (lexes_plain_mark (m := .assign) (by decide) (by decide)).cons hvalue.space
    have htarget := (lexes_name target_name (.cons (by decide))).cons hassign.space
    rw [write, derivation, Derivation.yield, Derivation.yield, Derivation.yield_ofFactor,
      List.append_assoc]
    exact htarget
  | skip =>
    rw [write, derivation, Derivation.yield]
    exact .nil rest

private theorem lexes_write_compound {body : List Statement}
    (h : (Statement.compound body).Fits Binary64.Finite) (hrest : EndsWord rest) :
    Lexes ((Statement.compound body).write rest) (bodyDerivation body).yield rest := by
  cases h with
  | compound some_statement each =>
    exact lexes_write_compound_of (fun s hs _ => lexes_write (each s hs)) some_statement hrest

end Statement

section Text

variable (name : String) (rest : List Char)

private theorem blank_colon_blank :
    " : ".toList ++ rest = ' ' :: (Mark.colon.chars ++ ' ' :: rest) := by
  simp [Mark.chars]

private theorem semicolon_newline : ";\n".toList ++ rest = ';' :: '\n' :: rest := by
  simp

private theorem Declaration.write_var (type : String) :
    (Declaration.var name type).write rest = Reserved.var.text.toList ++ ' ' :: (name.toList ++
      ' ' :: (Mark.colon.chars ++ ' ' :: (type.toList ++ ';' :: rest))) := by
  have hvar (cs : List Char) : "VAR ".toList ++ cs = Reserved.var.text.toList ++ ' ' :: cs := by
    simp [Reserved.text]
  change "VAR ".toList ++ name.toList ++ " : ".toList ++ type.toList ++ ';' :: rest = _
  rw [List.append_assoc, List.append_assoc, List.append_assoc, blank_colon_blank, hvar]

private theorem Declaration.write_procedure (ds : List Declaration) (body : List Statement) :
    (Declaration.procedure name ds body).write rest =
      Reserved.procedure.text.toList ++ ' ' :: (name.toList ++ ';' :: '\n' ::
        writeAll ds ((Statement.compound body).write (';' :: rest))) := by
  have hprocedure (cs : List Char) :
      "PROCEDURE ".toList ++ cs = Reserved.procedure.text.toList ++ ' ' :: cs := by
    simp [Reserved.text]
  change "PROCEDURE ".toList ++ name.toList ++ ";\n".toList ++ writeAll ds _ = _
  rw [List.append_assoc, List.append_assoc, semicolon_newline, hprocedure]

private theorem Program.write_eq (p : Program) :
    p.write = Reserved.program.text.toList ++ ' ' :: (p.name.toList ++ ';' :: '\n' ::
      Declaration.writeAll p.declarations ((Statement.compound p.body).write ['.'])) := by
  have hprogram (cs : List Char) :
      "PROGRAM ".toList ++ cs = Reserved.program.text.toList ++ ' ' :: cs := by
    simp [Reserved.text]
  change "PROGRAM ".toList ++ p.name.toList ++ ";\n".toList ++ Declaration.writeAll _ _ = _
  rw [List.append_assoc, List.append_assoc, semicolon_newline, hprogram]

end Text

namespace Declaration

private theorem lexes_type {type : String} (h : IsType type) (hrest : EndsWord rest) :
    Lexes (type.toList ++ rest)
      [.reserved (if type = Reserved.real.text then .real else .integer)] rest := by
  rcases h with rfl | rfl
  · rw [if_neg (by decide)]
    exact lexes_reserved .integer hrest
  · rw [if_pos rfl]
    exact lexes_reserved .real hrest

private theorem lexes_writeAll {ds : List Declaration} (order : VarsFirst ds)
    (each : ∀ d ∈ ds, d.Fits Binary64.Finite) (rest : List Char) :
    Lexes (writeAll ds rest) (rowDerivation ds).yield rest := by
  revert rest
  refine rowInduction ?_ ?_ ?_ order each
  · intro rest
    rw [writeAll, rowDerivation, Derivation.yield]
    exact .nil rest
  · intro name type ds hname htype ih rest
    have hline := (lexes_semicolon _).cons (ih rest).newline
    have htyped := (lexes_type htype (.cons (by decide))).cons hline
    have hcolon := (lexes_mark .colon (by simp) (by simp)).cons htyped.space
    have hnamed := (lexes_name hname (.cons (by decide))).cons hcolon.space
    have hvar := (lexes_reserved .var (.cons (by decide))).cons hnamed.space
    rw [writeAll, write_var, yield_row_var]
    exact hvar
  · intro name ds' body ds hname _ hbody procedures ih' ih rest
    have hline := (lexes_semicolon _).cons (ih rest).newline
    have hlast := (Statement.lexes_write_compound hbody (.cons (by decide))).append hline
    have hblock := (lexes_semicolon _).cons ((ih' _).append hlast).newline
    have hnamed := (lexes_name hname (.cons (by decide))).cons hblock
    have hprocedure := (lexes_reserved .procedure (.cons (by decide))).cons hnamed.space
    rw [writeAll, write_procedure, yield_row_procedure procedures, List.append_assoc]
    exact hprocedure

end Declaration

namespace Program

variable {p : Program}

private theorem lexes_write (h : p.Fits Binary64.Finite) : Lexes p.write p.derivation.yield [] := by
  have hdot : Lexes ['.'] [.mark .dot] [] := lexes_mark .dot (by simp) (by simp)
  have hlast := (Statement.lexes_write_compound h.body_fits (.cons (by decide))).append hdot
  have hrow := (Declaration.lexes_writeAll h.order h.each _).append hlast
  have hblock := (lexes_semicolon _).cons hrow.newline
  have hnamed := (lexes_name h.program_name (.cons (by decide))).cons hblock
  have hprogram := (lexes_reserved .program (.cons (by decide))).cons hnamed.space
  rw [write_eq, derivation, Derivation.yield, Derivation.yield, List.append_assoc]
  exact hprogram

/-- The text of a tree has a derivation, even where a literal has a sign. -/
theorem derives_text (h : p.Fits Binary64.Finite) : p.derivation.Derives p.text :=
  Derivation.derives_of_lexes (lexes_write h)

end Program

end MiniPascal
