import MiniPascal.Proofs.Grammar.Agreement

/-!
Each rule that keeps a stack agrees with the rule that is told what is on it. The stacks in scope
are those of open rules; `keeps_program` and `keeps_loneExpr` start from the empty one.
-/

set_option autoImplicit false
set_option relaxedAutoImplicit false

namespace MiniPascal.Parse

variable {k : TokenKind} {t : Token} {ts : List Token} {ending : Ending} {rules : List Rule}

private theorem only_eq_some_iff {u : Unit} {k' : TokenKind} : only k k' = some u ↔ k' = k := by
  simp [only]

private theorem only_eq_none_iff {k' : TokenKind} : only k k' = none ↔ k' ≠ k := by
  simp [only]

private theorem run_expect_of_kind (h : t.kind = k) :
    (expect rules k).run ⟨t :: ts, ending⟩ = .ok () ⟨ts, ending⟩ := by
  change (if t.kind = k then advance else refuse rules (.token k)).run _ = _
  rw [if_pos h]
  rfl

private theorem run_identifier_of_name {name : String} (h : name? t.kind = some name) :
    (identifier rules).run ⟨t :: ts, ending⟩ = .ok name ⟨ts, ending⟩ := by
  rw [identifier, run_bind]
  dsimp only [current]
  cases hk : t.kind with
  | identifier _ =>
    rw [hk] at h
    cases h
    rfl
  | _ =>
    rw [hk] at h
    cases h

def procedureBehind (rules : List Rule) : Parse Declaration := do
  let name ← identifier rules
  expect rules (.mark .semicolon)
  let inner := .block :: rules
  let (declarations, body) ←
    block inner (procedures (.procedureDeclaration :: .declarations :: inner))
  expect rules (.mark .semicolon)
  return .procedure name declarations body

def procedure (rules : List Rule) : Parse Declaration :=
  if rules.length ≤ Rule.limit then do
    expect rules (.reserved .procedure)
    procedureBehind rules
  else refuse rules .shallower

private theorem repeats_procedures (rules : List Rule) :
    Repeats (only (.reserved .procedure)) (fun _ => procedure rules) (procedures rules) := by
  rw [procedures]
  split
  · rename_i hlimit
    refine repeats_many ?_
    intro _ t ts ending ha
    rw [procedure, if_pos hlimit, run_bind, run_expect_of_kind (only_eq_some_iff.mp ha)]
    rfl
  · rename_i hlimit
    have hprocedure : procedure rules = refuse rules .shallower := if_neg hlimit
    have hlook (t : Token) (ts : List Token) (ending : Ending) :
        (do if (← current).kind = .reserved .procedure then refuse rules .shallower
            else return [] : Parse (List Declaration)).run ⟨t :: ts, ending⟩ =
          (if t.kind = .reserved .procedure then refuse rules .shallower
            else pure [] : Parse (List Declaration)).run ⟨t :: ts, ending⟩ := rfl
    constructor
    case meetsFault => exact fun _ => rfl
    case finish => exact fun _ => rfl
    case stops =>
      intro t ts ending ha
      rw [hlook, if_neg (only_eq_none_iff.mp ha)]
      rfl
    case goesOn =>
      intro t ts ending _ ha
      rw [hlook, if_pos (only_eq_some_iff.mp ha), hprocedure, refuse_bind]
    case progress =>
      intro t ts ending _ c rest _ hrun
      rw [hprocedure] at hrun
      exact absurd hrun run_refuse_ne_ok

end MiniPascal.Parse

namespace MiniPascal.Stacked

open Rule (Open)

variable {first : Rule} {stack : List Rule}

section Expressions

variable {p : Stacked Expr} {q : Parse Expr}

private theorem agrees_chain {op? : TokenKind → Option BinaryOp} (hend : op? .endOfInput = none)
    (h : Agrees (Open first) stack p q) :
    Agrees (Open first) stack (chain op? p) (Parse.chain op? q) :=
  h.bind fun _ => (agrees_loop_advance hend fun _ => h.bind fun _ => agrees_pure _).bind fun _ =>
    agrees_pure _

private theorem agrees_term (isOpen : Open first (.term :: stack))
    (h : Agrees (Open first) (.term :: stack) p q) :
    Agrees (Open first) stack (term p) (Parse.chain Parse.productOp? q) :=
  (agrees_chain rfl h).within_free isOpen rfl

private theorem agrees_expr (isOpen : Open first (.expr :: stack))
    (h : Open first (.factor :: .term :: .expr :: stack) →
      Agrees (Open first) (.term :: .expr :: stack) p q) :
    Agrees (Open first) stack (expr p) (Parse.sumOf q) := by
  have hterm := isOpen.call_of_free .exprTerm rfl
  have hfactor := hterm.call_of_free .termFactor rfl
  exact (agrees_chain rfl (agrees_term hterm (h hfactor))).within_free isOpen rfl

private theorem agrees_factor (isOpen : Open first (.factor :: stack)) :
    Agrees (Open first) stack factor (Parse.factor (.factor :: stack)) := by
  refine agrees_nested Parse.factor rfl ?deep ?shallow isOpen (Nat.le_add_left _ _)
  case deep =>
    intro below hdeep
    rw [Parse.factor, dif_neg (Nat.not_le_of_lt hdeep.2)]
  case shallow =>
    intro below inner isOpen hlimit hinner
    have hsigned := hinner _ (isOpen.call_of_length .factorSigned hlimit) (Nat.lt_succ_self _)
    have hparens := agrees_expr (isOpen.call_of_length .factorParens hlimit) fun hopen =>
      hinner _ hopen (by simp +arith)
    rw [Parse.factor, dif_pos hlimit]
    refine agrees_current.bind fun t => ?_
    cases Parse.sign? t.kind with
    | some op => exact agrees_advance.bind fun _ => hsigned.bind fun _ => agrees_pure _
    | none =>
      cases Parse.atom? t.kind with
      | some e => exact agrees_advance.bind fun _ => agrees_pure _
      | none =>
        refine Agrees.ite ?_ (agrees_refuse isOpen nofun)
        exact agrees_advance.bind fun _ => hparens.bind fun _ =>
          (agrees_expect _ isOpen).bind fun _ => agrees_pure _

end Expressions

section Statements

private theorem agrees_assignmentStatement (isOpen : Open first (.assignmentStatement :: stack)) :
    Agrees (Open first) stack assignmentStatement
      (Parse.assignment (.assignmentStatement :: stack)) := by
  have hvalue := agrees_expr (isOpen.call_of_free .assignmentValue rfl) agrees_factor
  refine Agrees.within_free ?_ isOpen rfl
  exact (agrees_identifier isOpen).bind fun _ => (agrees_expect _ isOpen).bind fun _ =>
    hvalue.bind fun _ => agrees_pure _

private theorem agrees_statement {p : Stacked (List Statement)} {q : Parse (List Statement)}
    (isOpen : Open first (.statement :: stack))
    (h : Agrees (Open first) (.statement :: stack) p q) :
    Agrees (Open first) stack (statement p) (Parse.statement (.statement :: stack) q) := by
  have hassignment :=
    agrees_assignmentStatement (isOpen.call_of_free .statementAssignment rfl)
  refine Agrees.within_free (agrees_current.bind fun t => ?_) isOpen rfl
  cases t.kind with
  | identifier _ => exact hassignment
  | reserved w =>
    cases w with
    | blockBegin => exact h.bind fun _ => agrees_pure _
    | _ => exact agrees_pure _
  | _ => exact agrees_pure _

private theorem agrees_statementList {p : Stacked Statement} {q : Parse Statement}
    (isOpen : Open first (.statementList :: stack))
    (h : Agrees (Open first) (.statementList :: stack) p q) :
    Agrees (Open first) stack (statementList p) (Parse.statementList q) := by
  refine Agrees.within_free ?_ isOpen rfl
  exact h.bind fun _ => (agrees_loop_advance rfl fun _ => h).bind fun _ => agrees_pure _

private theorem agrees_compoundStatement (isOpen : Open first (.compoundStatement :: stack)) :
    Agrees (Open first) stack compoundStatement (Parse.compound (.compoundStatement :: stack)) := by
  refine agrees_nested Parse.compound rfl ?deep ?shallow isOpen (Nat.le_add_left _ _)
  case deep =>
    intro below hdeep
    rw [Parse.compound, dif_neg (Nat.not_le_of_lt hdeep.2)]
  case shallow =>
    intro below inner isOpen hlimit hinner
    -- The compound lies in itself three rules further down.
    have hlist := isOpen.call_of_length .compoundList hlimit
    have hitem := hlist.call_of_free .listStatement rfl
    have hbody := hinner _ (hitem.call_of_free .statementCompound rfl) (by simp +arith)
    rw [Parse.compound, dif_pos hlimit]
    refine (agrees_expect _ isOpen).bind fun _ => ?_
    refine (agrees_statementList hlist (agrees_statement hitem hbody)).bind fun body => ?_
    refine agrees_current.bind fun t => Agrees.ite ?_ (agrees_refuse isOpen nofun)
    exact agrees_advance.bind fun _ => agrees_pure _

end Statements

section Declarations

private theorem agrees_typeSpec (isOpen : Open first (.typeSpec :: stack)) :
    Agrees (Open first) stack typeSpec (Parse.typeSpec (.typeSpec :: stack)) := by
  refine Agrees.within_free (agrees_current.bind fun t => ?_) isOpen rfl
  cases t.kind with
  | reserved w =>
    cases w with
    | integer => exact agrees_advance.bind fun _ => agrees_pure _
    | real => exact agrees_advance.bind fun _ => agrees_pure _
    | _ => exact agrees_refuse isOpen nofun
  | _ => exact agrees_refuse isOpen nofun

variable {below : List Rule}

private theorem agrees_varLine (isOpen : Open first (.declarations :: below)) :
    Agrees (Open first) (.declarations :: below) varLine
      (Parse.identifier (.varDeclaration :: .declarations :: below) >>=
        Parse.varsAfter (.declarations :: below)) := by
  have hopen := isOpen.call_of_free .declarationsVars rfl
  have htype := agrees_typeSpec (hopen.call_of_free .varsType rfl)
  have hnames : Agrees (Open first) (.varDeclaration :: .declarations :: below)
      (loop (Parse.only (.mark .comma)) fun _ => do advance; identifier)
      (Parse.many (Parse.only (.mark .comma)) fun _ => Parse.identifier _) :=
    agrees_loop_advance rfl fun _ => agrees_identifier hopen
  have hvars := (agrees_identifier hopen).bind fun name => hnames.bind fun others =>
    (agrees_expect (.mark .colon) hopen).bind fun _ => htype.bind fun type =>
      agrees_pure ((name :: others).map (Declaration.var · type))
  -- The semicolon belongs to the line, but not to the rule for the variables.
  have hline := (hvars.within_free hopen rfl).bind fun vars =>
    (agrees_expect (.mark .semicolon) isOpen).bind fun _ => agrees_pure vars
  simp only [bind_assoc, pure_bind] at hline
  exact hline

private theorem agrees_varGroup (isOpen : Open first (.declarations :: below)) :
    Agrees (Open first) (.declarations :: below)
      (do
        let first ← varLine
        let others ← loop Parse.name? fun _ => varLine
        return first ++ others.flatten)
      (Parse.varGroup (.declarations :: below)) := by
  have hline := agrees_varLine isOpen
  have hlines : Agrees (Open first) (.declarations :: below) (loop Parse.name? fun _ => varLine)
      (Parse.many Parse.name? (Parse.varsAfter (.declarations :: below))) := by
    refine agrees_loop rfl (Parse.repeats_many ?_) fun _ => hline
    intro name t ts ending hname
    rw [Parse.run_bind, Parse.run_identifier_of_name hname]
  have hgroup := hline.bind fun vars => hlines.bind fun others =>
    agrees_pure (vars ++ others.flatten)
  rw [bind_assoc] at hgroup
  exact hgroup

private theorem agrees_declarations {procedure : Stacked Declaration}
    (isOpen : Open first (.declarations :: stack))
    (h : Open first (.procedureDeclaration :: .declarations :: stack) →
      Agrees (Open first) (.declarations :: stack) procedure
        (Parse.procedure (.procedureDeclaration :: .declarations :: stack))) :
    Agrees (Open first) stack (declarations procedure) (do
      let groups ← Parse.many (Parse.only (.reserved .var)) fun _ =>
        Parse.varGroup (.declarations :: stack)
      let procedures ← Parse.procedures (.procedureDeclaration :: .declarations :: stack)
      return groups.flatten ++ procedures) := by
  have hprocedure := h (isOpen.call_of_free .declarationsProcedure rfl)
  refine Agrees.within_free ?_ isOpen rfl
  exact (agrees_loop_advance rfl fun _ => agrees_varGroup isOpen).bind fun groups =>
    (agrees_loop rfl (Parse.repeats_procedures _) fun _ => hprocedure).bind fun procedures =>
      agrees_pure _

private theorem agrees_block {procedure : Stacked Declaration}
    (isOpen : Open first (.block :: stack))
    (h : Open first (.procedureDeclaration :: .declarations :: .block :: stack) →
      Agrees (Open first) (.declarations :: .block :: stack) procedure
        (Parse.procedure (.procedureDeclaration :: .declarations :: .block :: stack))) :
    Agrees (Open first) stack (block procedure) (Parse.block (.block :: stack)
      (Parse.procedures (.procedureDeclaration :: .declarations :: .block :: stack))) := by
  have hdeclarations := agrees_declarations (isOpen.call_of_free .blockDeclarations rfl) h
  have hbody := agrees_compoundStatement (isOpen.call_of_free .blockBody rfl)
  have hblock := (hdeclarations.bind fun ds => hbody.bind fun body =>
    agrees_pure (ds, body)).within_free isOpen rfl
  simp only [bind_assoc, pure_bind] at hblock
  exact hblock

private theorem agrees_procedureDeclaration (isOpen : Open first (.procedureDeclaration :: stack)) :
    Agrees (Open first) stack procedureDeclaration
      (Parse.procedure (.procedureDeclaration :: stack)) := by
  refine agrees_nested Parse.procedure rfl ?deep ?shallow isOpen (Nat.le_add_left _ _)
  case deep => exact fun below hdeep => if_neg (Nat.not_le_of_lt hdeep.2)
  case shallow =>
    intro below inner isOpen hlimit hinner
    have hblock := agrees_block (isOpen.call_of_length .procedureBlock hlimit) fun hopen =>
      hinner _ hopen (by simp +arith)
    rw [Parse.procedure, if_pos hlimit]
    exact (agrees_expect _ isOpen).bind fun _ => (agrees_identifier isOpen).bind fun name =>
      (agrees_expect _ isOpen).bind fun _ => hblock.bind fun parts =>
        (agrees_expect _ isOpen).bind fun _ => agrees_pure _

end Declarations

section WholeTexts

variable (feed : Feed)

theorem keeps_program :
    (program.run [] feed).Keeps (Open .program) [] (Parse.program.run feed) := by
  have isOpen : Open .program [.program] := .first
  have hblock := agrees_block (isOpen.call_of_free .programBlock rfl) agrees_procedureDeclaration
  refine Agrees.keeps_fetched (Agrees.within_free ?_ isOpen rfl) feed
  exact (agrees_expect _ isOpen).bind fun _ => (agrees_identifier isOpen).bind fun name =>
    (agrees_expect _ isOpen).bind fun _ => hblock.bind fun parts =>
      (agrees_expect _ isOpen).bind fun _ => (agrees_expect _ isOpen).bind fun _ => agrees_pure _

theorem keeps_expr :
    ((fetchFirst (expr factor)).run [] feed).Keeps (Open .expr) [] ((Parse.expr []).run feed) :=
  (agrees_expr .first agrees_factor).keeps_fetched feed

theorem keeps_loneExpr :
    (loneExpr.run [] feed).Keeps (fun stack => stack = [] ∨ Open .expr stack) []
      (Parse.loneExpr.run feed) := by
  have hend (e : Expr) : Agrees (fun stack => stack = [] ∨ Open .expr stack) []
      (do expect .endOfInput; return e) (do Parse.expect [] .endOfInput; return e) :=
    (agrees_expect _ (.inl rfl)).bind fun _ => agrees_pure e
  exact keeps_bind ((keeps_expr feed).mono fun _ => .inr) (fun e rest _ => (hend e).keeps rest)
    fun e => (hend e).meetsFault

end WholeTexts

end MiniPascal.Stacked
