import Mathlib.Computability.Language
import MiniPascal.Proofs.Grammar.Derivation

/-!
The grammar as equations between languages. The sentences of a rule are what its derivations yield,
and each rule says how its sentences are put together from those of other rules.
-/

set_option autoImplicit false
set_option relaxedAutoImplicit false

open scoped Computability

namespace MiniPascal

/-- The rows of tokens that a rule derives. -/
def Rule.sentences (r : Rule) : Language TokenKind := Set.range (@Derivation.yield r)

/-- What can be taken as the beginning of a row in the language. -/
def Begins (L : Language TokenKind) (ks : List TokenKind) : Prop := ∃ tail, ks ++ tail ∈ L

namespace Sentences

variable {D E : Type}

/-- The language of what a function spells. -/
def spelled (f : D → List TokenKind) : Language TokenKind := Set.range f

def token (k : TokenKind) : Language TokenKind := spelled fun _ : Unit => [k]

def identifiers : Language TokenKind := spelled fun name => [.identifier name]

def sumOps : Language TokenKind := spelled fun o : SumOp => [o.token]

def productOps : Language TokenKind := spelled fun o : ProductOp => [o.token]

def signs : Language TokenKind := spelled fun op : UnaryOp => [op.token]

def atoms : Language TokenKind :=
  spelled (fun n => [.integer n]) + (spelled (fun x => [.real x]) +
    spelled fun name => [.identifier name])

private theorem mem_spelled {f : D → List TokenKind} {ks : List TokenKind} :
    ks ∈ spelled f ↔ ∃ d, f d = ks := Iff.rfl

theorem mem_token {k : TokenKind} {ks : List TokenKind} : ks ∈ token k ↔ ks = [k] := by
  rw [token, mem_spelled]
  constructor
  · rintro ⟨-, rfl⟩
    rfl
  · rintro rfl
    exact ⟨(), rfl⟩

theorem mem_identifiers {ks : List TokenKind} :
    ks ∈ identifiers ↔ ∃ name, ks = [.identifier name] := by
  rw [identifiers, mem_spelled]
  exact exists_congr fun name => eq_comm

theorem sentences_eq_spelled (r : Rule) : r.sentences = spelled (@Derivation.yield r) := rfl

private theorem spelled_mul (f : D → List TokenKind) (g : E → List TokenKind) :
    spelled f * spelled g = spelled fun p : D × E => f p.1 ++ g p.2 := by
  ext ks
  rw [Language.mem_mul]
  constructor
  · rintro ⟨_, ⟨d, rfl⟩, _, ⟨e, rfl⟩, rfl⟩
    exact ⟨(d, e), rfl⟩
  · rintro ⟨⟨d, e⟩, rfl⟩
    exact ⟨f d, ⟨d, rfl⟩, g e, ⟨e, rfl⟩, rfl⟩

private theorem spelled_add (f : D → List TokenKind) (g : E → List TokenKind) :
    spelled f + spelled g = spelled (Sum.elim f g) := by
  ext ks
  rw [Language.mem_add]
  constructor
  · rintro (⟨d, rfl⟩ | ⟨e, rfl⟩)
    · exact ⟨.inl d, rfl⟩
    · exact ⟨.inr e, rfl⟩
  · rintro ⟨d | e, rfl⟩
    · exact .inl ⟨d, rfl⟩
    · exact .inr ⟨e, rfl⟩

private theorem one_eq_spelled : (1 : Language TokenKind) = spelled fun _ : Unit => [] := by
  ext ks
  rw [Language.mem_one]
  constructor
  · rintro rfl
    exact ⟨(), rfl⟩
  · rintro ⟨-, rfl⟩
    rfl

private theorem spelled_kstar (f : D → List TokenKind) :
    (spelled f)∗ = spelled fun ds : List D => ds.flatMap f := by
  ext ks
  rw [Language.mem_kstar]
  constructor
  · rintro ⟨rows, rfl, hrows⟩
    obtain ⟨ds, rfl⟩ : rows ∈ Set.range (List.map f) := by
      rw [Set.range_list_map]
      exact hrows
    exact ⟨ds, List.flatMap_def⟩
  · rintro ⟨ds, rfl⟩
    refine ⟨ds.map f, List.flatMap_def, ?_⟩
    intro row hrow
    obtain ⟨d, -, rfl⟩ := List.mem_map.mp hrow
    exact ⟨d, rfl⟩

private theorem spelled_eq {f : D → List TokenKind} {g : E → List TokenKind}
    (h : ∀ d, ∃ e, g e = f d) (h' : ∀ e, ∃ d, f d = g e) : spelled f = spelled g := by
  ext ks
  constructor
  · rintro ⟨d, rfl⟩
    exact h d
  · rintro ⟨e, rfl⟩
    exact h' e

theorem program_eq : Rule.program.sentences =
    token (.reserved .program) * (identifiers * (token (.mark .semicolon) *
      (Rule.block.sentences * token (.mark .dot)))) := by
  simp only [token, identifiers, sentences_eq_spelled, spelled_mul]
  apply spelled_eq
  · intro d
    cases d with
    | program name body => exact ⟨((), name, (), body, ()), by rw [Derivation.yield]; rfl⟩
  · rintro ⟨_, name, _, body, _⟩
    exact ⟨.program name body, by rw [Derivation.yield]; rfl⟩

theorem block_eq : Rule.block.sentences =
    Rule.declarations.sentences * Rule.compoundStatement.sentences := by
  simp only [sentences_eq_spelled, spelled_mul]
  apply spelled_eq
  · intro d
    cases d with
    | block ds body => exact ⟨(ds, body), by rw [Derivation.yield]⟩
  · rintro ⟨ds, body⟩
    exact ⟨.block ds body, by rw [Derivation.yield]⟩

def varLine : Language TokenKind :=
  Rule.varDeclaration.sentences * token (.mark .semicolon)

theorem declarations_eq : Rule.declarations.sentences =
    (token (.reserved .var) * (varLine * varLine∗))∗ *
      Rule.procedureDeclaration.sentences∗ := by
  simp only [varLine, token, sentences_eq_spelled, spelled_mul, spelled_kstar]
  apply spelled_eq
  · intro d
    cases d with
    | declarations groups procedures =>
      refine ⟨(groups.map fun g => ((), (g.1, ()), g.2.map (·, ())), procedures), ?_⟩
      rw [Derivation.yield]
      simp [List.flatMap_map]
  · rintro ⟨groups, procedures⟩
    refine ⟨.declarations (groups.map fun g => (g.2.1.1, g.2.2.map (·.1))) procedures, ?_⟩
    rw [Derivation.yield]
    simp [List.flatMap_map]

private theorem varDeclaration_eq : Rule.varDeclaration.sentences =
    identifiers * ((token (.mark .comma) * identifiers)∗ *
      (token (.mark .colon) * Rule.typeSpec.sentences)) := by
  simp only [token, identifiers, sentences_eq_spelled, spelled_mul, spelled_kstar]
  apply spelled_eq
  · intro d
    cases d with
    | varDeclaration first others type =>
      refine ⟨(first, others.map ((), ·), (), type), ?_⟩
      rw [Derivation.yield]
      simp [List.flatMap_map]
  · rintro ⟨first, others, _, type⟩
    refine ⟨.varDeclaration first (others.map (·.2)) type, ?_⟩
    rw [Derivation.yield]
    simp [List.flatMap_map]

def varTail : Language TokenKind :=
  (token (.mark .comma) * identifiers)∗ * (token (.mark .colon) * (Rule.typeSpec.sentences *
    token (.mark .semicolon)))

theorem varLine_eq : varLine = identifiers * varTail := by
  rw [varLine, varDeclaration_eq, varTail]
  simp only [mul_assoc]

theorem procedureDeclaration_eq : Rule.procedureDeclaration.sentences =
    token (.reserved .procedure) * (identifiers * (token (.mark .semicolon) *
      (Rule.block.sentences * token (.mark .semicolon)))) := by
  simp only [token, identifiers, sentences_eq_spelled, spelled_mul]
  apply spelled_eq
  · intro d
    cases d with
    | procedureDeclaration name body =>
      exact ⟨((), name, (), body, ()), by rw [Derivation.yield]; rfl⟩
  · rintro ⟨_, name, _, body, _⟩
    exact ⟨.procedureDeclaration name body, by rw [Derivation.yield]; rfl⟩

theorem typeSpec_eq : Rule.typeSpec.sentences =
    token (.reserved .integer) + token (.reserved .real) := by
  simp only [token, sentences_eq_spelled, spelled_add]
  apply spelled_eq
  · intro d
    cases d with
    | integerType => exact ⟨.inl (), by rw [Derivation.yield]; rfl⟩
    | realType => exact ⟨.inr (), by rw [Derivation.yield]; rfl⟩
  · rintro (_ | _)
    · exact ⟨.integerType, by rw [Derivation.yield]; rfl⟩
    · exact ⟨.realType, by rw [Derivation.yield]; rfl⟩

theorem compoundStatement_eq : Rule.compoundStatement.sentences =
    token (.reserved .blockBegin) * (Rule.statementList.sentences *
      token (.reserved .blockEnd)) := by
  simp only [token, sentences_eq_spelled, spelled_mul]
  apply spelled_eq
  · intro d
    cases d with
    | compoundStatement body => exact ⟨((), body, ()), by rw [Derivation.yield]; rfl⟩
  · rintro ⟨_, body, _⟩
    exact ⟨.compoundStatement body, by rw [Derivation.yield]; rfl⟩

theorem statementList_eq : Rule.statementList.sentences =
    Rule.statement.sentences * (token (.mark .semicolon) * Rule.statement.sentences)∗ := by
  simp only [token, sentences_eq_spelled, spelled_mul, spelled_kstar]
  apply spelled_eq
  · intro d
    cases d with
    | statementList first others =>
      refine ⟨(first, others.map ((), ·)), ?_⟩
      rw [Derivation.yield]
      simp [List.flatMap_map]
  · rintro ⟨first, others⟩
    refine ⟨.statementList first (others.map (·.2)), ?_⟩
    rw [Derivation.yield]
    simp [List.flatMap_map]

def moreStatements : Language TokenKind := (token (.mark .semicolon) * Rule.statement.sentences)∗

theorem statementList_mul_moreStatements :
    Rule.statementList.sentences * moreStatements = Rule.statementList.sentences := by
  rw [statementList_eq, moreStatements, mul_assoc, kstar_mul_kstar]

theorem statement_eq : Rule.statement.sentences =
    Rule.compoundStatement.sentences + (Rule.assignmentStatement.sentences + 1) := by
  simp only [sentences_eq_spelled, one_eq_spelled, spelled_add]
  apply spelled_eq
  · intro d
    cases d with
    | compound body => exact ⟨.inl body, by rw [Derivation.yield]; rfl⟩
    | assignment body => exact ⟨.inr (.inl body), by rw [Derivation.yield]; rfl⟩
    | empty => exact ⟨.inr (.inr ()), by rw [Derivation.yield]; rfl⟩
  · rintro (body | body | _)
    · exact ⟨.compound body, by rw [Derivation.yield]; rfl⟩
    · exact ⟨.assignment body, by rw [Derivation.yield]; rfl⟩
    · exact ⟨.empty, by rw [Derivation.yield]; rfl⟩

theorem assignmentStatement_eq : Rule.assignmentStatement.sentences =
    identifiers * (token (.mark .assign) * Rule.expr.sentences) := by
  simp only [token, identifiers, sentences_eq_spelled, spelled_mul]
  apply spelled_eq
  · intro d
    cases d with
    | assignmentStatement target value =>
      exact ⟨(target, (), value), by rw [Derivation.yield]; rfl⟩
  · rintro ⟨target, _, value⟩
    exact ⟨.assignmentStatement target value, by rw [Derivation.yield]; rfl⟩

theorem expr_eq : Rule.expr.sentences =
    Rule.term.sentences * (sumOps * Rule.term.sentences)∗ := by
  simp only [sumOps, sentences_eq_spelled, spelled_mul, spelled_kstar]
  apply spelled_eq
  · intro d
    cases d with
    | expr first others => exact ⟨(first, others), by rw [Derivation.yield]; rfl⟩
  · rintro ⟨first, others⟩
    exact ⟨.expr first others, by rw [Derivation.yield]; rfl⟩

theorem term_eq : Rule.term.sentences =
    Rule.factor.sentences * (productOps * Rule.factor.sentences)∗ := by
  simp only [productOps, sentences_eq_spelled, spelled_mul, spelled_kstar]
  apply spelled_eq
  · intro d
    cases d with
    | term first others => exact ⟨(first, others), by rw [Derivation.yield]; rfl⟩
  · rintro ⟨first, others⟩
    exact ⟨.term first others, by rw [Derivation.yield]; rfl⟩

theorem factor_eq : Rule.factor.sentences =
    signs * Rule.factor.sentences + (atoms +
      token (.mark .leftParen) * (Rule.expr.sentences * token (.mark .rightParen))) := by
  simp only [signs, atoms, token, sentences_eq_spelled, spelled_mul, spelled_add]
  apply spelled_eq
  · intro d
    cases d with
    | signed op operand => exact ⟨.inl (op, operand), by rw [Derivation.yield]; rfl⟩
    | integer n => exact ⟨.inr (.inl (.inl n)), by rw [Derivation.yield]; rfl⟩
    | real x => exact ⟨.inr (.inl (.inr (.inl x))), by rw [Derivation.yield]; rfl⟩
    | var name => exact ⟨.inr (.inl (.inr (.inr name))), by rw [Derivation.yield]; rfl⟩
    | parens body => exact ⟨.inr (.inr ((), body, ())), by rw [Derivation.yield]; rfl⟩
  · rintro (⟨op, operand⟩ | (n | x | name) | ⟨_, body, _⟩)
    · exact ⟨.signed op operand, by rw [Derivation.yield]; rfl⟩
    · exact ⟨.integer n, by rw [Derivation.yield]; rfl⟩
    · exact ⟨.real x, by rw [Derivation.yield]; rfl⟩
    · exact ⟨.var name, by rw [Derivation.yield]; rfl⟩
    · exact ⟨.parens body, by rw [Derivation.yield]; rfl⟩

end Sentences

section Begins

variable {L M : Language TokenKind} {ks ks' : List TokenKind}

theorem begins_of_mem (h : ks ∈ L) : Begins L ks := ⟨[], by rwa [List.append_nil]⟩

theorem Begins.mono (h : Begins L ks) (hle : ∀ ks ∈ L, ks ∈ M) : Begins M ks := by
  obtain ⟨tail, htail⟩ := h
  exact ⟨tail, hle _ htail⟩

theorem Begins.mul_right (h : Begins L ks) (hM : Begins M []) : Begins (L * M) ks := by
  obtain ⟨tail, htail⟩ := h
  obtain ⟨more, hmore⟩ := hM
  refine ⟨tail ++ more, ?_⟩
  rw [← List.append_assoc]
  exact Language.append_mem_mul htail hmore

theorem Begins.mul_left (h : Begins M ks') (hks : ks ∈ L) : Begins (L * M) (ks ++ ks') := by
  obtain ⟨tail, htail⟩ := h
  refine ⟨tail, ?_⟩
  rw [List.append_assoc]
  exact Language.append_mem_mul hks htail

private theorem nonempty_derivation (r : Rule) : Nonempty (Derivation r) := by
  have factor : Derivation .factor := .integer 0
  have expr : Derivation .expr := .expr (.term factor []) []
  have compound : Derivation .compoundStatement := .compoundStatement (.statementList .empty [])
  have block : Derivation .block := .block (.declarations [] []) compound
  cases r with
  | program => exact ⟨.program "" block⟩
  | block => exact ⟨block⟩
  | declarations => exact ⟨.declarations [] []⟩
  | varDeclaration => exact ⟨.varDeclaration "" [] .integerType⟩
  | procedureDeclaration => exact ⟨.procedureDeclaration "" block⟩
  | typeSpec => exact ⟨.integerType⟩
  | compoundStatement => exact ⟨compound⟩
  | statementList => exact ⟨.statementList .empty []⟩
  | statement => exact ⟨.empty⟩
  | assignmentStatement => exact ⟨.assignmentStatement "" expr⟩
  | expr => exact ⟨expr⟩
  | term => exact ⟨.term factor []⟩
  | factor => exact ⟨factor⟩

@[simp] theorem begins_sentences (r : Rule) : Begins r.sentences [] :=
  (nonempty_derivation r).elim fun d => ⟨d.yield, d, rfl⟩

@[simp] theorem begins_token (k : TokenKind) : Begins (Sentences.token k) [] := ⟨[k], (), rfl⟩

@[simp] theorem begins_identifiers : Begins Sentences.identifiers [] := ⟨[.identifier ""], "", rfl⟩

@[simp] theorem begins_kstar : Begins L∗ [] := begins_of_mem (Language.nil_mem_kstar L)

@[simp] theorem begins_mul_nil : Begins (L * M) [] ↔ Begins L [] ∧ Begins M [] := by
  constructor
  · rintro ⟨_, ks, hks, ks', hks', -⟩
    exact ⟨⟨ks, hks⟩, ks', hks'⟩
  · rintro ⟨hL, hM⟩
    exact hL.mul_right hM

end Begins

end MiniPascal
