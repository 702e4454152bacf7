import MiniPascal.Grammar.Program

/-!
What reading is made of. Each step looks at the kind of the token in front, takes it off or refuses
it; all else is sequence and repetition. `composed_program` says so of the whole grammar, and what
these few steps have in common is then a law of reading, by induction over `Composed`.
-/

set_option autoImplicit false
set_option relaxedAutoImplicit false

namespace MiniPascal.Parse

/-- Steps that are put together from the basic ones. What comes behind a look at the token in front
may depend on the kind of that token, but not on its text or its place. -/
inductive Composed : {α : Type} → Parse α → Prop
  | pure {α : Type} (a : α) : Composed (pure a)
  | bind {α β : Type} {p : Parse α} {g : α → Parse β} (first : Composed p)
      (next : ∀ a, Composed (g a)) : Composed (p >>= g)
  | look {α : Type} {g : Token → Parse α} (by_kind : ∀ t u, t.kind = u.kind → g t = g u)
      (next : ∀ t, Composed (g t)) : Composed (current >>= g)
  | advance : Composed advance
  | refuse {α : Type} (rules : List Rule) (expected : Expectation) :
      Composed (refuse rules expected : Parse α)
  | many {β γ : Type} {accept? : TokenKind → Option β} {item : β → Parse γ}
      (each : ∀ b, Composed (item b)) : Composed (many accept? item)

variable {α β : Type} {rules : List Rule}

private theorem Composed.ite {c : Prop} [Decidable c] {p q : Parse α} (hp : Composed p)
    (hq : Composed q) : Composed (if c then p else q) := by
  split
  · exact hp
  · exact hq

private theorem Composed.map {p : Parse α} (h : Composed p) (f : α → β) :
    Composed (do let a ← p; return f a) :=
  h.bind fun _ => .pure _

private theorem Composed.take (a : α) : Composed (do Parse.advance; return a) :=
  Composed.advance.map fun _ => a

private theorem composed_expect (kind : TokenKind) : Composed (expect rules kind) := by
  refine .look ?_ fun _ => Composed.advance.ite (.refuse _ _)
  intro t u h
  rw [h]

private theorem composed_identifier : Composed (identifier rules) := by
  refine .look ?_ ?_
  · intro t u h
    simp only [h]
  · intro t
    split
    · exact .take _
    · exact .refuse _ _

section Expressions

private theorem composed_chain {op? : TokenKind → Option BinaryOp} {operand : Parse Expr}
    (h : Composed operand) : Composed (chain op? operand) :=
  h.bind fun _ => Composed.map (.many fun _ => h.map _) _

private theorem composed_sumOf {p : Parse Expr} (h : Composed p) : Composed (sumOf p) :=
  composed_chain (composed_chain h)

private theorem composed_factor (rules : List Rule) : Composed (factor rules) := by
  -- By induction on how many more rules may be open.
  induction rules using Rule.nestingInduction with
  | step rules ih =>
    rw [factor]
    split
    · rename_i hn
      have hsigned := ih hn (.factor :: rules) (by simp +arith)
      have hinner := ih hn (.factor :: .term :: .expr :: rules) (by simp +arith)
      refine .look ?_ ?_
      · intro t u h
        simp only [h]
      · intro t
        split
        · exact Composed.advance.bind fun _ => hsigned.map _
        · split
          · exact .take _
          · refine .ite ?_ (.refuse _ _)
            exact Composed.advance.bind fun _ => (composed_sumOf hinner).bind fun _ =>
              (composed_expect _).map _
    · exact .refuse _ _

private theorem composed_expr (rules : List Rule) : Composed (expr rules) :=
  composed_sumOf (composed_factor _)

end Expressions

section Statements

private theorem composed_assignment (rules : List Rule) : Composed (assignment rules) :=
  composed_identifier.bind fun _ => (composed_expect _).bind fun _ => (composed_expr rules).map _

private theorem composed_statement {p : Parse (List Statement)} (h : Composed p) :
    Composed (statement rules p) := by
  refine .look ?_ ?_
  · intro t u htu
    simp only [htu]
  · intro t
    split
    · exact h.map _
    · exact composed_assignment _
    · exact .pure _

private theorem composed_statementList {p : Parse Statement} (h : Composed p) :
    Composed (statementList p) :=
  h.bind fun _ => Composed.map (.many fun _ => h) _

private theorem composed_compound (rules : List Rule) : Composed (compound rules) := by
  induction rules using Rule.nestingInduction with
  | step rules ih =>
    rw [compound]
    split
    · rename_i hn
      have hinner := ih hn (.compoundStatement :: .statement :: .statementList :: rules)
        (by simp +arith)
      refine (composed_expect _).bind fun _ => ?_
      refine (composed_statementList (composed_statement hinner)).bind fun body => ?_
      refine .look ?_ fun _ => (Composed.take body).ite (.refuse _ _)
      intro t u h
      rw [h]
    · exact .refuse _ _

end Statements

section Declarations

private theorem composed_typeSpec : Composed (typeSpec rules) := by
  refine .look ?_ ?_
  · intro t u h
    simp only [h]
  · intro t
    split
    · exact .take _
    · exact .take _
    · exact .refuse _ _

private theorem composed_varsAfter (first : String) : Composed (varsAfter rules first) :=
  Composed.bind (.many fun _ => composed_identifier) fun _ => (composed_expect _).bind fun _ =>
    composed_typeSpec.bind fun _ => (composed_expect _).map _

private theorem composed_varGroup : Composed (varGroup rules) :=
  composed_identifier.bind fun name => (composed_varsAfter name).bind fun _ =>
    Composed.map (.many composed_varsAfter) _

private theorem composed_block {p : Parse (List Declaration)} (h : Composed p) :
    Composed (block rules p) :=
  Composed.bind (.many fun _ => composed_varGroup) fun _ => h.bind fun _ =>
    (composed_compound _).map _

private theorem composed_procedures (rules : List Rule) : Composed (procedures rules) := by
  induction rules using Rule.nestingInduction with
  | step rules ih =>
    rw [procedures]
    split
    · rename_i hn
      have hinner := ih hn (.procedureDeclaration :: .declarations :: .block :: rules)
        (by simp +arith)
      refine .many fun _ => composed_identifier.bind fun name => ?_
      exact (composed_expect _).bind fun _ => (composed_block hinner).bind fun _ =>
        (composed_expect _).map _
    · refine .look ?_ fun _ => (Composed.refuse _ _).ite (.pure _)
      intro t u h
      rw [h]

theorem composed_program : Composed program :=
  (composed_expect _).bind fun _ => composed_identifier.bind fun _ => (composed_expect _).bind
    fun _ => (composed_block (composed_procedures _)).bind fun _ => (composed_expect _).bind
      fun _ => (composed_expect _).map _

end Declarations

end MiniPascal.Parse
