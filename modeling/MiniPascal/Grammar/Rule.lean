import MiniPascal.Token.Basic

/-!
The rules of the grammar and the errors of reading a program: which rules were open, what could
have stood at a place, and what stood there.
-/

set_option autoImplicit false
set_option relaxedAutoImplicit false

namespace MiniPascal

inductive Rule
  | program | block | declarations | varDeclaration | procedureDeclaration | typeSpec
  | compoundStatement | statementList | statement | assignmentStatement | expr | term | factor
  deriving DecidableEq

namespace Rule

def text : Rule → String
  | .program => "program"
  | .block => "block"
  | .declarations => "declarations"
  | .varDeclaration => "var_declaration"
  | .procedureDeclaration => "procedure_declaration"
  | .typeSpec => "type_spec"
  | .compoundStatement => "compound_statement"
  | .statementList => "statement_list"
  | .statement => "statement"
  | .assignmentStatement => "assignment_statement"
  | .expr => "expr"
  | .term => "term"
  | .factor => "factor"

/-- How many rules may be open when a procedure, a compound or a factor is entered, itself
included. -/
def limit : Nat := 512

/-- Induction on the open rules, from the deepest on: as long as there are not too many, more can be
opened below them. -/
theorem nestingInduction {motive : List Rule → Prop}
    (step : ∀ rules, (rules.length ≤ limit → ∀ deeper, rules.length < deeper.length →
      motive deeper) → motive rules) (rules : List Rule) : motive rules := by
  induction hm : limit + 1 - rules.length using Nat.strongRecOn generalizing rules with
  | _ m ih =>
    refine step rules fun hlimit deeper hdeeper => ?_
    have hless : limit + 1 - deeper.length < m := by omega
    exact ih _ hless deeper rfl

end Rule

inductive Expectation
  | token (kind : TokenKind)
  | oneOf (kinds : List TokenKind)
  | identifier
  | expression
  | shallower
  deriving DecidableEq

namespace Expectation

def text : Expectation → String
  | .token kind => "Expected \"" ++ kind.text ++ "\""
  | .oneOf kinds => "Expected one of [" ++ ", ".intercalate (kinds.map TokenKind.listing) ++ "]"
  | .identifier => "Expected identifier"
  | .expression => "Expected expression"
  | .shallower => "Nesting deeper than " ++ toString Rule.limit ++ " rules"

end Expectation

/-- A token that cannot stand where it stands. The open rules are listed from the outermost on. -/
structure Misplaced where
  expected : Expectation
  found : Token
  context : List Rule
  deriving DecidableEq

namespace Misplaced

def message (m : Misplaced) : String :=
  (if m.context.isEmpty then ""
    else "While parsing " ++ " > ".intercalate (m.context.map Rule.text) ++ "\n") ++
  m.expected.text ++ " at " ++ m.found.span.text ++ " but found \"" ++ m.found.kind.text ++ "\""

end Misplaced

inductive ParseError
  | lexical (e : LexError)
  | misplaced (m : Misplaced)
  deriving DecidableEq

namespace ParseError

def message : ParseError → String
  | .lexical e => e.message
  | .misplaced m => m.message

end ParseError

end MiniPascal
