import MiniPascal.Grammar.Expression

/-!
Statements, declarations and programs.
-/

set_option autoImplicit false
set_option relaxedAutoImplicit false

namespace MiniPascal.Parse

def assignment (rules : List Rule) : Parse Statement := do
  let target ← identifier rules
  expect rules (.mark .assign)
  let value ← expr rules
  return .assign target value

/-- A statement, given how a compound is read. Where no other statement begins stands the empty
one. -/
def statement (rules : List Rule) (compound : Parse (List Statement)) : Parse Statement := do
  match (← current).kind with
  | .reserved .blockBegin => do
    let body ← compound
    return .compound body
  | .identifier _ => assignment (.assignmentStatement :: rules)
  | _ => return .skip

def statementList (item : Parse Statement) : Parse (List Statement) := do
  let first ← item
  let others ← many (only (.mark .semicolon)) fun _ => item
  return first :: others

/-- Statements between `BEGIN` and `END`. The list of open rules begins with the rule for the
compound itself. -/
def compound (rules : List Rule) : Parse (List Statement) :=
  if _h : rules.length ≤ Rule.limit then do
    expect rules (.reserved .blockBegin)
    let inner := .statement :: .statementList :: rules
    let body ← statementList (statement inner (compound (.compoundStatement :: inner)))
    if (← current).kind = .reserved .blockEnd then do
      advance
      return body
    else refuse rules (.oneOf [.mark .semicolon, .reserved .blockEnd])
  else refuse rules .shallower
termination_by Rule.limit + 1 - rules.length
decreasing_by simp only [List.length_cons]; omega

/-- The name of a type is a reserved word. -/
def typeSpec (rules : List Rule) : Parse String := do
  match (← current).kind with
  | .reserved .integer => do
    advance
    return Reserved.integer.text
  | .reserved .real => do
    advance
    return Reserved.real.text
  | _ => refuse rules (.oneOf [.reserved .integer, .reserved .real])

/-- Variables of one type, behind the name of the first one, and the semicolon after them. -/
def varsAfter (rules : List Rule) (first : String) : Parse (List Declaration) := do
  let inner := .varDeclaration :: rules
  let others ← many (only (.mark .comma)) fun _ => identifier inner
  expect inner (.mark .colon)
  let type ← typeSpec (.typeSpec :: inner)
  expect rules (.mark .semicolon)
  return (first :: others).map (.var · type)

def name? : TokenKind → Option String
  | .identifier name => some name
  | _ => none

/-- Behind `VAR` stand variables of one type, and then more as long as a name follows. -/
def varGroup (rules : List Rule) : Parse (List Declaration) := do
  let name ← identifier (.varDeclaration :: rules)
  let first ← varsAfter rules name
  let others ← many name? (varsAfter rules)
  return first ++ others.flatten

def block (rules : List Rule) (procedures : Parse (List Declaration)) :
    Parse (List Declaration × List Statement) := do
  let groups ← many (only (.reserved .var)) fun _ => varGroup (.declarations :: rules)
  let procedures ← procedures
  let body ← compound (.compoundStatement :: rules)
  return (groups.flatten ++ procedures, body)

/-- Procedures, one behind the other. The list of open rules begins with the rule for a procedure;
where that is too deep, the first procedure is refused. -/
def procedures (rules : List Rule) : Parse (List Declaration) :=
  if _h : rules.length ≤ Rule.limit then
    many (only (.reserved .procedure)) fun _ => do
      let name ← identifier rules
      expect rules (.mark .semicolon)
      let inner := .block :: rules
      let (declarations, body) ←
        block inner (procedures (.procedureDeclaration :: .declarations :: inner))
      expect rules (.mark .semicolon)
      return .procedure name declarations body
  else do
    if (← current).kind = .reserved .procedure then refuse rules .shallower else return []
termination_by Rule.limit + 1 - rules.length
decreasing_by simp only [List.length_cons]; omega

def program : Parse Program := do
  let rules := [Rule.program]
  expect rules (.reserved .program)
  let name ← identifier rules
  expect rules (.mark .semicolon)
  let inner := .block :: rules
  let (declarations, body) ←
    block inner (procedures (.procedureDeclaration :: .declarations :: inner))
  expect rules (.mark .dot)
  expect rules .endOfInput
  return ⟨name, declarations, body⟩

end MiniPascal.Parse

namespace MiniPascal.Program

def ofScanner (s : Scanner) : Except ParseError Program :=
  (Parse.program.run (Feed.ofScanner s)).toExcept

def ofString (source : String) : Except ParseError Program := ofScanner (.ofString source)

end MiniPascal.Program
