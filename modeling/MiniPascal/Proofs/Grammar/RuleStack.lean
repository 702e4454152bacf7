import MiniPascal.Grammar.Program

/-!
Reading with a stack of open rules that is kept by the steps themselves. Every rule puts its name on
the stack when it is entered and takes one off however it is left; depth is looked up on the stack,
and an error takes its context from there. The course of a reading lists the moments at which
something happens to the stack or is read off it.
-/

set_option autoImplicit false
set_option relaxedAutoImplicit false

namespace MiniPascal

/-- A moment in the course of reading, with the stack as it is then, the innermost rule first: a
rule has just been put on top, a rule has just been left, with a result or without one, or an error
is made. -/
inductive Moment
  | opened (stack : List Rule)
  | closed (rule : Rule) (stack : List Rule) (succeeded : Bool)
  | refused (stack : List Rule) (m : Misplaced)

def Moment.stack : Moment → List Rule
  | .opened stack | .closed _ stack _ | .refused stack _ => stack

def Reply.isOk {α : Type} : Reply α → Bool
  | .ok _ _ => true
  | .error _ _ => false

/-- What becomes of a step: its reply, the stack as it leaves it, and the moments on its way. -/
structure Outcome (α : Type) where
  reply : Reply α
  stack : List Rule
  course : List Moment

structure Stacked (α : Type) where
  run : List Rule → Feed → Outcome α

namespace Stacked

variable {α β γ : Type}

protected def pure (a : α) : Stacked α := ⟨fun stack feed => ⟨.ok a feed, stack, []⟩⟩

protected def bind (p : Stacked α) (f : α → Stacked β) : Stacked β where
  run stack feed :=
    let o := p.run stack feed
    match o.reply with
    | .ok a rest =>
      let o' := (f a).run o.stack rest
      ⟨o'.reply, o'.stack, o.course ++ o'.course⟩
    | .error e rest => ⟨.error e rest, o.stack, o.course⟩

instance : Monad Stacked where
  pure := Stacked.pure
  bind := Stacked.bind

/-- Enter a rule, and leave it on every way out: what is on top of the stack then is taken off. -/
def within (rule : Rule) (p : Stacked α) : Stacked α where
  run stack feed :=
    let o := p.run (rule :: stack) feed
    ⟨o.reply, o.stack.tail,
      .opened (rule :: stack) :: (o.course ++ [.closed rule o.stack.tail o.reply.isOk])⟩

def current : Stacked Token := ⟨fun stack feed => ⟨Parse.current.run feed, stack, []⟩⟩

def fetchFirst (p : Stacked α) : Stacked α := do
  let _ ← current
  p

/-- Take the token in front off and fetch the next one, so that a fault shows itself at once. -/
def advance : Stacked Unit where
  run stack feed := ⟨(do Parse.advance; let _ ← Parse.current).run feed, stack, []⟩

def refuse (expected : Expectation) : Stacked α := do
  let found ← current
  ⟨fun stack feed =>
    let m : Misplaced := ⟨expected, found, stack.reverse⟩
    ⟨.error (.misplaced m) feed, stack, [.refused stack m]⟩⟩

def checkDepth : Stacked Unit where
  run stack feed :=
    if stack.length ≤ Rule.limit then ⟨.ok () feed, stack, []⟩
    else (refuse .shallower).run stack feed

/-- A rule that looks at the depth when it is entered, and that has itself in it. It is entered `n`
times at most, one inside the other, and then refused as too deep. -/
def nested : Nat → Rule → (Stacked α → Stacked α) → Stacked α
  | 0, rule, _ => within rule (refuse .shallower)
  | n + 1, rule, body => within rule do
    checkDepth
    body (nested n rule body)

def expect (kind : TokenKind) : Stacked Unit := do
  let t ← current
  if t.kind = kind then advance else refuse (.token kind)

def identifier : Stacked String := do
  match (← current).kind with
  | .identifier name => do
    advance
    return name
  | _ => refuse .identifier

/-- A number of rounds at most, as long as the token in front is one of those that `accept?` knows.
The token is left to the item. -/
def rounds (accept? : TokenKind → Option β) (item : β → Stacked γ) : Nat → Stacked (List γ)
  | 0 => do
    let _ ← current
    return []
  | n + 1 => do
    match accept? (← current).kind with
    | none => return []
    | some b => do
      let c ← item b
      let cs ← rounds accept? item n
      return c :: cs

def loop (accept? : TokenKind → Option β) (item : β → Stacked γ) : Stacked (List γ) :=
  ⟨fun stack feed => (rounds accept? item feed.tokens.length).run stack feed⟩

section Expressions

def chain (op? : TokenKind → Option BinaryOp) (operand : Stacked Expr) : Stacked Expr := do
  let first ← operand
  let others ← loop op? fun op => do
    advance
    let right ← operand
    return (op, right)
  return others.foldl (fun left other => .binary left other.1 other.2) first

def term (factor : Stacked Expr) : Stacked Expr := within .term (chain Parse.productOp? factor)

def expr (factor : Stacked Expr) : Stacked Expr := within .expr (chain Parse.sumOp? (term factor))

def factor : Stacked Expr := nested Rule.limit .factor fun inner => do
  let t ← current
  match Parse.sign? t.kind with
  | some op => do
    advance
    let operand ← inner
    return .unary op operand
  | none =>
    match Parse.atom? t.kind with
    | some e => do
      advance
      return e
    | none =>
      if t.kind = .mark .leftParen then do
        advance
        let e ← expr inner
        expect (.mark .rightParen)
        return e
      else refuse .expression

def loneExpr : Stacked Expr := do
  let e ← fetchFirst (expr factor)
  expect .endOfInput
  return e

end Expressions

section Statements

def assignmentStatement : Stacked Statement := within .assignmentStatement do
  let target ← identifier
  expect (.mark .assign)
  let value ← expr factor
  return .assign target value

def statement (compound : Stacked (List Statement)) : Stacked Statement := within .statement do
  match (← current).kind with
  | .reserved .blockBegin => do
    let body ← compound
    return .compound body
  | .identifier _ => assignmentStatement
  | _ => return .skip

def statementList (item : Stacked Statement) : Stacked (List Statement) :=
  within .statementList do
    let first ← item
    let others ← loop (Parse.only (.mark .semicolon)) fun _ => do
      advance
      item
    return first :: others

def compoundStatement : Stacked (List Statement) :=
  nested Rule.limit .compoundStatement fun inner => do
    expect (.reserved .blockBegin)
    let body ← statementList (statement inner)
    if (← current).kind = .reserved .blockEnd then do
      advance
      return body
    else refuse (.oneOf [.mark .semicolon, .reserved .blockEnd])

end Statements

section Declarations

def typeSpec : Stacked String := within .typeSpec do
  match (← current).kind with
  | .reserved .integer => do
    advance
    return Reserved.integer.text
  | .reserved .real => do
    advance
    return Reserved.real.text
  | _ => refuse (.oneOf [.reserved .integer, .reserved .real])

def varDeclaration : Stacked (List Declaration) := within .varDeclaration do
  let first ← identifier
  let others ← loop (Parse.only (.mark .comma)) fun _ => do
    advance
    identifier
  expect (.mark .colon)
  let type ← typeSpec
  return (first :: others).map (.var · type)

def varLine : Stacked (List Declaration) := do
  let vars ← varDeclaration
  expect (.mark .semicolon)
  return vars

def declarations (procedure : Stacked Declaration) : Stacked (List Declaration) :=
  within .declarations do
    let groups ← loop (Parse.only (.reserved .var)) fun _ => do
      advance
      let first ← varLine
      let others ← loop Parse.name? fun _ => varLine
      return first ++ others.flatten
    let procedures ← loop (Parse.only (.reserved .procedure)) fun _ => procedure
    return groups.flatten ++ procedures

def block (procedure : Stacked Declaration) : Stacked (List Declaration × List Statement) :=
  within .block do
    let ds ← declarations procedure
    let body ← compoundStatement
    return (ds, body)

def procedureDeclaration : Stacked Declaration :=
  nested Rule.limit .procedureDeclaration fun inner => do
    expect (.reserved .procedure)
    let name ← identifier
    expect (.mark .semicolon)
    let (ds, body) ← block inner
    expect (.mark .semicolon)
    return .procedure name ds body

def program : Stacked Program := fetchFirst <| within .program do
  expect (.reserved .program)
  let name ← identifier
  expect (.mark .semicolon)
  let (ds, body) ← block procedureDeclaration
  expect (.mark .dot)
  expect .endOfInput
  return ⟨name, ds, body⟩

end Declarations

def programOfString (source : String) : Outcome Program := program.run [] (Feed.ofString source)

def exprOfString (source : String) : Outcome Expr := loneExpr.run [] (Feed.ofString source)

end Stacked

end MiniPascal
