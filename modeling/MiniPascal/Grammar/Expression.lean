import MiniPascal.Grammar.Parse
import MiniPascal.Tree.Basic

/-!
Expressions: sums of products of factors.
-/

set_option autoImplicit false
set_option relaxedAutoImplicit false

namespace MiniPascal.Parse

def sumOp? : TokenKind → Option BinaryOp
  | .mark .plus => some .add
  | .mark .minus => some .subtract
  | _ => none

def productOp? : TokenKind → Option BinaryOp
  | .mark .star => some .multiply
  | .mark .slash => some .divide
  | .reserved .div => some .div
  | _ => none

def sign? : TokenKind → Option UnaryOp
  | .mark .plus => some .plus
  | .mark .minus => some .minus
  | _ => none

/-- Operands with operators between them, grouped from the left. -/
def chain (op? : TokenKind → Option BinaryOp) (operand : Parse Expr) : Parse Expr := do
  let first ← operand
  let others ← many op? fun op => do
    let right ← operand
    return (op, right)
  return others.foldl (fun left other => .binary left other.1 other.2) first

def sumOf (factor : Parse Expr) : Parse Expr := chain sumOp? (chain productOp? factor)

def atom? : TokenKind → Option Expr
  | .integer n => some (.integer n)
  | .real x => some (.real x)
  | .identifier name => some (.var name)
  | _ => none

/-- A factor is a signed factor, a number, a name, or an expression in parentheses. The list of open
rules begins with the rule for the factor itself. -/
def factor (rules : List Rule) : Parse Expr :=
  if _h : rules.length ≤ Rule.limit then do
    let t ← current
    match sign? t.kind with
    | some op => do
      advance
      let operand ← factor (.factor :: rules)
      return .unary op operand
    | none =>
      match atom? t.kind with
      | some e => do
        advance
        return e
      | none =>
        if t.kind = .mark .leftParen then do
          advance
          let e ← sumOf (factor (.factor :: .term :: .expr :: rules))
          expect rules (.mark .rightParen)
          return e
        else refuse rules .expression
  else refuse rules .shallower
termination_by Rule.limit + 1 - rules.length
decreasing_by all_goals simp only [List.length_cons]; omega

def expr (rules : List Rule) : Parse Expr := sumOf (factor (.factor :: .term :: .expr :: rules))

def loneExpr : Parse Expr := do
  let e ← expr []
  expect [] .endOfInput
  return e

end MiniPascal.Parse

namespace MiniPascal.Expr

def ofString (source : String) : Except ParseError Expr :=
  (Parse.loneExpr.run (Feed.ofString source)).toExcept

end MiniPascal.Expr
