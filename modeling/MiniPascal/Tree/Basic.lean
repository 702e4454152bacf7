import MiniPascal.Number.Binary64

/-!
Programs as trees.
-/

set_option autoImplicit false
set_option relaxedAutoImplicit false

namespace MiniPascal

inductive BinaryOp
  | add | subtract | multiply | divide | div
  deriving DecidableEq

inductive UnaryOp
  | plus | minus
  deriving DecidableEq

inductive Expr
  | integer (n : Int64)
  | real (x : Binary64)
  | var (name : String)
  | binary (left : Expr) (op : BinaryOp) (right : Expr)
  | unary (op : UnaryOp) (operand : Expr)
  deriving DecidableEq

/-- A compound is a list of statements between `BEGIN` and `END`; between two semicolons there may
be nothing, and that is a statement as well. -/
inductive Statement
  | compound (body : List Statement)
  | assign (target : String) (value : Expr)
  | skip

/-- A variable has a name and the name of a type. A procedure has a block of its own: declarations
and a body. -/
inductive Declaration
  | var (name : String) (type : String)
  | procedure (name : String) (declarations : List Declaration) (body : List Statement)

/-- A program is a name and a block. -/
structure Program where
  name : String
  declarations : List Declaration
  body : List Statement

namespace BinaryOp

def text : BinaryOp → String
  | .add => "+"
  | .subtract => "-"
  | .multiply => "*"
  | .divide => "/"
  | .div => "DIV"

end BinaryOp

namespace UnaryOp

def text : UnaryOp → String
  | .plus => "+"
  | .minus => "-"

end UnaryOp

namespace Expr

/-- Equality of trees that compares numbers as numbers: a NaN makes a tree unequal to itself, and
the two zeros are equal. -/
def same : Expr → Expr → Bool
  | .integer m, .integer n => m = n
  | .real x, .real y => x.same y
  | .var a, .var b => a = b
  | .binary l op r, .binary l' op' r' => l.same l' && op = op' && r.same r'
  | .unary op e, .unary op' e' => op = op' && e.same e'
  | _, _ => false

end Expr

mutual

def Statement.same : Statement → Statement → Bool
  | .compound body, .compound body' => Statement.sameAll body body'
  | .assign target value, .assign target' value' => target = target' && value.same value'
  | .skip, .skip => true
  | _, _ => false

def Statement.sameAll : List Statement → List Statement → Bool
  | [], [] => true
  | s :: ss, s' :: ss' => s.same s' && Statement.sameAll ss ss'
  | _, _ => false

end

mutual

def Declaration.same : Declaration → Declaration → Bool
  | .var name type, .var name' type' => name = name' && type = type'
  | .procedure name declarations body, .procedure name' declarations' body' =>
    name = name' && Declaration.sameAll declarations declarations' && Statement.sameAll body body'
  | _, _ => false

def Declaration.sameAll : List Declaration → List Declaration → Bool
  | [], [] => true
  | d :: ds, d' :: ds' => d.same d' && Declaration.sameAll ds ds'
  | _, _ => false

end

namespace Program

def same (p q : Program) : Bool :=
  p.name = q.name && Declaration.sameAll p.declarations q.declarations &&
    Statement.sameAll p.body q.body

end Program

end MiniPascal
