import MiniPascal.OrderedMap
import MiniPascal.Run.Value
import MiniPascal.Tree.Printer

/-!
Running programs. A session keeps its store from one program to the next, and what a program
assigned before it failed stays assigned. Declarations have no part in a run.
-/

set_option autoImplicit false
set_option relaxedAutoImplicit false

namespace MiniPascal

/-- The values of the variables, in the order in which these were first assigned. -/
structure Store where
  values : OrderedMap Value
  deriving DecidableEq

namespace Store

def empty : Store := ⟨.empty⟩

def entries (s : Store) : List (String × Value) := s.values.entries

def names (s : Store) : List String := s.values.keys

def get? (s : Store) (name : String) : Option Value := s.values.get? name

def put (s : Store) (name : String) (v : Value) : Store := ⟨s.values.put name v⟩

theorem get?_put (s : Store) (name other : String) (v : Value) :
    (s.put name v).get? other = if name = other then some v else s.get? other :=
  s.values.get?_put name other v

theorem names_put (s : Store) (name : String) (v : Value) :
    (s.put name v).names = if name ∈ s.names then s.names else s.names ++ [name] :=
  s.values.keys_put name v

end Store

namespace Expr

/-- Operands come before operators, the left one before the right one, and the first error is the
answer. -/
def eval (store : Store) : Expr → Except EvalError Value
  | .integer n => .ok (.integer n)
  | .real x => .ok (.real x)
  | .var name =>
    match store.get? name with
    | some v => .ok v
    | none => .error (.undefined name)
  | .binary left op right => do
    let x ← left.eval store
    let y ← right.eval store
    Value.apply op x y
  | .unary op operand => do
    let v ← operand.eval store
    Value.applySign op v

end Expr

/-- An error, and the statement of the program's own body in which it arose. -/
structure RuntimeError where
  cause : EvalError
  statement : Statement

namespace RuntimeError

def message (e : RuntimeError) : String :=
  "Error executing statement: " ++ e.statement.text ++ " - " ++ e.cause.message

end RuntimeError

/-- The store, and the assignments that made it, the earliest first. -/
structure Session where
  store : Store
  performed : Array (String × Value)

namespace Session

def start : Session := ⟨.empty, #[]⟩

def assign (s : Session) (name : String) (v : Value) : Session :=
  ⟨s.store.put name v, s.performed.push (name, v)⟩

mutual

/-- Run a statement, or as much of it as can be run. -/
def execute (s : Session) : Statement → Except EvalError Unit × Session
  | .compound body => s.executeAll body
  | .assign target value =>
    match value.eval s.store with
    | .ok v => (.ok (), s.assign target v)
    | .error e => (.error e, s)
  | .skip => (.ok (), s)

def executeAll (s : Session) : List Statement → Except EvalError Unit × Session
  | [] => (.ok (), s)
  | statement :: rest =>
    match s.execute statement with
    | (.ok (), s') => s'.executeAll rest
    | (.error e, s') => (.error e, s')

end

def runBody (s : Session) : List Statement → Except RuntimeError Unit × Session
  | [] => (.ok (), s)
  | statement :: rest =>
    match s.execute statement with
    | (.ok (), s') => s'.runBody rest
    | (.error e, s') => (.error ⟨e, statement⟩, s')

def run (s : Session) (p : Program) : Except RuntimeError Unit × Session := s.runBody p.body

end Session

end MiniPascal
