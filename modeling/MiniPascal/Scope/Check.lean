import MiniPascal.Scope.Table
import MiniPascal.Tree.Basic

/-!
The name check. Every block gets a scope; every name that a statement uses must stand for a variable
there. The scopes outlive the check, whatever its outcome.
-/

set_option autoImplicit false
set_option relaxedAutoImplicit false

namespace MiniPascal

inductive NameError
  | undeclared (name : String)
  | unknownType (name : String)
  | duplicate (name : String) (scope : String)
  | notVariable (name : String)
  deriving DecidableEq

namespace NameError

def message : NameError → String
  | .undeclared name => "Undeclared variable: " ++ name
  | .unknownType name => "Unknown type: " ++ name
  | .duplicate name scope => "Duplicate declaration of " ++ name ++ " in scope " ++ scope
  | .notVariable name => "Not a variable: " ++ name

end NameError

namespace Expr

def names : Expr → List String
  | .integer _ | .real _ => []
  | .var name => [name]
  | .binary left _ right => left.names ++ right.names
  | .unary _ operand => operand.names

end Expr

mutual

/-- The names that a statement uses, each target before its value. -/
def Statement.names : Statement → List String
  | .compound body => Statement.namesAll body
  | .assign target value => target :: value.names
  | .skip => []

def Statement.namesAll : List Statement → List String
  | [] => []
  | s :: ss => s.names ++ Statement.namesAll ss

end

/-- The scopes, and the declarations that were reached, each with the name of its scope. -/
structure Survey where
  table : ScopeTable
  declared : Array (Symbol × String)

namespace Survey

def start : Survey := ⟨.start, #[]⟩

def complaint? (s : Survey) (i : Nat) (name : String) : Option NameError :=
  match s.table.lookup i name with
  | some (.var _ _) => none
  | some _ => some (.notVariable name)
  | none => some (.undeclared name)

def checkNames (s : Survey) (i : Nat) (names : List String) : Except NameError Unit :=
  match names.findSome? (s.complaint? i) with
  | some e => .error e
  | none => .ok ()

/-- A symbol is declared in its own scope `i`, where no other may have its name. -/
def declare (s : Survey) (i : Nat) (x : Symbol) : Except NameError Unit × Survey :=
  let scope := s.table.nameOf i
  let reached := s.declared.push (x, scope)
  match s.table.get? i x.name with
  | some _ => (.error (.duplicate x.name scope), ⟨s.table, reached⟩)
  | none => (.ok (), ⟨s.table.add i x, reached⟩)

/-- Open a scope within scope `parent`; its number is the second part. -/
def openIn (s : Survey) (parent : Nat) (name : String) : Survey × Nat :=
  (⟨s.table.openIn parent name, s.declared⟩, s.table.scopes.size)

/-- The statements of a block are checked behind its declarations, if these are in order. -/
def checkBody (i : Nat) (body : List Statement) :
    Except NameError Unit × Survey → Except NameError Unit × Survey
  | (.error e, s) => (.error e, s)
  | (.ok (), s) => (s.checkNames i (Statement.namesAll body), s)

mutual

/-- Check a declaration in scope `i`. A procedure is declared before its block is checked, so that
the block can see it. -/
def checkDeclaration (s : Survey) (i : Nat) : Declaration → Except NameError Unit × Survey
  | .var name type =>
    match s.table.lookup i type with
    | some (.builtin type) => s.declare i (.var name type)
    | _ => (.error (.unknownType type), s)
  | .procedure name declarations body =>
    match s.declare i (.procedure name) with
    | (.error e, s') => (.error e, s')
    | (.ok (), s') =>
      let (opened, inner) := s'.openIn i name
      checkBody inner body (opened.checkDeclarations inner declarations)

def checkDeclarations (s : Survey) (i : Nat) : List Declaration → Except NameError Unit × Survey
  | [] => (.ok (), s)
  | d :: ds =>
    match s.checkDeclaration i d with
    | (.error e, s') => (.error e, s')
    | (.ok (), s') => s'.checkDeclarations i ds

end

def check (s : Survey) (p : Program) : Except NameError Unit × Survey :=
  let (opened, inner) := s.openIn ScopeTable.outermost p.name
  checkBody inner p.body (opened.checkDeclarations inner p.declarations)

end Survey

end MiniPascal
