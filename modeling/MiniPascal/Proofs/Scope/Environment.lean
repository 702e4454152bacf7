import MiniPascal.Scope.Check

/-!
Lexical scoping without a table of scopes. An environment is a row of frames, the innermost first;
it is handed on by value, so a block cannot leave anything behind in the blocks around it. The chain
of a scope in a table is such an environment, and `lookup_eq_symbol?` says that looking up along the
chain is looking up there.
-/

set_option autoImplicit false
set_option relaxedAutoImplicit false

namespace MiniPascal

abbrev Frame := String → Option Symbol

/-- The frames that can be seen from a block, its own one first. -/
abbrev Environment := List Frame

namespace Frame

def empty : Frame := fun _ => none

def add (frame : Frame) (name : String) (x : Symbol) : Frame :=
  fun other => if other = name then some x else frame other

def builtins : Frame :=
  (empty.add "INTEGER" (.builtin .integer)).add "REAL" (.builtin .real)

/-- Declare a name in the frame of a block, where it must be new. -/
def declare (block : String) (frame : Frame) (name : String) (x : Symbol) :
    Except NameError Frame :=
  match frame name with
  | some _ => .error (.duplicate name block)
  | none => .ok (frame.add name x)

end Frame

namespace Environment

/-- What a name stands for: the innermost frame that has it decides. -/
def symbol? (env : Environment) (name : String) : Option Symbol :=
  env.findSome? fun frame => frame name

def checkName (env : Environment) (name : String) : Except NameError Unit :=
  match env.symbol? name with
  | some (.var _ _) => .ok ()
  | some _ => .error (.notVariable name)
  | none => .error (.undeclared name)

def checkExpr (env : Environment) : Expr → Except NameError Unit
  | .integer _ | .real _ => .ok ()
  | .var name => env.checkName name
  | .binary left _ right => do
    env.checkExpr left
    env.checkExpr right
  | .unary _ operand => env.checkExpr operand

mutual

/-- The target of an assignment is checked before its value. -/
def checkStatement (env : Environment) : Statement → Except NameError Unit
  | .compound body => env.checkStatements body
  | .assign target value => do
    env.checkName target
    env.checkExpr value
  | .skip => .ok ()

def checkStatements (env : Environment) : List Statement → Except NameError Unit
  | [] => .ok ()
  | s :: ss => do
    env.checkStatement s
    env.checkStatements ss

end

mutual

/-- Check a declaration in the block of that name; the result is the frame of the block with the
declaration in it. The type of a variable is looked up before the variable is declared. A procedure
is declared before its own block is checked, in a new frame. -/
def checkDeclaration (block : String) (outer : Environment) (frame : Frame) :
    Declaration → Except NameError Frame
  | .var name type =>
    match symbol? (frame :: outer) type with
    | some (.builtin t) => frame.declare block name (.var name t)
    | _ => .error (.unknownType type)
  | .procedure name declarations body => do
    let frame ← frame.declare block name (.procedure name)
    let inner ← checkDeclarations name (frame :: outer) .empty declarations
    checkStatements (inner :: frame :: outer) body
    return frame

def checkDeclarations (block : String) (outer : Environment) (frame : Frame) :
    List Declaration → Except NameError Frame
  | [] => .ok frame
  | d :: ds => do
    let frame ← checkDeclaration block outer frame d
    checkDeclarations block outer frame ds

end

def checkBlock (block : String) (outer : Environment) (declarations : List Declaration)
    (body : List Statement) : Except NameError Unit := do
  let frame ← checkDeclarations block outer .empty declarations
  checkStatements (frame :: outer) body

def checkProgram (p : Program) : Except NameError Unit :=
  checkBlock p.name [.builtins] p.declarations p.body

end Environment

namespace ScopeTable

/-- The scopes on the chain of a scope, from the scope itself outwards. -/
def environment (t : ScopeTable) (i : Nat) : Environment :=
  t.get? i ::
    match t.parent? i with
    | none => []
    | some j => if j < i then t.environment j else []
termination_by i

def outer (t : ScopeTable) (i : Nat) : Environment := (t.environment i).tail

theorem environment_eq (t : ScopeTable) (i : Nat) : t.environment i = t.get? i :: t.outer i := by
  rw [outer, environment, List.tail_cons]

private theorem outer_eq (t : ScopeTable) (i : Nat) :
    t.outer i = match t.parent? i with
      | none => []
      | some j => if j < i then t.environment j else [] := by
  rw [outer, environment, List.tail_cons]

/-- Looking up in a table is looking up in the environment of the scope. -/
theorem lookup_eq_symbol? (t : ScopeTable) (i : Nat) (name : String) :
    t.lookup i name = (t.environment i).symbol? name := by
  induction i using Nat.strongRecOn with
  | _ i ih =>
    rw [lookup, environment_eq, outer_eq, Environment.symbol?, List.findSome?_cons]
    cases t.get? i name with
    | some x => rfl
    | none =>
      cases t.parent? i with
      | none => rfl
      | some j =>
        by_cases hj : j < i
        · simp only [hj, if_true]
          exact ih j hj
        · simp [hj]

theorem environment_start : start.environment outermost = [.builtins] := by
  have hframe : start.get? outermost = Frame.builtins := by
    funext name
    calc
      start.get? outermost name = Scope.builtins.get? name := rfl
      _ = if "REAL" = name then some (.builtin .real)
          else if "INTEGER" = name then some (.builtin .integer) else none := by
        simp only [Scope.builtins, BuiltinType.all, List.foldl_cons, List.foldl_nil,
          Scope.get?_add, Symbol.name, BuiltinType.text]
        rfl
      _ = Frame.builtins name := by
        simp only [Frame.builtins, Frame.add, Frame.empty, eq_comm]
  rw [environment_eq, outer_eq, hframe]
  rfl

/-- The scopes of a table are still there, as they were. -/
structure Extends (t t' : ScopeTable) : Prop where
  size_le : t.scopes.size ≤ t'.scopes.size
  kept : ∀ j < t.scopes.size, t'.scopes[j]? = t.scopes[j]?

/-- Of the scopes of a table only one has changed, and that neither in its name nor in its place. -/
structure GrownIn (i : Nat) (t t' : ScopeTable) : Prop where
  size_le : t.scopes.size ≤ t'.scopes.size
  others : ∀ j < t.scopes.size, j ≠ i → t'.scopes[j]? = t.scopes[j]?
  nameOf : t'.nameOf i = t.nameOf i
  parent? : t'.parent? i = t.parent? i

section Growth

variable {t t' t'' : ScopeTable} {i j : Nat}

theorem GrownIn.refl (i : Nat) (t : ScopeTable) : t.GrownIn i t where
  size_le := Nat.le_refl _
  others _ _ _ := rfl
  nameOf := rfl
  parent? := rfl

theorem GrownIn.trans (h : GrownIn i t t') (h' : GrownIn i t' t'') : GrownIn i t t'' where
  size_le := Nat.le_trans h.size_le h'.size_le
  others j hj hne := (h'.others j (Nat.lt_of_lt_of_le hj h.size_le) hne).trans (h.others j hj hne)
  nameOf := h'.nameOf.trans h.nameOf
  parent? := h'.parent?.trans h.parent?

theorem Extends.grownIn (h : Extends t t') (hi : i < t.scopes.size) : GrownIn i t t' where
  size_le := h.size_le
  others j hj _ := h.kept j hj
  nameOf := by rw [ScopeTable.nameOf, ScopeTable.nameOf, h.kept i hi]
  parent? := by rw [ScopeTable.parent?, ScopeTable.parent?, h.kept i hi]

theorem GrownIn.extends (h : GrownIn i t' t'') (ht : Extends t t') (hi : t.scopes.size ≤ i) :
    Extends t t'' where
  size_le := Nat.le_trans ht.size_le h.size_le
  kept j hj := by
    have hne : j ≠ i := Nat.ne_of_lt (Nat.lt_of_lt_of_le hj hi)
    exact (h.others j (Nat.lt_of_lt_of_le hj ht.size_le) hne).trans (ht.kept j hj)

private theorem environment_congr (h : ∀ j ≤ i, t'.scopes[j]? = t.scopes[j]?) :
    t'.environment i = t.environment i := by
  induction i using Nat.strongRecOn with
  | _ i ih =>
    have hget : t'.get? i = t.get? i := by
      funext name
      rw [get?, get?, h i (Nat.le_refl i)]
    have hparent : t'.parent? i = t.parent? i := by
      rw [parent?, parent?, h i (Nat.le_refl i)]
    rw [environment_eq, environment_eq, outer_eq, outer_eq, hget, hparent]
    congr 1
    cases t.parent? i with
    | none => rfl
    | some j =>
      by_cases hj : j < i
      · simpa [hj] using ih j hj fun k hk => h k (Nat.le_of_lt (Nat.lt_of_le_of_lt hk hj))
      · simp [hj]

private theorem Extends.environment (h : Extends t t') (hi : i < t.scopes.size) :
    t'.environment i = t.environment i :=
  environment_congr fun j hj => h.kept j (Nat.lt_of_le_of_lt hj hi)

theorem Extends.get? (h : Extends t t') (hi : i < t.scopes.size) : t'.get? i = t.get? i := by
  funext name
  rw [ScopeTable.get?, ScopeTable.get?, h.kept i hi]

theorem GrownIn.outer (h : GrownIn i t t') (hi : i < t.scopes.size) : t'.outer i = t.outer i := by
  rw [outer_eq, outer_eq, h.parent?]
  cases t.parent? i with
  | none => rfl
  | some j =>
    by_cases hj : j < i
    · simp only [hj, if_true]
      refine environment_congr fun k hk => h.others k ?_ ?_ <;> omega
    · simp [hj]

theorem grownIn_add (t : ScopeTable) (i : Nat) (x : Symbol) : t.GrownIn i (t.add i x) where
  size_le := by simp [add]
  others j _ hne := by simp [add, Array.getElem?_modify, hne.symm]
  nameOf := by
    simp only [ScopeTable.nameOf, add, Array.getElem?_modify, if_true, Option.map_map]
    rfl
  parent? := by
    simp only [ScopeTable.parent?, add, Array.getElem?_modify, if_true, Option.bind_map]
    rfl

theorem get?_add {x : Symbol} (hi : i < t.scopes.size) :
    (t.add i x).get? i = Frame.add (t.get? i) x.name x := by
  funext name
  simp only [ScopeTable.get?, add, Array.getElem?_modify, if_true, Array.getElem?_eq_getElem hi,
    Option.map_some, Option.bind_some, Scope.get?_add, Frame.add, eq_comm]

theorem extends_openIn (t : ScopeTable) (parent : Nat) (name : String) :
    t.Extends (t.openIn parent name) where
  size_le := by simp [openIn]
  kept j hj := by simp [openIn, Array.getElem?_push_lt hj, Array.getElem?_eq_getElem hj]

theorem get?_openIn (t : ScopeTable) (parent : Nat) (name : String) :
    (t.openIn parent name).get? t.scopes.size = Frame.empty := by
  funext other
  simp only [openIn, ScopeTable.get?, Array.getElem?_push_size, Option.bind_some]
  rfl

theorem nameOf_openIn (t : ScopeTable) (parent : Nat) (name : String) :
    (t.openIn parent name).nameOf t.scopes.size = name := by
  simp [openIn, nameOf, Scope.bare]

theorem parent?_openIn (t : ScopeTable) (parent : Nat) (name : String) :
    (t.openIn parent name).parent? t.scopes.size = some parent := by
  simp [openIn, ScopeTable.parent?, Scope.bare]

theorem outer_openIn {parent : Nat} (hparent : parent < t.scopes.size) (name : String) :
    (t.openIn parent name).outer t.scopes.size = t.environment parent := by
  rw [outer_eq, parent?_openIn]
  simp only [hparent, if_true]
  exact (extends_openIn t parent name).environment hparent

end Growth

end ScopeTable

end MiniPascal
