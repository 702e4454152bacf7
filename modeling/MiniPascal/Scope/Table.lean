import MiniPascal.OrderedMap

/-!
What names can stand for, and scopes. Each scope lies within an earlier one, and all of them in the
scope of the builtin types.
-/

set_option autoImplicit false
set_option relaxedAutoImplicit false

namespace MiniPascal

inductive BuiltinType
  | integer | real
  deriving DecidableEq

namespace BuiltinType

def all : List BuiltinType := [.integer, .real]

def text : BuiltinType → String
  | .integer => "INTEGER"
  | .real => "REAL"

end BuiltinType

inductive Symbol
  | builtin (type : BuiltinType)
  | var (name : String) (type : BuiltinType)
  | procedure (name : String)
  deriving DecidableEq

namespace Symbol

def name : Symbol → String
  | .builtin type => type.text
  | .var name _ | .procedure name => name

def text : Symbol → String
  | .builtin type => "<builtin " ++ type.text ++ ">"
  | .var name type => "<var " ++ name ++ " : " ++ type.text ++ ">"
  | .procedure name => "<procedure " ++ name ++ ">"

end Symbol

/-- The symbols of a block, each under its own name, and the number of the scope around it. -/
structure Scope where
  name : String
  level : Nat
  parent : Option Nat
  bindings : OrderedMap Symbol
  named : ∀ b ∈ bindings.entries, b.1 = b.2.name
  deriving DecidableEq

namespace Scope

def bare (name : String) (level : Nat) (parent : Option Nat) : Scope :=
  ⟨name, level, parent, .empty, List.forall_mem_nil _⟩

def symbols (s : Scope) : List Symbol := s.bindings.entries.map Prod.snd

def get? (s : Scope) (name : String) : Option Symbol := s.bindings.get? name

def add (s : Scope) (x : Symbol) : Scope where
  name := s.name
  level := s.level
  parent := s.parent
  bindings := s.bindings.put x.name x
  named b hb := by
    rcases OrderedMap.mem_entries_put hb with rfl | hb
    · rfl
    · exact s.named b hb

def builtins : Scope :=
  BuiltinType.all.foldl (fun s type => s.add (.builtin type)) (bare "builtins" 0 none)

def sorted (s : Scope) : List Symbol := s.symbols.mergeSort fun x y => x.name ≤ y.name

theorem name_of_get? {s : Scope} {name : String} {x : Symbol} (h : s.get? name = some x) :
    x.name = name :=
  (s.named _ (OrderedMap.mem_of_get? h)).symm

theorem mem_symbols_of_get? {s : Scope} {name : String} {x : Symbol} (h : s.get? name = some x) :
    x ∈ s.symbols :=
  List.mem_map_of_mem (OrderedMap.mem_of_get? h)

theorem get?_of_mem_symbols {s : Scope} {x : Symbol} (h : x ∈ s.symbols) :
    s.get? x.name = some x := by
  obtain ⟨b, hb, rfl⟩ := List.mem_map.mp h
  exact OrderedMap.get?_of_mem (s.named b hb ▸ hb)

theorem get?_add (s : Scope) (x : Symbol) (name : String) :
    (s.add x).get? name = if x.name = name then some x else s.get? name :=
  s.bindings.get?_put x.name name x

theorem symbols_add {s : Scope} {x : Symbol} (h : s.get? x.name = none) :
    (s.add x).symbols = s.symbols ++ [x] := by
  rw [symbols, add, OrderedMap.entries_put h, List.map_append]
  rfl

private theorem entries_eq (s : Scope) :
    s.bindings.entries = s.symbols.map fun x => (x.name, x) := by
  rw [symbols, List.map_map]
  refine (List.map_id _).symm.trans (List.map_congr_left fun b hb => ?_)
  exact Prod.ext (s.named b hb) rfl

theorem eq_of_symbols {s s' : Scope} (hname : s.name = s'.name) (hlevel : s.level = s'.level)
    (hparent : s.parent = s'.parent) (hsymbols : s.symbols = s'.symbols) : s = s' := by
  have hentries : s.bindings.entries = s'.bindings.entries := by
    rw [entries_eq, entries_eq, hsymbols]
  obtain ⟨name, level, parent, ⟨entries, hdistinct⟩, hnamed⟩ := s
  obtain ⟨name', level', parent', ⟨entries', hdistinct'⟩, hnamed'⟩ := s'
  cases hname
  cases hlevel
  cases hparent
  cases hentries
  rfl

end Scope

/-- All scopes, numbered in the order in which they were opened. -/
structure ScopeTable where
  scopes : Array Scope

namespace ScopeTable

def outermost : Nat := 0

def start : ScopeTable := ⟨#[.builtins]⟩

def openIn (t : ScopeTable) (parent : Nat) (name : String) : ScopeTable :=
  let level := (t.scopes[parent]?.map Scope.level).getD 0 + 1
  ⟨t.scopes.push (.bare name level (some parent))⟩

def add (t : ScopeTable) (i : Nat) (x : Symbol) : ScopeTable :=
  ⟨t.scopes.modify i fun s => s.add x⟩

def get? (t : ScopeTable) (i : Nat) (name : String) : Option Symbol :=
  t.scopes[i]?.bind fun s => s.get? name

def parent? (t : ScopeTable) (i : Nat) : Option Nat := t.scopes[i]?.bind Scope.parent

def nameOf (t : ScopeTable) (i : Nat) : String := (t.scopes[i]?.map Scope.name).getD ""

/-- What a name stands for in scope `i`: the innermost scope that has it decides. The search goes
from a scope to an earlier one only. -/
def lookup (t : ScopeTable) (i : Nat) (name : String) : Option Symbol :=
  match t.get? i name with
  | some x => some x
  | none =>
    match t.parent? i with
    | none => none
    | some j => if j < i then t.lookup j name else none
termination_by i

def find? (t : ScopeTable) (name : String) : Option Nat := t.scopes.findIdx? fun s => s.name = name

def global? (t : ScopeTable) : Option Nat := if 1 < t.scopes.size then some 1 else none

end ScopeTable

end MiniPascal
