import MiniPascal.Proofs.Scope.Course

/-!
What is always true of a table of scopes. The parent of a scope is an earlier scope, one level
further out, so the way out from any scope ends at the outermost one; and looking a name up is
looking for the first scope on this way that has the name.
-/

set_option autoImplicit false
set_option relaxedAutoImplicit false

namespace MiniPascal

/-- A symbol is found under its own name, so no two have the same name. -/
def Scope.Stored (s : Scope) : Prop := ∀ x ∈ s.symbols, s.get? x.name = some x

private theorem Scope.stored (s : Scope) : s.Stored := fun _ => get?_of_mem_symbols

def Scope.HasTypes (s : Scope) : Prop := ∃ type, .builtin type ∈ s.symbols

private theorem Scope.hasTypes_add {s : Scope} {d : Declaration} {x : Symbol} (h : Declares d x)
    (hadd : (s.add x).HasTypes) : s.HasTypes := by
  obtain ⟨type, htype⟩ := hadd
  obtain ⟨b, hb, hsymbol⟩ := List.mem_map.mp htype
  rcases OrderedMap.mem_entries_put hb with rfl | hold
  · cases hsymbol
    cases h
  · exact ⟨type, hsymbol ▸ List.mem_map_of_mem hold⟩

namespace ScopeTable

/-- The scopes lie within each other, the outermost one around all of them, and each has its symbols
under their own names; only the outermost one has types. -/
structure Orderly (t : ScopeTable) : Prop where
  outermost_eq : t.scopes[outermost]? = some .builtins
  parent_lt : ∀ (i : Nat) (s : Scope), 0 < i → t.scopes[i]? = some s →
    ∃ j outer, s.parent = some j ∧ j < i ∧ t.scopes[j]? = some outer ∧ s.level = outer.level + 1
  stored : ∀ (i : Nat) (s : Scope), t.scopes[i]? = some s → s.Stored
  types_outermost : ∀ (i : Nat) (s : Scope), 0 < i → t.scopes[i]? = some s → ¬s.HasTypes

section Preserved

variable {t t' : ScopeTable} {i : Nat}

theorem orderly_start : start.Orderly where
  outermost_eq := rfl
  parent_lt i s hi h := by
    obtain ⟨i, rfl⟩ := Nat.exists_eq_add_one.mpr hi
    cases h
  stored _ s _ := s.stored
  types_outermost i s hi h := by
    obtain ⟨i, rfl⟩ := Nat.exists_eq_add_one.mpr hi
    cases h

private theorem getElem?_openIn {parent : Nat} {outer : Scope} (h : t.scopes[parent]? = some outer)
    (name : String) :
    (t.openIn parent name).scopes[i]? =
      if i = t.scopes.size then some (.bare name (outer.level + 1) (some parent))
      else t.scopes[i]? := by
  rw [scopes_openIn h, Array.getElem?_push]

theorem getElem?_add {j : Nat} {x : Symbol} :
    (t.add j x).scopes[i]? =
      if j = i then t.scopes[i]?.map fun s => s.add x else t.scopes[i]? :=
  Array.getElem?_modify

private theorem Orderly.openIn {parent : Nat} {outer : Scope} (h : t.Orderly)
    (hparent : t.scopes[parent]? = some outer) (name : String) :
    (t.openIn parent name).Orderly := by
  have hinside := (Array.getElem?_eq_some_iff.mp hparent).1
  have hkept := (extends_openIn t parent name).kept
  constructor
  case outermost_eq => exact (hkept _ (Nat.zero_lt_of_lt hinside)).trans h.outermost_eq
  case parent_lt =>
    intro i s hi hs
    rw [getElem?_openIn hparent] at hs
    split at hs
    · rename_i hnew
      cases hs
      exact ⟨parent, outer, rfl, hnew ▸ hinside, (hkept _ hinside).trans hparent, rfl⟩
    · obtain ⟨j, around, hj, hlt, haround, hlevel⟩ := h.parent_lt i s hi hs
      have hj' := (Array.getElem?_eq_some_iff.mp haround).1
      exact ⟨j, around, hj, hlt, (hkept j hj').trans haround, hlevel⟩
  case stored => exact fun _ s _ => s.stored
  case types_outermost =>
    intro i s hi hs
    rw [getElem?_openIn hparent] at hs
    split at hs
    · cases hs
      rintro ⟨type, hnone⟩
      cases hnone
    · exact h.types_outermost i s hi hs

private theorem Orderly.add {d : Declaration} {x : Symbol} (h : t.Orderly) (hi : 0 < i)
    (hdeclares : Declares d x) : (t.add i x).Orderly := by
  -- Read backwards a scope is an old one, maybe with the symbol; forwards only its level counts.
  have hscope : ∀ (k : Nat) (s' : Scope), (t.add i x).scopes[k]? = some s' →
      t.scopes[k]? = some s' ∨ i = k ∧ ∃ s, t.scopes[k]? = some s ∧ s' = s.add x := by
    intro k s' hs'
    rw [getElem?_add] at hs'
    split at hs'
    · rename_i hik
      obtain ⟨s, hs, rfl⟩ := Option.map_eq_some_iff.mp hs'
      exact .inr ⟨hik, s, hs, rfl⟩
    · exact .inl hs'
  have hlevel : ∀ (k : Nat) (s : Scope), t.scopes[k]? = some s →
      ∃ s', (t.add i x).scopes[k]? = some s' ∧ s'.level = s.level := by
    intro k s hs
    rw [getElem?_add, hs]
    split
    · exact ⟨s.add x, rfl, rfl⟩
    · exact ⟨s, rfl, rfl⟩
  constructor
  case outermost_eq =>
    have hne : i ≠ outermost := Nat.ne_of_gt hi
    rw [getElem?_add, if_neg hne, h.outermost_eq]
  case parent_lt =>
    intro k s' hk hs'
    obtain ⟨s, hs, hparent, hsame⟩ : ∃ s, t.scopes[k]? = some s ∧ s'.parent = s.parent ∧
        s'.level = s.level := by
      rcases hscope k s' hs' with hs | ⟨-, s, hs, rfl⟩
      · exact ⟨s', hs, rfl, rfl⟩
      · exact ⟨s, hs, rfl, rfl⟩
    obtain ⟨j, outer, hj, hlt, houter, hsucc⟩ := h.parent_lt k s hk hs
    obtain ⟨outer', houter', hsame'⟩ := hlevel j outer houter
    exact ⟨j, outer', hparent.trans hj, hlt, houter', by rw [hsame, hsucc, hsame']⟩
  case stored => exact fun _ s _ => s.stored
  case types_outermost =>
    intro k s' hk hs' htypes
    rcases hscope k s' hs' with hs | ⟨-, s, hs, rfl⟩
    · exact h.types_outermost k s' hk hs htypes
    · exact h.types_outermost k s hk hs (Scope.hasTypes_add hdeclares htypes)

private theorem Orderly.draws {step : Step} (h : t.Orderly) (hdraws : t.Draws step t') :
    t'.Orderly := by
  cases hdraws with
  | enter around _ => exact h.openIn around _
  | declare inner _ declares => exact h.add inner declares
  | use => exact h

theorem Orderly.drawsAll {steps : List Step} (h : t.Orderly) (hdraws : t.DrawsAll steps t') :
    t'.Orderly := by
  induction hdraws with
  | nil t => exact h
  | cons first _ ih => exact ih (h.draws first)

end Preserved

/-- The scope that lies `n` further out. -/
def outwards? (t : ScopeTable) (i : Nat) : Nat → Option Nat
  | 0 => some i
  | n + 1 => (t.parent? i).bind fun j => t.outwards? j n

/-- Go from scope to scope outwards until one has the name, but to no more than `n` of them; nothing
if these are too few. -/
def searchWithin (t : ScopeTable) (name : String) : Nat → Option Nat → Option (Option Symbol)
  | _, none => some none
  | 0, some _ => none
  | n + 1, some i =>
    match t.get? i name with
    | some x => some (some x)
    | none => t.searchWithin name n (t.parent? i)

section Lookup

variable {t : ScopeTable} {i j : Nat} {s : Scope}

private theorem Orderly.parent?_outermost (h : t.Orderly) : t.parent? outermost = none := by
  rw [parent?, h.outermost_eq]
  rfl

theorem Orderly.level_outermost (h : t.Orderly) : t.levels[outermost]? = some 0 := by
  rw [getElem?_levels, h.outermost_eq]
  rfl

/-- Induction from the outermost scope inwards. -/
theorem Orderly.induction (h : t.Orderly) {motive : Nat → Scope → Prop}
    (base : motive outermost .builtins)
    (inwards : ∀ i s j outer, t.parent? i = some j → j < i → s.level = outer.level + 1 →
      motive j outer → motive i s) (hs : t.scopes[i]? = some s) : motive i s := by
  induction i using Nat.strongRecOn generalizing s with
  | _ i ih =>
    rcases Nat.eq_zero_or_pos i with rfl | hi
    · obtain rfl : .builtins = s := Option.some.inj (h.outermost_eq.symm.trans hs)
      exact base
    · obtain ⟨j, outer, hj, hlt, houter, hlevel⟩ := h.parent_lt i s hi hs
      refine inwards i s j outer ?_ hlt hlevel (ih j hlt houter)
      rw [parent?, hs, Option.bind_some, hj]

theorem lookup_of_parent (hj : t.parent? i = some j) (hlt : j < i) (name : String) :
    t.lookup i name = (t.get? i name).or (t.lookup j name) := by
  rw [lookup, hj]
  simp only [hlt, if_true]
  cases t.get? i name <;> rfl

theorem Orderly.lookup_outermost (h : t.Orderly) (name : String) :
    t.lookup outermost name = t.get? outermost name := by
  rw [lookup, h.parent?_outermost]
  cases t.get? outermost name <;> rfl

private theorem outwards?_of_parent (hj : t.parent? i = some j) (n : Nat) :
    t.outwards? i (n + 1) = t.outwards? j n := by
  rw [outwards?, hj, Option.bind_some]

private theorem Orderly.outwards?_outermost (h : t.Orderly) (n : Nat) :
    t.outwards? outermost (n + 1) = none := by
  rw [outwards?, h.parent?_outermost, Option.bind_none]

theorem Orderly.outwards?_isSome_iff (h : t.Orderly) (hs : t.scopes[i]? = some s) (n : Nat) :
    (t.outwards? i n).isSome ↔ n ≤ s.level := by
  refine h.induction (motive := fun i s => ∀ n, (t.outwards? i n).isSome ↔ n ≤ s.level) ?_ ?_ hs n
  · intro n
    cases n with
    | zero => simp [outwards?]
    | succ n => simp [h.outwards?_outermost, show Scope.builtins.level = 0 from rfl]
  · intro i s j outer hj hlt hlevel ih n
    cases n with
    | zero => simp [outwards?]
    | succ n => rw [outwards?_of_parent hj, ih, hlevel, Nat.add_le_add_iff_right]

/-- A search comes to its end within one scope more than the level of the first. -/
theorem Orderly.searchWithin_eq (h : t.Orderly) (hs : t.scopes[i]? = some s) (name : String) :
    t.searchWithin name (s.level + 1) (some i) = some (t.lookup i name) := by
  refine h.induction (motive := fun i s => t.searchWithin name (s.level + 1) (some i) =
    some (t.lookup i name)) ?_ ?_ hs
  · rw [searchWithin, h.lookup_outermost, h.parent?_outermost]
    cases t.get? outermost name <;> rfl
  · intro i s j outer hj hlt hlevel ih
    rw [searchWithin, lookup_of_parent hj hlt, hj, hlevel, ih]
    cases t.get? i name <;> rfl

private theorem forall_outwards_of_parent (hj : t.parent? i = some j) {P : Nat → Nat → Prop} :
    (∀ n k, t.outwards? i n = some k → P n k) ↔
      P 0 i ∧ ∀ n k, t.outwards? j n = some k → P (n + 1) k := by
  constructor
  · intro h
    exact ⟨h 0 i rfl, fun n k hk => h (n + 1) k ((outwards?_of_parent hj n).trans hk)⟩
  · rintro ⟨hzero, hsucc⟩ n k hk
    cases n with
    | zero => exact Option.some.inj hk ▸ hzero
    | succ n => exact hsucc n k ((outwards?_of_parent hj n).symm.trans hk)

private theorem Orderly.outwards?_outermost_eq_some_iff (h : t.Orderly) {n k : Nat} :
    t.outwards? outermost n = some k ↔ n = 0 ∧ k = outermost := by
  cases n with
  | zero => simp [outwards?, eq_comm]
  | succ n => simp [h.outwards?_outermost]

private theorem Orderly.forall_outwards_outermost (h : t.Orderly) {P : Nat → Nat → Prop} :
    (∀ n k, t.outwards? outermost n = some k → P n k) ↔ P 0 outermost := by
  simp only [h.outwards?_outermost_eq_some_iff, and_imp, forall_eq_apply_imp_iff, forall_eq]

theorem Orderly.lookup_eq_none_iff (h : t.Orderly) (hs : t.scopes[i]? = some s) (name : String) :
    t.lookup i name = none ↔ ∀ n j, t.outwards? i n = some j → t.get? j name = none := by
  refine h.induction (motive := fun i _ => t.lookup i name = none ↔
    ∀ n j, t.outwards? i n = some j → t.get? j name = none) ?_ ?_ hs
  · rw [h.lookup_outermost, h.forall_outwards_outermost]
  · intro i s j outer hj hlt hlevel ih
    rw [lookup_of_parent hj hlt, Option.or_eq_none_iff, ih, forall_outwards_of_parent hj]

/-- What is found is what the first scope has that has the name, going outwards. -/
theorem Orderly.lookup_eq_some_iff (h : t.Orderly) (hs : t.scopes[i]? = some s) (name : String)
    (x : Symbol) :
    t.lookup i name = some x ↔ ∃ n j, t.outwards? i n = some j ∧ t.get? j name = some x ∧
      ∀ m k, t.outwards? i m = some k → m < n → t.get? k name = none := by
  refine h.induction (motive := fun i _ => t.lookup i name = some x ↔
    ∃ n j, t.outwards? i n = some j ∧ t.get? j name = some x ∧
      ∀ m k, t.outwards? i m = some k → m < n → t.get? k name = none) ?_ ?_ hs
  · rw [h.lookup_outermost]
    constructor
    · intro hx
      exact ⟨0, outermost, rfl, hx, fun m k _ hm => absurd hm (Nat.not_lt_zero m)⟩
    · rintro ⟨n, j, hj, hx, -⟩
      obtain ⟨rfl, rfl⟩ := h.outwards?_outermost_eq_some_iff.mp hj
      exact hx
  · intro i s j outer hj hlt hlevel ih
    rw [lookup_of_parent hj hlt, Option.or_eq_some_iff, ih]
    constructor
    · rintro (hx | ⟨hnone, n, k, hk, hx, hbefore⟩)
      · exact ⟨0, i, rfl, hx, fun m k _ hm => absurd hm (Nat.not_lt_zero m)⟩
      · refine ⟨n + 1, k, (outwards?_of_parent hj n).trans hk, hx, ?_⟩
        rw [forall_outwards_of_parent hj]
        exact ⟨fun _ => hnone, fun m l hl hm => hbefore m l hl (Nat.lt_of_succ_lt_succ hm)⟩
    · rintro ⟨n, k, hk, hx, hbefore⟩
      rw [forall_outwards_of_parent hj] at hbefore
      cases n with
      | zero => exact .inl (Option.some.inj hk ▸ hx)
      | succ n =>
        rw [outwards?_of_parent hj] at hk
        exact .inr ⟨hbefore.1 (Nat.succ_pos n), n, k, hk, hx,
          fun m l hl hm => hbefore.2 m l hl (Nat.succ_lt_succ hm)⟩

end Lookup

end ScopeTable

namespace Survey

variable {s : Survey}

def checkAll (s : Survey) (ps : List Program) : Survey :=
  ps.foldl (fun s p => (s.check p).2) s

theorem extends_check (s : Survey) (p : Program) :
    s.table.Extends (s.check p).2.table ∧
      s.table.scopes.size < (s.check p).2.table.scopes.size := by
  refine ⟨s.extends_checkBlock ScopeTable.outermost p.name p.declarations p.body, ?_⟩
  have hopened := s.size_openIn ScopeTable.outermost p.name
  have hgrown := growsIn p.declarations (s.openIn ScopeTable.outermost p.name).1
    s.table.scopes.size (hopened ▸ Nat.lt_succ_self _)
  rw [check_eq_checkBlock, checkBlock, checkBody_table]
  exact Nat.lt_of_lt_of_le (hopened ▸ Nat.lt_succ_self _) hgrown.size_le

theorem orderly_check (h : s.table.Orderly) (p : Program) : (s.check p).2.table.Orderly := by
  cases hresult : (s.check p).1 with
  | ok => exact h.drawsAll (drawsAll_of_check_eq_ok h.level_outermost hresult)
  | error e =>
    obtain ⟨before, step, after, reached, -, -, -, hdraws⟩ :=
      drawsAll_of_check_eq_error h.level_outermost hresult
    exact h.drawsAll hdraws

theorem orderly_checkAll (ps : List Program) (h : s.table.Orderly) :
    (s.checkAll ps).table.Orderly := by
  induction ps generalizing s with
  | nil => exact h
  | cons p ps ih => exact ih (orderly_check h p)

end Survey

end MiniPascal
