/-!
Maps that keep the order in which their keys came, each key with one value. The laws of insertion
are `keys_put` and `get?_put`: a key that is there keeps its place and gets the new value, any other
one comes last. By `eq_of_keys_of_get?` keys and values are all there is to a map.
-/

set_option autoImplicit false
set_option relaxedAutoImplicit false

namespace MiniPascal

structure OrderedMap (α : Type) where
  entries : List (String × α)
  distinct : (entries.map Prod.fst).Nodup
  deriving DecidableEq

namespace OrderedMap

variable {α : Type}

def empty : OrderedMap α := ⟨[], List.nodup_nil⟩

def keys (m : OrderedMap α) : List String := m.entries.map Prod.fst

def get? (m : OrderedMap α) (key : String) : Option α :=
  (m.entries.find? fun e => e.1 = key).map Prod.snd

/-- A key that is there keeps its place; a new one comes last. -/
def putIn (key : String) (v : α) : List (String × α) → List (String × α)
  | [] => [(key, v)]
  | e :: es => if e.1 = key then (key, v) :: es else e :: putIn key v es

private theorem keys_putIn (key : String) (v : α) (es : List (String × α)) :
    (putIn key v es).map Prod.fst =
      if key ∈ es.map Prod.fst then es.map Prod.fst else es.map Prod.fst ++ [key] := by
  induction es with
  | nil => simp [putIn]
  | cons e es ih =>
    unfold putIn
    by_cases he : e.1 = key
    · simp [he]
    · have hne : key ≠ e.1 := fun h => he h.symm
      by_cases hm : key ∈ es.map Prod.fst
      · simp only [if_neg he, List.map_cons, ih, List.mem_cons, hm, or_true, if_true]
      · simp only [if_neg he, List.map_cons, ih, List.mem_cons, hm, hne, or_false, if_false,
          List.cons_append]

def put (m : OrderedMap α) (key : String) (v : α) : OrderedMap α where
  entries := putIn key v m.entries
  distinct := by
    rw [keys_putIn]
    split
    · exact m.distinct
    · rename_i hnew
      refine List.nodup_append.mpr ⟨m.distinct, List.pairwise_singleton _ _, ?_⟩
      rintro k hk k' hk' rfl
      exact hnew (List.mem_singleton.mp hk' ▸ hk)

/-- An insertion keeps the order of the keys that are there. -/
theorem keys_put (m : OrderedMap α) (key : String) (v : α) :
    (m.put key v).keys = if key ∈ m.keys then m.keys else m.keys ++ [key] :=
  keys_putIn key v m.entries

/-- An insertion gives its key a value and leaves all other keys alone. -/
theorem get?_put (m : OrderedMap α) (key other : String) (v : α) :
    (m.put key v).get? other = if key = other then some v else m.get? other := by
  obtain ⟨es, hdistinct⟩ := m
  simp only [get?, put]
  clear hdistinct
  induction es with
  | nil => by_cases h : key = other <;> simp [putIn, h]
  | cons e es ih =>
    unfold putIn
    by_cases he : e.1 = key
    · by_cases ho : key = other
      · simp [he, ho]
      · simp [he, ho]
    · rw [if_neg he]
      by_cases ho : e.1 = other
      · have hne : key ≠ other := fun h => he (ho.trans h.symm)
        simp [ho, hne]
      · simpa [ho] using ih

theorem mem_of_get? {m : OrderedMap α} {key : String} {v : α} (h : m.get? key = some v) :
    (key, v) ∈ m.entries := by
  obtain ⟨e, he, rfl⟩ := Option.map_eq_some_iff.mp h
  have hkey := List.find?_some he
  rw [← of_decide_eq_true hkey]
  exact List.mem_of_find?_eq_some he

theorem get?_of_mem {m : OrderedMap α} {key : String} {v : α} (h : (key, v) ∈ m.entries) :
    m.get? key = some v := by
  obtain ⟨es, hdistinct⟩ := m
  simp only [get?]
  induction es with
  | nil => cases h
  | cons e es ih =>
    rw [List.map_cons, List.nodup_cons] at hdistinct
    rcases List.mem_cons.mp h with rfl | h
    · simp
    · have hne : e.1 ≠ key := fun he => hdistinct.1 (List.mem_map.mpr ⟨(key, v), h, he.symm⟩)
      rw [List.find?_cons_of_neg (by simpa using hne)]
      exact ih hdistinct.2 h

theorem get?_eq_none_iff {m : OrderedMap α} {key : String} : m.get? key = none ↔ key ∉ m.keys := by
  rw [get?, Option.map_eq_none_iff, List.find?_eq_none, keys, List.mem_map]
  constructor
  · rintro h ⟨e, he, rfl⟩
    exact h e he (decide_eq_true rfl)
  · intro h e he hkey
    exact h ⟨e, he, of_decide_eq_true hkey⟩

theorem entries_put {m : OrderedMap α} {key : String} (h : m.get? key = none) (v : α) :
    (m.put key v).entries = m.entries ++ [(key, v)] := by
  obtain ⟨es, hdistinct⟩ := m
  rw [get?_eq_none_iff] at h
  simp only [keys, put] at h ⊢
  clear hdistinct
  induction es with
  | nil => rfl
  | cons e es ih =>
    rw [List.map_cons, List.mem_cons, not_or] at h
    rw [putIn, if_neg (Ne.symm h.1), ih h.2, List.cons_append]

theorem mem_entries_put {m : OrderedMap α} {key : String} {v : α} {e : String × α}
    (h : e ∈ (m.put key v).entries) : e = (key, v) ∨ e ∈ m.entries := by
  have hget := get?_of_mem (m := m.put key v) h
  rw [get?_put] at hget
  split at hget
  · rename_i hkey
    cases hget
    exact .inl (Prod.ext hkey.symm rfl)
  · exact .inr (mem_of_get? hget)

theorem eq_of_keys_of_get? {m m' : OrderedMap α} (hkeys : m.keys = m'.keys)
    (hvalues : ∀ key, m.get? key = m'.get? key) : m = m' := by
  have hentries : m.entries = m'.entries := by
    have hlength : m.entries.length = m'.entries.length := by
      simpa [keys] using congrArg List.length hkeys
    refine List.ext_getElem hlength fun i hi hi' => ?_
    have hkey : m.entries[i].1 = m'.entries[i].1 := by
      have hi? := congrArg (·[i]?) hkeys
      simpa [keys, hi, hi'] using hi?
    have hvalue : some m.entries[i].2 = some m'.entries[i].2 := by
      calc
        some m.entries[i].2 = m.get? m.entries[i].1 := (get?_of_mem (List.getElem_mem hi)).symm
        _ = m'.get? m'.entries[i].1 := by rw [hvalues, hkey]
        _ = some m'.entries[i].2 := get?_of_mem (List.getElem_mem hi')
    exact Prod.ext hkey (Option.some.inj hvalue)
  cases m
  cases m'
  cases hentries
  rfl

end OrderedMap

end MiniPascal
