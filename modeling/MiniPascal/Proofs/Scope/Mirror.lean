import Mathlib.Data.List.Forall2
import MiniPascal.Proofs.Scope.Orderly

/-!
The table of scopes mirrors the program. The scopes that a check opens are those of the blocks, in
the order in which these are entered, and each has one symbol for each declaration of its block, as
far as the check has come; `Survey.check_mirrors` states this for every outcome.
-/

set_option autoImplicit false
set_option relaxedAutoImplicit false

namespace MiniPascal

open Step (entered declaredIn)

def Block.scope (b : Block) : Scope := .bare b.name b.level (some b.parent)

/-- A scope to which some declarations were added, each as one symbol. -/
structure Scope.FilledBy (s : Scope) (ds : List Declaration) (s' : Scope) : Prop where
  name_eq : s'.name = s.name
  level_eq : s'.level = s.level
  parent_eq : s'.parent = s.parent
  symbols : ∃ more, s'.symbols = s.symbols ++ more ∧ List.Forall₂ Declares ds more

/-- Behind the scopes of a table, which are as they were, come those of some blocks. -/
structure ScopeTable.Mirrors (t : ScopeTable) (blocks : List Block) (t' : ScopeTable) : Prop where
  size_eq : t'.scopes.size = t.scopes.size + blocks.length
  kept : ∀ i < t.scopes.size, t'.scopes[i]? = t.scopes[i]?
  opened : ∀ (j : Nat) (b : Block), blocks[j]? = some b →
    ∃ s, t'.scopes[t.scopes.size + j]? = some s ∧ s.name = b.name ∧ s.level = b.level ∧
      s.parent = some b.parent ∧ List.Forall₂ Declares b.declarations s.symbols

section Filled

variable {s s' : Scope} {ds : List Declaration}

private theorem Scope.filledBy_nil (s : Scope) : s.FilledBy [] s :=
  ⟨rfl, rfl, rfl, [], (List.append_nil _).symm, .nil⟩

private theorem Scope.eq_of_filledBy_nil (h : s.FilledBy [] s') : s' = s := by
  obtain ⟨more, hsymbols, hmore⟩ := h.symbols
  cases hmore
  rw [List.append_nil] at hsymbols
  exact eq_of_symbols h.name_eq h.level_eq h.parent_eq hsymbols

private theorem Scope.FilledBy.cons {d : Declaration} {x : Symbol} (hd : Declares d x)
    (hfresh : s.get? x.name = none) (h : (s.add x).FilledBy ds s') : s.FilledBy (d :: ds) s' where
  name_eq := h.name_eq
  level_eq := h.level_eq
  parent_eq := h.parent_eq
  symbols := by
    obtain ⟨more, hsymbols, hmore⟩ := h.symbols
    refine ⟨x :: more, ?_, .cons hd hmore⟩
    rw [hsymbols, symbols_add hfresh, List.append_assoc, List.singleton_append]

theorem Scope.FilledBy.declares {b : Block} (h : b.scope.FilledBy ds s') :
    List.Forall₂ Declares ds s'.symbols := by
  obtain ⟨more, hsymbols, hmore⟩ := h.symbols
  rw [hsymbols]
  exact hmore

end Filled

namespace ScopeTable

variable {t t' : ScopeTable} {steps : List Step}

/-- The scopes of a table, and behind them those of some blocks that are to be opened. -/
def laid (t : ScopeTable) (blocks : List Block) : List Scope :=
  t.scopes.toList ++ blocks.map Block.scope

private theorem getElem?_laid {i : Nat} (hi : i < t.scopes.size) (blocks : List Block) :
    (t.laid blocks)[i]? = t.scopes[i]? := by
  rw [laid, List.getElem?_append_left hi, Array.getElem?_toList]

theorem getElem?_laid_size_add (t : ScopeTable) (blocks : List Block) (j : Nat) :
    (t.laid blocks)[t.scopes.size + j]? = blocks[j]?.map Block.scope := by
  rw [laid, ← Array.length_toList, List.getElem?_append_right (Nat.le_add_right _ j),
    Nat.add_sub_cancel_left, List.getElem?_map]

private theorem laid_openIn {b : Block} {outer : Scope} (around : t.scopes[b.parent]? = some outer)
    (level : b.level = outer.level + 1) (blocks : List Block) :
    (t.openIn b.parent b.name).laid blocks = t.laid (b :: blocks) := by
  rw [laid, scopes_openIn around, Array.toList_push, laid, List.map_cons, List.append_assoc,
    List.singleton_append, Block.scope, level]

private theorem getElem?_laid_add {i k : Nat} {x : Symbol} (hk : k < t.scopes.size)
    (blocks : List Block) : ((t.add k x).laid blocks)[i]? =
      if k = i then (t.laid blocks)[i]?.map fun s => s.add x else (t.laid blocks)[i]? := by
  have hsize : (t.add k x).scopes.size = t.scopes.size := Array.size_modify
  by_cases hi : i < t.scopes.size
  · rw [getElem?_laid (hsize ▸ hi), getElem?_laid hi, getElem?_add]
  · obtain ⟨j, rfl⟩ := Nat.exists_eq_add_of_le (Nat.le_of_not_lt hi)
    have hne : k ≠ t.scopes.size + j := Nat.ne_of_lt (Nat.lt_of_lt_of_le hk (Nat.le_add_right _ j))
    have hadd := (t.add k x).getElem?_laid_size_add blocks j
    rw [if_neg hne, getElem?_laid_size_add, ← hadd, hsize]

theorem DrawsAll.filled (h : t.DrawsAll steps t') (i : Nat) (s : Scope)
    (hs : (t.laid (entered steps))[i]? = some s) :
    ∃ s', t'.scopes[i]? = some s' ∧ s.FilledBy (declaredIn i steps) s' := by
  induction h generalizing s with
  | nil t =>
    rw [entered, List.filterMap_nil, laid, List.map_nil, List.append_nil,
      Array.getElem?_toList] at hs
    exact ⟨s, hs, s.filledBy_nil⟩
  | @cons t t' t'' step steps first _ ih =>
    cases first with
    | @enter b outer around level =>
      apply ih
      rw [laid_openIn around level]
      exact hs
    | @declare k d x inner inside declares fresh =>
      have hadd := getElem?_laid_add (x := x) (i := i) inside (entered steps)
      rw [show (t.laid (entered steps))[i]? = some s from hs] at hadd
      rw [Step.declaredIn_declare]
      by_cases hk : k = i
      · rw [if_pos hk] at hadd ⊢
        obtain ⟨s', hs', hfilled⟩ := ih (s.add x) hadd
        have hnew : s.get? x.name = none := by
          rw [getElem?_laid (hk ▸ inside)] at hs
          rwa [hk, get?, hs, Option.bind_some] at fresh
        exact ⟨s', hs', hfilled.cons declares hnew⟩
      · rw [if_neg hk] at hadd ⊢
        exact ih s hadd
    | use k names => exact ih s hs

/-- Where nothing is declared in the scopes of a table, these are kept, and each block that is
entered has the declarations that are made in its scope. -/
private theorem DrawsAll.mirrors (h : t.DrawsAll steps t')
    (hkept : ∀ i < t.scopes.size, declaredIn i steps = []) :
    t.Mirrors ((entered steps).mapIdx fun j b =>
      { b with declarations := declaredIn (t.scopes.size + j) steps }) t' where
  size_eq := by
    rw [List.length_mapIdx, h.size_eq]
  kept i hi := by
    have hs := Array.getElem?_eq_getElem hi
    obtain ⟨s', hs', hfilled⟩ := h.filled i _ ((getElem?_laid hi _).trans hs)
    rw [hkept i hi] at hfilled
    rw [hs', hs, Scope.eq_of_filledBy_nil hfilled]
  opened j b hb := by
    rw [List.getElem?_mapIdx, Option.map_eq_some_iff] at hb
    obtain ⟨b, hb, rfl⟩ := hb
    have hlaid := t.getElem?_laid_size_add (entered steps) j
    rw [hb, Option.map_some] at hlaid
    obtain ⟨s', hs', hfilled⟩ := h.filled _ _ hlaid
    exact ⟨s', hs', hfilled.name_eq, hfilled.level_eq, hfilled.parent_eq, hfilled.declares⟩

end ScopeTable

private theorem Program.declaredIn_eq_nil {p : Program} {next : Nat} {before : List Step}
    (h : before <+: p.steps next) : ∀ i < next, declaredIn i before = [] := by
  intro i hi
  have hall := declaredIn_of_begun h i
  rw [Block.declarationsAt_of_lt hi] at hall
  exact List.prefix_nil.mp hall

private theorem Program.mapIdx_entered_steps (p : Program) (next : Nat) :
    ((entered (p.steps next)).mapIdx fun j b =>
      { b with declarations := declaredIn (next + j) (p.steps next) }) = p.blocks next := by
  apply List.ext_getElem?
  intro j
  rw [List.getElem?_mapIdx, p.entered_steps]
  cases hb : (p.blocks next)[j]? with
  | none => rfl
  | some b => rw [Option.map_some, p.declaredIn_steps, Block.declarationsAt_eq hb]

namespace Survey

/-- The scopes mirror the blocks of a program, whatever was checked before; the parent of a block is
the one around it in the text. If the check succeeds, it opens the scopes of all blocks and makes
all declarations. If it fails at one of its steps, it has opened the scopes of the blocks that were
entered before, which are the first ones, and in each it has made those declarations that were made
before, which are the first ones too. -/
theorem check_mirrors (ps : List Program) (p : Program) :
    let s := Survey.start.checkAll ps
    let n := s.table.scopes.size
    (∀ (j : Nat) (b : Block), (p.blocks n)[j]? = some b →
      j = 0 ∧ b = ⟨p.name, ScopeTable.outermost, 1, p.declarations⟩ ∨
      ∃ i c, i < j ∧ (p.blocks n)[i]? = some c ∧ b.parent = n + i ∧ b.In c) ∧
    ((s.check p).1 = .ok () → s.table.Mirrors (p.blocks n) (s.check p).2.table) ∧
    ∀ e, (s.check p).1 = .error e →
      ∃ before step after reached, p.steps n = before ++ step :: after ∧
        s.performAll before = (.ok (), reached) ∧ (reached.perform step).1 = .error e ∧
        ∃ m, 1 ≤ m ∧ m ≤ (p.blocks n).length ∧
          s.table.Mirrors (((p.blocks n).take m).mapIdx fun j b =>
            { b with declarations := declaredIn (n + j) before }) (s.check p).2.table ∧
          ∀ (j : Nat) (b : Block), (p.blocks n)[j]? = some b →
            declaredIn (n + j) before <+: b.declarations := by
  intro s n
  have horderly : s.table.Orderly := orderly_checkAll ps ScopeTable.orderly_start
  refine ⟨p.enclosed_blocks n, ?_, ?_⟩
  · intro hok
    have hdraws := drawsAll_of_check_eq_ok horderly.level_outermost hok
    have hmirrors := hdraws.mirrors (Program.declaredIn_eq_nil (List.prefix_refl _))
    rwa [p.mapIdx_entered_steps] at hmirrors
  · intro e herror
    obtain ⟨before, step, after, reached, hsplit, hbefore, hstep, hdraws⟩ :=
      drawsAll_of_check_eq_error horderly.level_outermost herror
    have hprefix : before <+: p.steps n := ⟨step :: after, hsplit.symm⟩
    have hentered := Program.entered_of_begun hprefix
    have hmirrors := hdraws.mirrors (Program.declaredIn_eq_nil hprefix)
    rw [List.prefix_iff_eq_take.mp hentered] at hmirrors
    refine ⟨before, step, after, reached, hsplit, hbefore, hstep, (entered before).length, ?_,
      hentered.length_le, hmirrors, ?_⟩
    · -- The first step enters the block of the program, and that does not fail.
      cases before with
      | nil =>
        cases hsplit
        cases hbefore
        cases hstep
      | cons first before =>
        rw [Program.steps, Step.ofBlock, List.cons_append, List.cons.injEq] at hsplit
        obtain ⟨rfl, -⟩ := hsplit
        exact Nat.succ_le_succ (Nat.zero_le _)
    · intro j b hb
      have hdeclared := Program.declaredIn_of_begun hprefix (n + j)
      rwa [Block.declarationsAt_eq hb] at hdeclared

/-! The second `b` is not declared, and the block of `r` is not come to. -/

example :
    let q : Declaration := .procedure "q" [.var "b" "REAL", .var "b" "REAL"] []
    let p : Program := ⟨"p", [.var "a" "INTEGER", q, .procedure "r" [] []], []⟩
    (Survey.start.check p).2.table.scopes.toList.map (fun s => (s.name, s.symbols.map Symbol.name)) =
      [("builtins", ["INTEGER", "REAL"]), ("p", ["a", "q"]), ("q", ["b"])] := by
  decide +kernel

end Survey

end MiniPascal
