import MiniPascal.Scope.Check

/-!
The blocks of a program, and the steps in which it is checked. Both are known before the check: the
blocks are entered one after the other, each before those in it, and the scopes are numbered in that
order. `Program.enclosed_blocks` says which block is the parent of which, and
`Program.declaredIn_steps` that every declaration is made in the scope of its own block.
-/

set_option autoImplicit false
set_option relaxedAutoImplicit false

namespace MiniPascal

/-- A block, with the number of the scope around it. -/
structure Block where
  name : String
  parent : Nat
  level : Nat
  declarations : List Declaration

mutual

/-- The blocks in a declaration, each before those in it. The declaration stands in `scope`, its own
block would be at `level`, and the blocks are numbered from `next` on. -/
def Declaration.blocks (scope level next : Nat) : Declaration → List Block
  | .var _ _ => []
  | .procedure name declarations _ =>
    ⟨name, scope, level, declarations⟩ ::
      Declaration.blocksAll next (level + 1) (next + 1) declarations

def Declaration.blocksAll (scope level next : Nat) : List Declaration → List Block
  | [] => []
  | d :: ds =>
    let first := d.blocks scope level next
    first ++ Declaration.blocksAll scope level (next + first.length) ds

end

def Program.blocks (p : Program) (next : Nat) : List Block :=
  ⟨p.name, ScopeTable.outermost, 1, p.declarations⟩ ::
    Declaration.blocksAll next 2 (next + 1) p.declarations

/-- The block is that of a procedure which is declared in the other one. -/
def Block.In (b c : Block) : Prop :=
  b.level = c.level + 1 ∧ ∃ body, .procedure b.name b.declarations body ∈ c.declarations

def Block.Enclosed (around : Block) (scope next : Nat) (blocks : List Block) : Prop :=
  ∀ (j : Nat) (b : Block), blocks[j]? = some b →
    b.parent = scope ∧ b.In around ∨
    ∃ i c, i < j ∧ blocks[i]? = some c ∧ b.parent = next + i ∧ b.In c

section Enclosed

variable {around : Block} {scope next : Nat} {blocks blocks' : List Block}

private theorem Block.enclosed_append (h : Enclosed around scope next blocks)
    (h' : Enclosed around scope (next + blocks.length) blocks') :
    Enclosed around scope next (blocks ++ blocks') := by
  intro j b hb
  by_cases hj : j < blocks.length
  · rw [List.getElem?_append_left hj] at hb
    rcases h j b hb with hout | ⟨i, c, hij, hc, hparent, hin⟩
    · exact .inl hout
    · have hi := Nat.lt_trans hij hj
      exact .inr ⟨i, c, hij, (List.getElem?_append_left hi).trans hc, hparent, hin⟩
  · obtain ⟨k, rfl⟩ := Nat.exists_eq_add_of_le (Nat.le_of_not_lt hj)
    rw [List.getElem?_append_right (Nat.le_add_right _ k), Nat.add_sub_cancel_left] at hb
    rcases h' k b hb with hout | ⟨i, c, hik, hc, hparent, hin⟩
    · exact .inl hout
    · refine .inr ⟨blocks.length + i, c, Nat.add_lt_add_left hik _, ?_, ?_, hin⟩
      · rw [List.getElem?_append_right (Nat.le_add_right _ i), Nat.add_sub_cancel_left, hc]
      · rw [hparent, Nat.add_assoc]

private theorem Block.exists_enclosing_of_cons {b c : Block} {j : Nat}
    (h : Enclosed c next (next + 1) blocks) (hb : blocks[j]? = some b) :
    ∃ i d, i < j + 1 ∧ (c :: blocks)[i]? = some d ∧ b.parent = next + i ∧ b.In d := by
  rcases h j b hb with ⟨hparent, hin⟩ | ⟨i, d, hij, hd, hparent, hin⟩
  · exact ⟨0, c, Nat.succ_pos j, rfl, hparent, hin⟩
  · refine ⟨i + 1, d, Nat.succ_lt_succ hij, hd, ?_, hin⟩
    rw [hparent, Nat.add_assoc, Nat.add_comm 1 i]

private theorem Block.enclosed_cons {b : Block} (hparent : b.parent = scope) (hin : b.In around)
    (h : Enclosed b next (next + 1) blocks) : Enclosed around scope next (b :: blocks) := by
  intro j c hc
  cases j with
  | zero =>
    cases hc
    exact .inl ⟨hparent, hin⟩
  | succ j => exact .inr (exists_enclosing_of_cons h hc)

end Enclosed

mutual

private theorem Declaration.enclosed_blocks {around : Block} {scope level next : Nat}
    (hlevel : level = around.level + 1) : (d : Declaration) → d ∈ around.declarations →
    Block.Enclosed around scope next (d.blocks scope level next)
  | .var _ _, _ => fun _ _ hb => nomatch hb
  | .procedure _ declarations body, hd =>
    Block.enclosed_cons rfl ⟨hlevel, body, hd⟩
      (Declaration.enclosed_blocksAll rfl declarations (List.Subset.refl _))

private theorem Declaration.enclosed_blocksAll {around : Block} {scope level next : Nat}
    (hlevel : level = around.level + 1) : (ds : List Declaration) → ds ⊆ around.declarations →
    Block.Enclosed around scope next (Declaration.blocksAll scope level next ds)
  | [], _ => fun _ _ hb => nomatch hb
  | d :: ds, hds =>
    Block.enclosed_append (Declaration.enclosed_blocks hlevel d (hds List.mem_cons_self))
      (Declaration.enclosed_blocksAll hlevel ds fun _ h => hds (List.mem_cons_of_mem d h))

end

theorem Program.enclosed_blocks (p : Program) (next j : Nat) (b : Block)
    (h : (p.blocks next)[j]? = some b) :
    j = 0 ∧ b = ⟨p.name, ScopeTable.outermost, 1, p.declarations⟩ ∨
    ∃ i c, i < j ∧ (p.blocks next)[i]? = some c ∧ b.parent = next + i ∧ b.In c := by
  cases j with
  | zero =>
    cases h
    exact .inl ⟨rfl, rfl⟩
  | succ j =>
    exact .inr (Block.exists_enclosing_of_cons
      (Declaration.enclosed_blocksAll rfl p.declarations (List.Subset.refl _)) h)

/-! Block `r` lies in `q`; `s` stands behind both, and lies in the block of the program. -/

example :
    let p : Program := ⟨"p", [.procedure "q" [.procedure "r" [] []] [], .procedure "s" [] []], []⟩
    (p.blocks 1).map (fun b => (b.name, b.parent, b.level)) =
      [("p", 0, 1), ("q", 1, 2), ("r", 2, 3), ("s", 1, 2)] := rfl

/-- A step of a check: enter a block, make a declaration in a scope, or use names there. -/
inductive Step
  | enter (b : Block)
  | declare (scope : Nat) (d : Declaration)
  | use (scope : Nat) (names : List String)

namespace Step

/-- What there is to a block: to enter it, the steps in it, and the names of its body. -/
def ofBlock (number : Nat) (b : Block) (inner : List Step) (body : List Statement) : List Step :=
  .enter b :: (inner ++ [.use number (Statement.namesAll body)])

def entered (steps : List Step) : List Block :=
  steps.filterMap fun
    | .enter b => some b
    | _ => none

def declaredIn (i : Nat) (steps : List Step) : List Declaration :=
  steps.filterMap fun
    | .declare j d => if j = i then some d else none
    | _ => none

end Step

mutual

/-- The steps to a declaration, numbered as its blocks are. A procedure is declared before its block
is entered. -/
def Declaration.steps (scope level next : Nat) : Declaration → List Step
  | .var name type => [.declare scope (.var name type)]
  | .procedure name declarations body =>
    .declare scope (.procedure name declarations body) ::
      Step.ofBlock next ⟨name, scope, level, declarations⟩
        (Declaration.stepsAll next (level + 1) (next + 1) declarations) body

def Declaration.stepsAll (scope level next : Nat) : List Declaration → List Step
  | [] => []
  | d :: ds =>
    d.steps scope level next ++
      Declaration.stepsAll scope level (next + (d.blocks scope level next).length) ds

end

def Program.steps (p : Program) (next : Nat) : List Step :=
  Step.ofBlock next ⟨p.name, ScopeTable.outermost, 1, p.declarations⟩
    (Declaration.stepsAll next 2 (next + 1) p.declarations) p.body

namespace Step

section Blocks

variable {i number : Nat} {b : Block} {steps steps' inner : List Step} {body : List Statement}

theorem entered_append : entered (steps ++ steps') = entered steps ++ entered steps' :=
  List.filterMap_append

private theorem declaredIn_append :
    declaredIn i (steps ++ steps') = declaredIn i steps ++ declaredIn i steps' :=
  List.filterMap_append

theorem declaredIn_declare {j : Nat} {d : Declaration} :
    declaredIn i (.declare j d :: steps) =
      if j = i then d :: declaredIn i steps else declaredIn i steps := by
  rw [declaredIn, List.filterMap_cons]
  by_cases h : j = i
  · simp only [h, if_true]
    rfl
  · simp only [h, if_false]
    rfl

private theorem entered_ofBlock : entered (ofBlock number b inner body) = b :: entered inner := by
  rw [ofBlock, ← List.singleton_append, entered_append, entered_append]
  exact congrArg (b :: ·) (List.append_nil _)

private theorem declaredIn_ofBlock :
    declaredIn i (ofBlock number b inner body) = declaredIn i inner := by
  rw [ofBlock, ← List.singleton_append, declaredIn_append, declaredIn_append]
  exact List.append_nil _

end Blocks

end Step

mutual

theorem Declaration.entered_steps (scope level next : Nat) : (d : Declaration) →
    Step.entered (d.steps scope level next) = d.blocks scope level next
  | .var _ _ => rfl
  | .procedure name declarations body => by
    rw [Declaration.steps, ← List.singleton_append, Step.entered_append, Step.entered_ofBlock,
      Declaration.entered_stepsAll, Declaration.blocks]
    rfl

private theorem Declaration.entered_stepsAll (scope level next : Nat) : (ds : List Declaration) →
    Step.entered (Declaration.stepsAll scope level next ds) =
      Declaration.blocksAll scope level next ds
  | [] => rfl
  | d :: ds => by
    rw [Declaration.stepsAll, Step.entered_append, Declaration.entered_steps,
      Declaration.entered_stepsAll, Declaration.blocksAll]

end

theorem Program.entered_steps (p : Program) (next : Nat) :
    Step.entered (p.steps next) = p.blocks next := by
  rw [steps, Step.entered_ofBlock, Declaration.entered_stepsAll, blocks]

def Step.Fits (levels : List Nat) : Step → Prop
  | .enter b => ∃ level, levels[b.parent]? = some level ∧ b.level = level + 1
  | .declare i _ => 0 < i ∧ i < levels.length
  | .use _ _ => True

def Step.levelsAfter (levels : List Nat) (steps : List Step) : List Nat :=
  levels ++ (Step.entered steps).map Block.level

def Step.FitAll (levels : List Nat) : List Step → Prop
  | [] => True
  | step :: steps => step.Fits levels ∧ Step.FitAll (Step.levelsAfter levels [step]) steps

section Fit

open Step (FitAll levelsAfter)

variable {levels : List Nat}

theorem Step.levelsAfter_append (steps steps' : List Step) :
    levelsAfter levels (steps ++ steps') = levelsAfter (levelsAfter levels steps) steps' := by
  rw [levelsAfter, entered_append, List.map_append, ← List.append_assoc]
  rfl

theorem Step.levelsAfter_declare (i : Nat) (d : Declaration) :
    levelsAfter levels [.declare i d] = levels :=
  List.append_nil levels

theorem Step.fitAll_append {steps steps' : List Step} :
    FitAll levels (steps ++ steps') ↔
      FitAll levels steps ∧ FitAll (levelsAfter levels steps) steps' := by
  induction steps generalizing levels with
  | nil => simp [FitAll, levelsAfter, entered]
  | cons step steps ih =>
    rw [List.cons_append, FitAll, FitAll, ih, ← levelsAfter_append, List.singleton_append,
      and_assoc]

def Declaration.RowFits (ds : List Declaration) : Prop :=
  ∀ (levels : List Nat) (scope level : Nat), 0 < scope → levels[scope]? = some level →
    FitAll levels (Declaration.stepsAll scope (level + 1) levels.length ds)

private theorem Step.fitAll_ofBlock {ds : List Declaration} (h : Declaration.RowFits ds)
    {scope level : Nat} (hscope : levels[scope]? = some level) (name : String)
    (body : List Statement) :
    FitAll levels (Step.ofBlock levels.length ⟨name, scope, level + 1, ds⟩
      (Declaration.stepsAll levels.length (level + 2) (levels.length + 1) ds) body) := by
  have hinside := (List.getElem?_eq_some_iff.mp hscope).1
  have hnext : (levels ++ [level + 1])[levels.length]? = some (level + 1) := by simp
  have hinner := h _ _ _ (Nat.zero_lt_of_lt hinside) hnext
  rw [List.length_append, List.length_singleton] at hinner
  exact ⟨⟨level, hscope, rfl⟩, fitAll_append.mpr ⟨hinner, trivial, trivial⟩⟩

mutual

private theorem Declaration.fitAll_steps {levels : List Nat} {scope level : Nat}
    (hinner : 0 < scope) (hscope : levels[scope]? = some level) : (d : Declaration) →
    FitAll levels (d.steps scope (level + 1) levels.length)
  | .var _ _ => ⟨⟨hinner, (List.getElem?_eq_some_iff.mp hscope).1⟩, trivial⟩
  | .procedure name declarations body => by
    refine ⟨⟨hinner, (List.getElem?_eq_some_iff.mp hscope).1⟩, ?_⟩
    rw [Step.levelsAfter_declare]
    exact Step.fitAll_ofBlock (Declaration.rowFits declarations) hscope name body

private theorem Declaration.rowFits : (ds : List Declaration) → Declaration.RowFits ds
  | [] => fun _ _ _ _ _ => trivial
  | d :: ds => by
    -- The blocks in `d` are numbered first, and the numbers go on behind them.
    intro levels scope level hinner hscope
    have hinside := (List.getElem?_eq_some_iff.mp hscope).1
    have hscope' : (levelsAfter levels (d.steps scope (level + 1) levels.length))[scope]? =
        some level := (List.getElem?_append_left hinside).trans hscope
    have hrest := Declaration.rowFits ds _ _ _ hinner hscope'
    rw [levelsAfter, List.length_append, List.length_map, Declaration.entered_steps] at hrest
    refine Step.fitAll_append.mpr ⟨Declaration.fitAll_steps hinner hscope d, ?_⟩
    rwa [levelsAfter, Declaration.entered_steps]

end

theorem Program.fitAll_steps (p : Program) (h : levels[ScopeTable.outermost]? = some 0) :
    FitAll levels (p.steps levels.length) :=
  Step.fitAll_ofBlock (Declaration.rowFits p.declarations) h p.name p.body

end Fit

def Block.declarationsAt (next i : Nat) : List Block → List Declaration
  | [] => []
  | b :: bs => (if next = i then b.declarations else []) ++ declarationsAt (next + 1) i bs

section DeclarationsAt

open Block (declarationsAt)

variable {next i : Nat}

theorem Block.declarationsAt_of_lt (hi : i < next) (bs : List Block) :
    declarationsAt next i bs = [] := by
  induction bs generalizing next with
  | nil => rfl
  | cons b bs ih =>
    rw [declarationsAt, if_neg (Nat.ne_of_gt hi), ih (Nat.lt_succ_of_lt hi), List.append_nil]

private theorem Block.declarationsAt_append (bs bs' : List Block) :
    declarationsAt next i (bs ++ bs') =
      declarationsAt next i bs ++ declarationsAt (next + bs.length) i bs' := by
  induction bs generalizing next with
  | nil => rfl
  | cons b bs ih =>
    rw [List.cons_append, declarationsAt, declarationsAt, ih, List.length_cons, List.append_assoc,
      Nat.add_right_comm, Nat.add_assoc next]

theorem Block.declarationsAt_eq {bs : List Block} {j : Nat} {b : Block} (h : bs[j]? = some b) :
    declarationsAt next (next + j) bs = b.declarations := by
  induction bs generalizing next j with
  | nil => cases h
  | cons c bs ih =>
    rw [declarationsAt]
    cases j with
    | zero =>
      cases h
      rw [Nat.add_zero, if_pos rfl, declarationsAt_of_lt (Nat.lt_succ_self _), List.append_nil]
    | succ j =>
      have hne : next ≠ next + (j + 1) := by omega
      have hnext : next + (j + 1) = next + 1 + j := by omega
      rw [if_neg hne, List.nil_append, hnext]
      exact ih h

end DeclarationsAt

mutual

/-- A declaration is made in its scope, and what is declared in its blocks is made in theirs. -/
private theorem Declaration.declaredIn_steps (i scope level next : Nat) : (d : Declaration) →
    Step.declaredIn i (d.steps scope level next) =
      (if scope = i then [d] else []) ++ Block.declarationsAt next i (d.blocks scope level next)
  | .var _ _ => by
    rw [Declaration.steps, Step.declaredIn_declare, Declaration.blocks, Block.declarationsAt,
      List.append_nil]
    rfl
  | .procedure name declarations body => by
    rw [Declaration.steps, Step.declaredIn_declare, Step.declaredIn_ofBlock,
      Declaration.declaredIn_stepsAll i (level + 1) (Nat.lt_succ_self next), Declaration.blocks,
      Block.declarationsAt]
    split <;> rfl

private theorem Declaration.declaredIn_stepsAll (i level : Nat) {scope next : Nat}
    (h : scope < next) :
    (ds : List Declaration) → Step.declaredIn i (Declaration.stepsAll scope level next ds) =
      (if scope = i then ds else []) ++
        Block.declarationsAt next i (Declaration.blocksAll scope level next ds)
  | [] => by
    rw [Declaration.stepsAll, Declaration.blocksAll, Block.declarationsAt, ite_self]
    rfl
  | d :: ds => by
    have hrest := Declaration.declaredIn_stepsAll i level
      (Nat.lt_of_lt_of_le h (Nat.le_add_right next (d.blocks scope level next).length)) ds
    rw [Declaration.stepsAll, Step.declaredIn_append,
      Declaration.declaredIn_steps i scope level next d, hrest, Declaration.blocksAll,
      Block.declarationsAt_append]
    by_cases hi : scope = i
    · -- The scope itself comes before all blocks in it, so nothing stands between `d` and `ds`.
      rw [if_pos hi, if_pos hi, if_pos hi, Block.declarationsAt_of_lt (hi ▸ h)]
      rfl
    · rw [if_neg hi, if_neg hi, if_neg hi]
      rfl

end

theorem Program.declaredIn_steps (p : Program) (i next : Nat) :
    Step.declaredIn i (p.steps next) = Block.declarationsAt next i (p.blocks next) := by
  rw [steps, Step.declaredIn_ofBlock,
    Declaration.declaredIn_stepsAll i 2 (Nat.lt_succ_self next), blocks, Block.declarationsAt]

section Begun

variable {p : Program} {next : Nat} {before : List Step}

theorem Program.entered_of_begun (h : before <+: p.steps next) :
    Step.entered before <+: p.blocks next := by
  rw [← p.entered_steps]
  exact h.filterMap _

theorem Program.declaredIn_of_begun (h : before <+: p.steps next) (i : Nat) :
    Step.declaredIn i before <+: Block.declarationsAt next i (p.blocks next) := by
  rw [← p.declaredIn_steps]
  exact h.filterMap _

end Begun

end MiniPascal
