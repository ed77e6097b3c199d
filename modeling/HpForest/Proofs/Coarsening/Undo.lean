import HpForest.Proofs.Coarsening.Groups
import HpForest.Proofs.History

/-! # Coarsening undoes refinement

Leaves are split by an execution, and another one merges their children again. The new cells come after all others
and inherit the element to which their parent has switched, so that the highest among them is this element. The
forest is then as if only its schedules had been carried out (`coarsening_undoes_refinement`). -/

namespace HpForest

/-- The leaf without markers, with its scheduled element in use. -/
def Leaf.settled (l : Leaf) : Leaf := { l with element := l.target, markers := {} }

namespace Forest
variable {D : Nat} {F G H : Forest D} {fe : Collection} {id k p : CellId} {ids : List CellId} {c : Cell} {l : Leaf}

/-! ### Settled forests -/

/-- `H` has the cells of `F`, with the scheduled elements in use and no markers on the leaves. -/
structure Settled (F H : Forest D) : Prop where
  size : F.slots.size ≤ H.slots.size
  leaf : ∀ {id l}, F.leaf? id = some l → H.cell? id = some l.settled.cell
  split : ∀ {id c}, F.cell? id = some c → c.isActive = false → H.cell? id = some c
  dead : ∀ {id}, F.cell? id = none → H.cell? id = none

namespace Settled
variable (s : Settled F H)
include s

theorem links : SameLinks F H := fun id => by
  rcases F.cell?_cases id with dead | ⟨l, hl⟩ | ⟨c, hc, split⟩
  · rw [s.dead dead, dead]
  · rw [s.leaf hl, cell?_of_leaf? hl]
    rfl
  · rw [s.split hc split, hc]

theorem inactive (inactive : F.isActive id = false) : H.cell? id = F.cell? id := by
  rcases cell?_of_inactive inactive with dead | ⟨c, hc, split⟩
  · rw [s.dead dead, dead]
  · rw [s.split hc split, hc]

theorem leaves : H.leaves = F.leaves.map Leaf.settled := by
  refine leaves_eq_map s.size fun id => ?_
  rcases F.cell?_cases id with dead | ⟨l, hl⟩ | ⟨c, hc, split⟩
  · rw [leaf?, s.dead dead, leaf?, dead]
    rfl
  · have same := leaf?_id hl
    rw [hl, Option.map_some]
    exact leaf?_eq_some.mpr ⟨same, s.leaf hl⟩
  · rw [leaf?, s.split hc split, leaf?, hc, Option.bind_some, Cell.leaf?_of_not_isActive split]
    rfl

end Settled

/-! ### The split leaves -/

section
variable (e : Executed (F.flagged .refine ids) G)
include e

theorem Executed.split_of_mem (hl : F.leaf? id = some l) (listed : id ∈ ids) :
    G.cell? id = some ⟨l.level, l.parent, l.target, .split ((F.flagged .refine ids).newChildren id)⟩ ∧
      ∀ k ∈ (F.flagged .refine ids).newChildren id, G.cell? k = some ⟨l.level + 1, some id, l.target, .active {}⟩ := by
  have hm : (F.flagged .refine ids).leaf? id = some (l.flagged .refine ids) := by rw [leaf?_flagged, hl]; rfl
  have refine : (l.flagged .refine ids).flag = .refine := by
    obtain rfl := leaf?_id hl
    rw [Leaf.flagged_flag, if_pos listed]
  have parent := e.refined hm refine
  rw [Leaf.flagged_target] at parent
  refine ⟨parent, fun k hk => ?_⟩
  have child := e.child hm refine hk
  rwa [Leaf.flagged_target] at child

theorem Executed.mergeable_of_mem (hl : F.leaf? id = some l) (listed : id ∈ ids) : G.Mergeable id := by
  obtain ⟨parent, children⟩ := e.split_of_mem hl listed
  exact ⟨_, parent, rfl, fun k hk => isActive_iff.mpr ⟨_, children k hk, rfl⟩⟩

/-- All children of a split leaf have its element, so merging them gives it back. -/
theorem Executed.mergedElement_of_mem (rest : G.AtRest fe) (hl : F.leaf? id = some l) (listed : id ∈ ids)
    (hc : G.cell? id = some c) : G.mergedElement c = l.target := by
  obtain ⟨parent, children⟩ := e.split_of_mem hl listed
  have mergeable := e.mergeable_of_mem hl listed
  obtain ⟨⟨k, hk, m, hm, highest⟩, -⟩ := mergeable.highestTarget rest.linked hc
  obtain rfl := Option.some.inj (hc.symm.trans parent)
  have child := Option.some.inj ((cell?_of_leaf? hm).symm.trans (children k hk))
  rw [← rest.highestTarget_eq mergeable hc, ← highest, rest.target_eq hm]
  exact congrArg Cell.element child

end

/-! ### The merged groups -/

section
variable (active : ∀ id ∈ ids, F.isActive id = true) (e : Executed (F.flagged .refine ids) G) (merged : Merged G ids H)
include active

theorem not_mem_of_split (hc : F.cell? id = some c) (split : c.isActive = false) : id ∉ ids := fun listed => by
  obtain ⟨d, hd, leaf⟩ := isActive_iff.mp (active id listed)
  obtain rfl := Option.some.inj (hc.symm.trans hd)
  cases split.symm.trans leaf

theorem not_mem_of_dead (dead : F.cell? id = none) : id ∉ ids := fun listed => by
  obtain ⟨d, hd, -⟩ := isActive_iff.mp (active id listed)
  cases dead.symm.trans hd

include e merged

/-- Cells of the old arena are no children of split leaves, and the merges leave them alone. -/
theorem Merged.kept_of_old (old : id.slot < F.slots.size) (unlisted : id ∉ ids) : H.cell? id = G.cell? id := by
  refine merged.kept unlisted fun p hp c hc listed => ?_
  obtain ⟨l, hl⟩ := Option.isSome_iff_exists.mp (isActive_eq ▸ active p hp)
  obtain rfl := Option.some.inj (hc.symm.trans (e.split_of_mem hl hp).1)
  have young := (CellId.mem_block.mp listed).1
  rw [flagged, size_remark] at young
  omega

variable (unflagged : ∀ l ∈ F.leaves, l.flag = .none)
include unflagged

/-- Old holes stay empty, and the merges empty all the slots that the splits have filled. -/
theorem Merged.dead_restored (dead : F.cell? id = none) : H.cell? id = none := by
  by_cases old : id.slot < F.slots.size
  · rw [merged.kept_of_old active e old (not_mem_of_dead active dead)]
    exact e.dead (cell?_remark_of_none dead _) (by rwa [flagged, size_remark])
  by_cases new : id.slot < G.slots.size
  · have young : (F.flagged .refine ids).slots.size ≤ id.slot := by
      rw [flagged, size_remark]
      exact Nat.le_of_not_lt old
    obtain ⟨p, m, hm, refine, child⟩ := e.cover young new
    obtain ⟨live, listed⟩ := (mem_refining_flagged unflagged).mp (mem_refining.mpr ⟨m, hm, refine⟩)
    obtain ⟨l, hl⟩ := Option.isSome_iff_exists.mp (isActive_eq ▸ live)
    exact merged.child listed (e.split_of_mem hl listed).1 child
  · exact cell?_eq_none_of_size_le (merged.size ▸ Nat.le_of_not_lt new)

variable (h : F.Linked)
include h

theorem Merged.split_restored (hc : F.cell? id = some c) (split : c.isActive = false) : H.cell? id = some c := by
  rw [merged.kept_of_old active e (slot_lt_size hc) (not_mem_of_split active hc split)]
  exact e.inner (cell?_remark_of_split hc split _) split (h.not_merges_flagged unflagged)

theorem Merged.leaf_restored (rest : G.AtRest fe) (hl : F.leaf? id = some l) : H.cell? id = some l.settled.cell := by
  by_cases listed : id ∈ ids
  · have parent := (e.split_of_mem hl listed).1
    rw [merged.parent listed parent, mergedCell, e.mergedElement_of_mem rest hl listed parent]
    rfl
  · have hm : (F.flagged .refine ids).leaf? id = some (l.flagged .refine ids) := by rw [leaf?_flagged, hl]; rfl
    have staying : (l.flagged .refine ids).flag ≠ .refine := by
      obtain rfl := leaf?_id hl
      rw [Leaf.flagged_flag, if_neg listed, unflagged l (mem_leaves_of_leaf? hl)]
      decide
    rw [merged.kept_of_old active e (slot_lt_size (cell?_of_leaf? hl)) listed,
      e.leaf hm staying fun _ _ => h.not_merges_flagged unflagged, Leaf.flagged_target]
    rfl

theorem Merged.settled (rest : G.AtRest fe) : Settled F H where
  size := by
    rw [merged.size, e.size, flagged, size_remark]
    exact Nat.le_add_right _ _
  leaf := merged.leaf_restored active e unflagged h rest
  split := merged.split_restored active e unflagged h
  dead := merged.dead_restored active e unflagged

end

/-! ### Both executions -/

/-- Splitting leaves and merging their children again comes to carrying out the schedules. Both executions are
accepted; cells, links and the order of the leaves are those of the start, each leaf uses the element that it would
have switched to, and no leaf is marked. -/
theorem coarsening_undoes_refinement (reached : Reachable F) (unflagged : ∀ l ∈ F.leaves, l.flag = .none)
    (within : F.Within fe) (distinct : ids.Nodup)
    (leaves : ∀ id ∈ ids, ∃ l, F.leaf? id = some l ∧ l.level < maxLevel) : ∃ refining coarsening : Forest D,
      let refined := (refining.execute fe).forest
      let restored := (coarsening.execute fe).forest
      F.flagAll .refine ids = .ok refining ∧
      (refining.execute fe).answer = .ok {
        pAdapted := F.leaves.countP Leaf.switches, refined := ids.length
        coarsenedGroups := 0, droppedFlags := 0 } ∧
      refined.flagAll .coarsen (ids.flatMap refined.childrenOf) = .ok coarsening ∧
      (coarsening.execute fe).answer = .ok {
        pAdapted := 0, refined := 0
        coarsenedGroups := ids.length, droppedFlags := 0 } ∧
      SameLinks F restored ∧ (∀ id, F.isActive id = false → restored.cell? id = F.cell? id) ∧
      restored.leaves = F.leaves.map Leaf.settled := by
  have h := reached.linked
  have active : ∀ id ∈ ids, F.isActive id = true := fun id listed => by
    obtain ⟨l, hl, -⟩ := leaves id listed
    rw [isActive_eq, hl]
    rfl
  have room : ∀ m ∈ (F.flagged .refine ids).leaves, m.flag = .refine → m.level < maxLevel := fun m hm refine => by
    have hm := mem_leaves_iff.mp hm
    obtain ⟨-, listed⟩ := (mem_refining_flagged unflagged).mp (mem_refining.mpr ⟨m, hm, refine⟩)
    obtain ⟨l, hl, below⟩ := leaves m.id listed
    rw [leaf?_flagged, hl] at hm
    cases hm
    exact below
  obtain ⟨answer, executed⟩ := execute_accepts h.flagged within.flagged room
  have rest := executed.atRest h.flagged within.flagged
  obtain ⟨flags, answer', merged, -⟩ := rest.merges_groups (fun p hp => by
    obtain ⟨l, hl, -⟩ := leaves p hp
    exact executed.mergeable_of_mem hl hp) distinct
  have count : (F.flagged .refine ids).refining.Perm ids := (List.perm_ext_iff_of_nodup nodup_refining distinct).mpr
    fun id => (mem_refining_flagged unflagged).trans (and_iff_right_of_imp (active id))
  rw [countP_switches_flagged, count.length_eq, h.merging_flagged unflagged, clean_flagged unflagged] at answer
  have settled := merged.settled active executed unflagged h rest
  exact ⟨_, _, flagAll_eq_ok active, answer, flags, answer', settled.links, fun _ => settled.inactive,
    settled.leaves⟩

/-- A tree with leaves on two levels and another root, with elements scheduled on a leaf of each level. -/
def scheduledTree : Forest 1 := after ([.addRoot 0, .refineCell ⟨0⟩, .refineCell ⟨2⟩, .addRoot 1, .setFuture ⟨1⟩ 1,
  .setFuture ⟨4⟩ 1] : List (Operation Rat Rat))

/-- A cell whose sibling is split, and one of two siblings that are leaves, are split and merged again. -/
theorem scheduledTree_restored : Reachable scheduledTree ∧ scheduledTree.Within .twoElements ∧
    (∀ l ∈ scheduledTree.leaves, l.flag = .none) ∧ ∃ refining coarsening : Forest 1,
      let refined := (refining.execute .twoElements).forest
      let restored := (coarsening.execute .twoElements).forest
      scheduledTree.flagAll .refine [⟨4⟩, ⟨1⟩] = .ok refining ∧
      (refining.execute .twoElements).answer = .ok ⟨2, 2, 0, 0⟩ ∧
      refined.flagAll .coarsen ([⟨4⟩, ⟨1⟩].flatMap refined.childrenOf) = .ok coarsening ∧
      (coarsening.execute .twoElements).answer = .ok ⟨0, 0, 2, 0⟩ ∧
      SameLinks scheduledTree restored ∧
      restored.leaves.map (fun l => (l.id.slot, l.element)) = [(1, 1), (3, 0), (4, 1), (5, 1)] := by
  have reached : Reachable scheduledTree := .after _
  have within : scheduledTree.Within .twoElements := by decide
  have unflagged : ∀ l ∈ scheduledTree.leaves, l.flag = .none := by decide
  have leaves : ∀ id ∈ [⟨4⟩, ⟨1⟩], ∃ l, scheduledTree.leaf? id = some l ∧ l.level < maxLevel := by
    intro id listed
    simp only [List.mem_cons, List.not_mem_nil, or_false] at listed
    rcases listed with rfl | rfl
    · exact ⟨_, rfl, by decide⟩
    · exact ⟨_, rfl, by decide⟩
  obtain ⟨refining, coarsening, flags, answer, flags', answer', links, -, restored⟩ :=
    coarsening_undoes_refinement reached unflagged within (by decide) leaves
  exact ⟨reached, within, unflagged, refining, coarsening, flags, answer, flags', answer', links, by rw [restored]; rfl⟩

end Forest
end HpForest
