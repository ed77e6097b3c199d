import HpForest.Forest.Marking
import HpForest.Proofs.Forest.Execution

/-! # Flags on chosen cells

On a forest without h flags the same flag is set on a list of leaves (`Forest.flagAll`). An execution after a
refine flag splits these leaves and merges nothing. On a forest without markers, a coarsen flag on all children of
some cells makes the execution merge the groups of these cells and nothing else (`AtRest.merges_groups`). -/

namespace HpForest

/-! ### Setting a flag -/

namespace Leaf
variable {flag : HFlag} {ids : List CellId} {l : Leaf}

/-- The markers of the leaf when the flag has been set on the leaves with the given ids. -/
def flagOn (flag : HFlag) : List CellId → Leaf → Markers := markOn fun l => { l.markers with flag }

/-- The leaf when the flag has been set on the leaves with the given ids. -/
def flagged (flag : HFlag) (ids : List CellId) (l : Leaf) : Leaf := { l with markers := l.flagOn flag ids }

@[simp] theorem flagged_future : (l.flagged flag ids).future = l.future := by
  show (l.flagOn flag ids).future = l.markers.future
  unfold flagOn markOn
  split <;> rfl

@[simp] theorem flagged_target : (l.flagged flag ids).target = l.target := by
  rw [target, flagged_future]
  rfl

theorem flagged_flag : (l.flagged flag ids).flag = if l.id ∈ ids then flag else l.flag := by
  show (l.flagOn flag ids).flag = _
  unfold flagOn markOn
  split <;> rfl

end Leaf

namespace Forest
variable {D : Nat} {F G H : Forest D} {fe : Collection} {flag : HFlag} {id k p : CellId} {ids ps : List CellId}
  {c : Cell} {l m : Leaf}

/-- Sets the flag on one cell after the other until one is refused. -/
def flagAll (F : Forest D) (flag : HFlag) (ids : List CellId) : Except AdaptError (Forest D) :=
  ids.foldlM (fun G id => G.setFlag id flag) F

/-- The forest with the flag on the leaves with the given ids. -/
def flagged (F : Forest D) (flag : HFlag) (ids : List CellId) : Forest D := F.remark (Leaf.flagOn flag ids)

theorem setFlag_eq_ok (active : F.isActive id = true) : F.setFlag id flag = .ok (F.flagged flag [id]) := by
  obtain ⟨l, hl⟩ := Option.isSome_iff_exists.mp (isActive_eq ▸ active)
  rw [setFlag, leaf_eq_ok.mpr hl]
  exact congrArg Except.ok (modify_eq_markOn hl rfl)

theorem flagAll_eq_ok (active : ∀ id ∈ ids, F.isActive id = true) : F.flagAll flag ids = .ok (F.flagged flag ids) := by
  induction ids generalizing F with
  | nil => exact congrArg _ remark_markOn_nil.symm
  | cons id rest ih =>
    have tail := ih (F := F.flagged flag [id]) fun k hk => by
      rw [flagged, isActive_remark]
      exact active k (List.mem_cons_of_mem id hk)
    rw [flagAll, List.foldlM_cons, setFlag_eq_ok (active id List.mem_cons_self)]
    exact tail.trans (congrArg _ (remark_markOn_append fun _ => rfl))

/-! ### The flagged forest -/

theorem leaf?_flagged : (F.flagged flag ids).leaf? id = (F.leaf? id).map (Leaf.flagged flag ids) := leaf?_remark _

theorem leaves_flagged : (F.flagged flag ids).leaves = F.leaves.map (Leaf.flagged flag ids) := leaves_remark _

theorem Linked.flagged (h : F.Linked) : (F.flagged flag ids).Linked := (SameLinks.of_remark _).linked h

theorem Within.flagged (within : F.Within fe) : (F.flagged flag ids).Within fe :=
  within.remark fun _ _ _ future => Or.inl (Leaf.flagged_future.symm.trans future)

theorem countP_switches_flagged : (F.flagged flag ids).leaves.countP Leaf.switches = F.leaves.countP Leaf.switches := by
  have same : Leaf.switches ∘ Leaf.flagged flag ids = Leaf.switches := by
    funext l
    simp only [Function.comp_apply, Leaf.switches, Leaf.flagged_target]
    rfl
  rw [leaves_flagged, List.countP_map, same]

theorem highestTarget_flagged : (F.flagged flag ids).highestTarget c = F.highestTarget c := by
  have targets : ∀ k, ((F.flagged flag ids).leaf? k).map Leaf.target = (F.leaf? k).map Leaf.target := fun k => by
    rw [leaf?_flagged, Option.map_map]
    exact congrArg (Option.map · (F.leaf? k)) (funext fun l => Leaf.flagged_target)
  rw [highestTarget, highestTarget, List.map_filterMap, List.map_filterMap]
  exact congrArg (fun ts => (List.max? ts).getD c.element) (List.filterMap_congr fun k _ => targets k)

section
variable (unflagged : ∀ l ∈ F.leaves, l.flag = .none)
include unflagged

theorem flag_flagged (hm : (F.flagged flag ids).leaf? id = some m) : m.flag = .none ∨ m.flag = flag ∧ id ∈ ids := by
  rw [leaf?_flagged] at hm
  obtain ⟨l, hl, rfl⟩ := Option.map_eq_some_iff.mp hm
  obtain rfl := leaf?_id hl
  rw [Leaf.flagged_flag]
  split
  · next listed => exact Or.inr ⟨rfl, listed⟩
  · exact Or.inl (unflagged l (mem_leaves_of_leaf? hl))

/-- Only the listed leaves are split, and only after a refine flag. -/
theorem refining_flagged (other : flag ≠ .refine) : (F.flagged flag ids).refining = [] := by
  refine List.eq_nil_iff_forall_not_mem.mpr fun id hid => ?_
  obtain ⟨l, hl, refine⟩ := mem_refining.mp hid
  rcases flag_flagged unflagged hl with none | ⟨same, -⟩
  · cases refine.symm.trans none
  · exact other (same.symm.trans refine)

theorem mem_refining_flagged : id ∈ (F.flagged .refine ids).refining ↔ F.isActive id = true ∧ id ∈ ids := by
  rw [mem_refining, isActive_eq, Option.isSome_iff_exists]
  constructor
  · rintro ⟨m, hm, refine⟩
    rcases flag_flagged unflagged hm with none | ⟨-, listed⟩
    · cases refine.symm.trans none
    · rw [leaf?_flagged] at hm
      obtain ⟨l, hl, -⟩ := Option.map_eq_some_iff.mp hm
      exact ⟨⟨l, hl⟩, listed⟩
  · rintro ⟨⟨l, hl⟩, listed⟩
    obtain rfl := leaf?_id hl
    exact ⟨_, by rw [leaf?_flagged, hl]; rfl, by rw [Leaf.flagged_flag, if_pos listed]⟩

/-! A refine flag lets no group be merged and drops no other flag. -/

theorem clean_flagged : (F.flagged .refine ids).clean.2 = 0 := by
  refine List.countP_eq_zero.mpr fun l hl stray => ?_
  rcases flag_flagged unflagged (mem_leaves_iff.mp hl) with none | ⟨refine, -⟩
  · cases (strayCoarsen_iff.mp stray).1.symm.trans none
  · cases (strayCoarsen_iff.mp stray).1.symm.trans refine

variable (h : F.Linked)
include h

theorem Linked.not_merges_flagged : ¬(F.flagged .refine ids).Merges p := by
  rintro ⟨c, hc, split, all⟩
  obtain ⟨k, l, -, hl, -, coarsen⟩ := h.flagged.exists_leaf_of_coarsens hc split all
  rcases flag_flagged unflagged hl with none | ⟨refine, -⟩
  · cases coarsen.symm.trans none
  · cases coarsen.symm.trans refine

theorem Linked.merging_flagged : (F.flagged .refine ids).merging = [] :=
  List.eq_nil_iff_forall_not_mem.mpr fun _ hp =>
    h.not_merges_flagged unflagged (h.flagged.mem_coarsenParents_clean.mp hp)

end

/-! ### Forests at rest -/

/-- The forest is linked, no leaf is marked, and all of them use elements of the collection. -/
structure AtRest (F : Forest D) (fe : Collection) : Prop where
  linked : F.Linked
  bare : ∀ l ∈ F.leaves, l.markers = {}
  valid : ∀ l ∈ F.leaves, l.element < fe.size

/-- An execution brings a forest to rest. -/
theorem Executed.atRest (e : Executed F G) (h : F.Linked) (within : F.Within fe) : G.AtRest fe where
  linked := e.linked
  bare _ hm := e.bare h (mem_leaves_iff.mp hm)
  valid m hm := by
    obtain ⟨k, l, hl, target, -⟩ := e.origin h (mem_leaves_iff.mp hm)
    exact target ▸ within l (mem_leaves_of_leaf? hl) _ l.target_mem_indices

namespace AtRest
variable (h : F.AtRest fe)
include h

theorem unflagged : ∀ l ∈ F.leaves, l.flag = .none := fun l hl => by rw [Leaf.flag, h.bare l hl]

theorem target_eq (hl : F.leaf? id = some l) : l.target = l.element := by
  rw [Leaf.target, Leaf.future, h.bare l (mem_leaves_of_leaf? hl), Option.getD_none]

theorem within : F.Within fe := fun l hl i hi => by
  have unscheduled : l.future = none := by rw [Leaf.future, h.bare l hl]
  exact Leaf.eq_of_mem_indices unscheduled hi ▸ h.valid l hl

theorem highestTarget_eq (mergeable : F.Mergeable p) (hc : F.cell? p = some c) :
    F.highestTarget c = F.mergedElement c := by
  have same : (c.children.filterMap F.leaf?).map Leaf.target = (c.children.filterMap F.cell?).map (·.element) := by
    rw [List.map_filterMap, List.map_filterMap]
    refine List.filterMap_congr fun k hk => ?_
    obtain ⟨l, hl⟩ := Option.isSome_iff_exists.mp (isActive_eq ▸ (mergeable.of_cell hc).2 k hk)
    rw [hl, cell?_of_leaf? hl, Option.map_some, h.target_eq hl]
    rfl
  rw [highestTarget, same, mergedElement]

end AtRest

/-! ### Merging the groups of chosen cells -/

/-- The forest with a coarsen flag on the children of the given cells. -/
def flaggedGroups (F : Forest D) (ps : List CellId) : Forest D := F.flagged .coarsen (ps.flatMap F.childrenOf)

section
variable (h : F.AtRest fe) (ready : ∀ p ∈ ps, F.Mergeable p)
include h ready

theorem AtRest.merges_flaggedGroups : (F.flaggedGroups ps).Merges p ↔ p ∈ ps := by
  constructor
  · rintro ⟨c, hc, split, all⟩
    obtain ⟨k, l, listed, hl, -, coarsen⟩ := h.linked.flagged.exists_leaf_of_coarsens hc split all
    have hc := (cell?_remark_eq_split split _).mp hc
    rcases flag_flagged h.unflagged hl with none | ⟨-, group⟩
    · cases coarsen.symm.trans none
    · obtain ⟨q, hq, group⟩ := List.mem_flatMap.mp group
      obtain ⟨d, hd, listed'⟩ := mem_childrenOf.mp group
      exact h.linked.eq_of_mem hc hd listed listed' ▸ hq
  · intro hp
    obtain ⟨c, hc, split, active⟩ := ready p hp
    refine ⟨c, cell?_remark_of_split hc split _, split, fun k hk => coarsens_iff.mpr ?_⟩
    obtain ⟨l, hl⟩ := Option.isSome_iff_exists.mp (isActive_eq ▸ active k hk)
    have group : l.id ∈ ps.flatMap F.childrenOf :=
      List.mem_flatMap.mpr ⟨p, hp, mem_childrenOf.mpr ⟨c, hc, leaf?_id hl ▸ hk⟩⟩
    exact ⟨_, by rw [flaggedGroups, leaf?_flagged, hl]; rfl, by rw [Leaf.flagged_flag, if_pos group]⟩

theorem AtRest.merged (e : Executed (F.flaggedGroups ps) H) : Merged F ps H := by
  have merges : ∀ {p}, (F.flaggedGroups ps).Merges p ↔ p ∈ ps := h.merges_flaggedGroups ready
  have unrefined : (F.flaggedGroups ps).refining = [] := refining_flagged h.unflagged nofun
  have size : H.slots.size = F.slots.size := by
    rw [e.size, unrefined, flaggedGroups, flagged, size_remark]
    exact Nat.add_zero _
  constructor
  · exact size
  · intro p c hp hc
    have mergeable := ready p hp
    have after := e.merged (merges.mpr hp) (cell?_remark_of_split hc (mergeable.of_cell hc).1 _)
    rwa [flaggedGroups, highestTarget_flagged, h.highestTarget_eq mergeable hc] at after
  · intro p c k hp hc hk
    exact e.gone (merges.mpr hp) (cell?_remark_of_split hc ((ready p hp).of_cell hc).1 _) hk
  · intro j staying outside
    rcases F.cell?_cases j with dead | ⟨l, hl⟩ | ⟨c, hc, split⟩
    · rw [dead]
      by_cases old : j.slot < F.slots.size
      · exact e.dead (cell?_remark_of_none dead _) (by rwa [flaggedGroups, flagged, size_remark])
      · exact cell?_eq_none_of_size_le (size ▸ Nat.le_of_not_lt old)
    · have hm : (F.flaggedGroups ps).leaf? j = some (l.flagged .coarsen (ps.flatMap F.childrenOf)) :=
        leaf?_remark_of_leaf? hl _
      have unsplit : (l.flagged .coarsen (ps.flatMap F.childrenOf)).flag ≠ .refine := fun refine => by
        have listed := mem_refining.mpr ⟨_, hm, refine⟩
        rw [unrefined] at listed
        cases listed
      have after := e.leaf hm unsplit fun p hp group => by
        obtain ⟨q, hq, listed⟩ := h.linked.parent (cell?_of_leaf? hl) hp
        exact outside p (merges.mp group) q hq listed
      rw [Leaf.flagged_target, h.target_eq hl] at after
      rw [after, cell?_of_leaf? hl, Leaf.cell, h.bare l (mem_leaves_of_leaf? hl)]
      rfl
    · rw [hc]
      exact e.inner (cell?_remark_of_split hc split _) split (staying ∘ merges.mp)

theorem AtRest.clean_flaggedGroups : (F.flaggedGroups ps).clean.2 = 0 := by
  refine List.countP_eq_zero.mpr fun l hl stray => ?_
  have hl := mem_leaves_iff.mp hl
  rcases flag_flagged h.unflagged hl with none | ⟨-, group⟩
  · cases (strayCoarsen_iff.mp stray).1.symm.trans none
  · obtain ⟨p, hp, group⟩ := List.mem_flatMap.mp group
    have merges := (h.merges_flaggedGroups ready).mpr hp
    obtain ⟨d, hd, split, -⟩ := id merges
    obtain ⟨c, hc, listed⟩ := mem_childrenOf.mp group
    obtain rfl := Option.some.inj (((cell?_remark_eq_split split _).mp hd).symm.trans hc)
    have parent : l.parent = some p := h.linked.flagged.parent_of_mem hd listed (cell?_of_leaf? hl)
    cases stray.symm.trans (merges.not_stray parent)

/-- Flagging all children of the cells and executing is accepted, merges the groups of these cells and nothing
else, and leaves the forest at rest. -/
theorem AtRest.merges_groups (distinct : ps.Nodup) :
    F.flagAll .coarsen (ps.flatMap F.childrenOf) = .ok (F.flaggedGroups ps) ∧
      ((F.flaggedGroups ps).execute fe).answer = .ok ⟨0, 0, ps.length, 0⟩ ∧
      Merged F ps ((F.flaggedGroups ps).execute fe).forest ∧ ((F.flaggedGroups ps).execute fe).forest.AtRest fe := by
  have active : ∀ k ∈ ps.flatMap F.childrenOf, F.isActive k = true := fun k hk => by
    obtain ⟨p, hp, hk⟩ := List.mem_flatMap.mp hk
    obtain ⟨c, hc, listed⟩ := mem_childrenOf.mp hk
    exact ((ready p hp).of_cell hc).2 k listed
  have unrefined : (F.flaggedGroups ps).refining = [] := refining_flagged h.unflagged nofun
  have linked : (F.flaggedGroups ps).Linked := h.linked.flagged
  have within : (F.flaggedGroups ps).Within fe := h.within.flagged
  have room : ∀ l ∈ (F.flaggedGroups ps).leaves, l.flag = .refine → l.level < maxLevel := fun l hl refine => by
    have listed := mem_refining.mpr ⟨l, mem_leaves_iff.mp hl, refine⟩
    rw [unrefined] at listed
    cases listed
  have switches : (F.flaggedGroups ps).leaves.countP Leaf.switches = 0 := by
    rw [flaggedGroups, countP_switches_flagged]
    exact List.countP_eq_zero.mpr fun l hl => by simp [Leaf.switches, h.target_eq (mem_leaves_iff.mp hl)]
  have merging : (F.flaggedGroups ps).merging.Perm ps := (List.perm_ext_iff_of_nodup nodup_merging distinct).mpr
    fun p => linked.mem_coarsenParents_clean.trans (h.merges_flaggedGroups ready)
  obtain ⟨answer, executed⟩ := execute_accepts linked within room
  rw [switches, unrefined, merging.length_eq, h.clean_flaggedGroups ready] at answer
  exact ⟨flagAll_eq_ok active, answer, h.merged ready executed, executed.atRest linked within⟩

end

end Forest
end HpForest
