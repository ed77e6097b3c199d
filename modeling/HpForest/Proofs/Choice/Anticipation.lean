import HpForest.Proofs.Choice.Order

/-! # Choosing p before an execution

Choosing p drops one schedule of every leaf that has two: in an uneven group, which is flagged for
coarsening as a whole but scheduled for other elements only in part, the elements give way, and elsewhere
the flags (`Forest.Linked.chosen_eq`). So the groups that an execution merges afterwards are the uneven
ones, and the clean-up at its start drops the flags that it would also have dropped before the choice. -/

namespace HpForest
namespace Forest
variable {D : Nat} {F G : Forest D} {fe : Collection} {id k p : CellId} {c : Cell} {l : Leaf}

/-! ### Uneven groups -/

theorem uneven_iff (hc : F.cell? p = some c) : F.uneven p = true ↔
    (∀ k ∈ c.children, F.coarsens k = true) ∧ ¬∀ k ∈ c.children, F.schedules k = true := by
  simp [uneven, groupCoarsens, groupSchedules, hc]

theorem exists_of_uneven (uneven : F.uneven p = true) : ∃ c, F.cell? p = some c ∧ c.isActive = false ∧
    ∀ k ∈ c.children, F.coarsens k = true := by
  cases hc : F.cell? p with
  | none => simp [Forest.uneven, groupCoarsens, hc] at uneven
  | some c =>
    obtain ⟨coarsens, some_idle⟩ := (uneven_iff hc).mp uneven
    simp only [not_forall] at some_idle
    obtain ⟨k, hk, -⟩ := some_idle
    exact ⟨c, rfl, Linked.not_isActive_of_mem hk, coarsens⟩

theorem Linked.flag_of_uneven (h : F.Linked) (hl : F.leaf? id = some l) (hp : l.parent = some p)
    (uneven : F.uneven p = true) : l.flag = .coarsen := by
  obtain ⟨c, hc, -, coarsens⟩ := exists_of_uneven uneven
  exact (coarsens_of_leaf? hl).mp (coarsens id ((h.mem_children_iff hc (cell?_of_leaf? hl)).mpr hp))

/-- A leaf that is not scheduled makes its group uneven if that is flagged as a whole. -/
theorem Linked.uneven_of_unscheduled (h : F.Linked) (hl : F.leaf? id = some l) (hp : l.parent = some p)
    (unscheduled : l.future = none) : F.uneven p = F.groupCoarsens p := by
  obtain ⟨c, hc, listed⟩ := h.parent (cell?_of_leaf? hl) hp
  have idle : F.groupSchedules p = false := by
    rw [groupSchedules, hc, Option.any_some, List.all_eq_false]
    exact ⟨id, listed, by simp [schedules, markers?_eq, hl, show l.markers.future = none from unscheduled]⟩
  simp [uneven, idle]

/-! ### What choosing leaves -/

theorem forced_eq : forced l = if l.future.isSome then l.markers.clearFlag else l.markers := by
  obtain ⟨_, _, _, _, flag, future⟩ := l
  cases flag <;> cases future <;> simp [forced, Markers.conflicted, Markers.clearFlag, Leaf.future]

theorem resolve_eq_forced {r : SiblingResolution} (flag : l.flag = .coarsen) (ne : r ≠ .hCoarsening) :
    r.resolve l.markers = forced l := by
  obtain ⟨_, _, _, _, _, future⟩ := l
  obtain rfl : _ = HFlag.coarsen := flag
  cases r with
  | hCoarsening => exact absurd rfl ne
  | partialGroup => cases future <;> rfl
  | pCoarsening => cases future <;> rfl

/-- Of two schedules a leaf of an uneven group keeps the flag and any other leaf the element. -/
theorem Linked.chosen_eq (h : F.Linked) (hl : F.leaf? id = some l) : F.chosen l =
    if l.parent.any F.uneven then l.markers.clearFuture
    else if l.future.isSome then l.markers.clearFlag else l.markers := by
  rw [← forced_eq]
  rcases l.grouped_or_single with ⟨flag, p, hp⟩ | single
  · rw [chosen_of_group flag hp, hp, Option.any_some]
    split
    · next uneven => rw [resolution_eq_hCoarsening_iff.mpr uneven, SiblingResolution.resolve]
    · next even => exact resolve_eq_forced flag (mt resolution_eq_hCoarsening_iff.mp even)
  · rw [chosen_of_single single, if_neg]
    simp only [Option.any_eq_true, not_exists, not_and]
    intro p hp uneven
    simp [single (h.flag_of_uneven hl hp uneven)] at hp

theorem Linked.chosen_flag_eq_coarsen (h : F.Linked) (hl : F.leaf? id = some l) : (F.chosen l).flag = .coarsen ↔
    l.flag = .coarsen ∧ (l.future = none ∨ l.parent.any F.uneven = true) := by
  rw [h.chosen_eq hl]
  split
  · next uneven => simp [Markers.clearFuture, Leaf.flag, uneven]
  · next even => cases scheduled : l.future <;> simp [Markers.clearFlag, Leaf.flag, even]

theorem Linked.chosen_flag_eq_refine (h : F.Linked) (hl : F.leaf? id = some l) :
    (F.chosen l).flag = .refine ↔ l.flag = .refine ∧ l.future = none := by
  rw [h.chosen_eq hl]
  split
  · next uneven =>
    obtain ⟨p, hp, uneven⟩ := Option.any_eq_true _ _ |>.mp uneven
    have flag := h.flag_of_uneven hl hp uneven
    simp [Markers.clearFuture, show l.markers.flag = .coarsen from flag, flag]
  · next even => cases scheduled : l.future <;> simp [Markers.clearFlag, Leaf.flag]

theorem Linked.chosen_future (h : F.Linked) (hl : F.leaf? id = some l) :
    (F.chosen l).future = if l.parent.any F.uneven then none else l.future := by
  rw [h.chosen_eq hl]
  split
  · rfl
  · split <;> rfl

/-! ### The clean-up -/

/-- After the choice the groups to be merged are the uneven ones. -/
theorem Linked.merges_chosen (h : F.Linked) : (F.remark F.chosen).Merges p ↔ F.uneven p = true := by
  constructor
  · rintro ⟨c, hc, split, left⟩
    have hc := (cell?_remark_eq_split split _).mp hc
    have flags : ∀ k ∈ c.children, ∃ l, F.leaf? k = some l ∧ l.parent = some p ∧ l.flag = .coarsen ∧
        (l.future = none ∨ F.uneven p = true) := fun k hk => by
      obtain ⟨l, hl, flag⟩ := coarsens_remark_iff.mp (left k hk)
      have hp : l.parent = some p := h.parent_of_mem hc hk (cell?_of_leaf? hl)
      exact ⟨l, hl, hp, by simpa [hp] using (h.chosen_flag_eq_coarsen hl).mp flag⟩
    have group : F.groupCoarsens p = true := groupCoarsens_iff.mpr ⟨c, hc, fun k hk => by
      obtain ⟨l, hl, -, flag, -⟩ := flags k hk
      exact coarsens_iff.mpr ⟨l, hl, flag⟩⟩
    obtain ⟨k, hk⟩ := List.exists_mem_of_ne_nil _ (h.children_ne_nil hc split)
    obtain ⟨l, hl, hp, -, unscheduled | uneven⟩ := flags k hk
    · rw [h.uneven_of_unscheduled hl hp unscheduled, group]
    · exact uneven
  · intro uneven
    obtain ⟨c, hc, split, coarsens⟩ := exists_of_uneven uneven
    refine ⟨c, cell?_remark_of_split hc split _, split, fun k hk => ?_⟩
    obtain ⟨l, hl, flag⟩ := coarsens_iff.mp (coarsens k hk)
    have hp : l.parent = some p := h.parent_of_mem hc hk (cell?_of_leaf? hl)
    exact coarsens_remark_iff.mpr ⟨l, hl, (h.chosen_flag_eq_coarsen hl).mpr ⟨flag, Or.inr (by simp [hp, uneven])⟩⟩

theorem Linked.groupCoarsens_chosen (h : F.Linked) (hl : F.leaf? id = some l) (hp : l.parent = some p) :
    (F.remark F.chosen).groupCoarsens p = F.uneven p := by
  have linked : (F.remark F.chosen).Linked := (SameLinks.of_remark _).linked h
  rw [Bool.eq_iff_iff, linked.groupCoarsens_iff_merges (leaf?_remark_of_leaf? hl _) hp, h.merges_chosen]

/-- The flags that are stray after the choice are those that were stray before, of unscheduled leaves. -/
theorem Linked.strayCoarsen_chosen (h : F.Linked) (hl : F.leaf? id = some l) :
    (F.remark F.chosen).strayCoarsen { l with markers := F.chosen l } = (F.strayCoarsen l && l.future.isNone) := by
  have flag := h.chosen_flag_eq_coarsen hl
  rw [Bool.eq_iff_iff, Bool.and_eq_true, strayCoarsen_iff, strayCoarsen_iff, Leaf.flag, flag, Option.isNone_iff_eq_none]
  cases hp : l.parent with
  | none => simp
  | some p =>
    have groups := h.groupCoarsens_chosen hl hp
    cases scheduled : l.future with
    | none => simp [groups, h.uneven_of_unscheduled hl hp scheduled]
    | some i => simp [groups]

theorem not_uneven_of_stray (stray : F.strayCoarsen l = true) : l.parent.any F.uneven = false := by
  cases hp : l.parent with
  | none => rfl
  | some p => simp [uneven, (strayCoarsen_iff.mp stray).2 p hp]

theorem Linked.cleanMarkers_chosen (h : F.Linked) (hl : F.leaf? id = some l) :
    (F.remark F.chosen).cleanMarkers { l with markers := F.chosen l } =
      if F.strayCoarsen l then l.markers.clearFlag else F.chosen l := by
  rw [cleanMarkers, h.strayCoarsen_chosen hl]
  cases stray : F.strayCoarsen l with
  | false => rfl
  | true =>
    rw [h.chosen_eq hl, not_uneven_of_stray stray]
    cases l.future <;> rfl

theorem Linked.uneven_clean (h : F.Linked) (hl : F.leaf? id = some l) (hp : l.parent = some p) :
    F.clean.1.uneven p = F.uneven p := by
  obtain ⟨c, hc, listed⟩ := h.parent (cell?_of_leaf? hl) hp
  have hc' : F.clean.1.cell? p = some c := cell?_remark_of_split hc (Linked.not_isActive_of_mem listed) _
  have schedules : ∀ k, F.clean.1.schedules k = F.schedules k := fun k => by
    rw [schedules, clean_fst, markers?_remark, schedules, markers?_eq]
    cases F.leaf? k with
    | none => rfl
    | some m => exact congrArg Option.isSome cleanMarkers_future
  rw [uneven, uneven, h.groupCoarsens_clean hl hp, groupSchedules, groupSchedules, hc, hc', Option.any_some,
    Option.any_some, funext schedules]

theorem Linked.chosen_clean (h : F.Linked) (hl : F.leaf? id = some l) :
    F.clean.1.chosen { l with markers := F.cleanMarkers l } =
      if F.strayCoarsen l then l.markers.clearFlag else F.chosen l := by
  have even : l.parent.any F.clean.1.uneven = l.parent.any F.uneven := by
    cases hp : l.parent with
    | none => rfl
    | some p => exact h.uneven_clean hl hp
  have hl' : F.clean.1.leaf? id = some { l with markers := F.cleanMarkers l } := by
    rw [leaf?_clean, hl, Option.map_some]
  rw [(SameLinks.clean.linked h).chosen_eq hl', even, h.chosen_eq hl]
  cases stray : F.strayCoarsen l with
  | false =>
    have kept : F.cleanMarkers l = l.markers := by simp [cleanMarkers, stray]
    rw [kept]
    rfl
  | true =>
    rw [not_uneven_of_stray stray]
    simp [cleanMarkers, stray, Markers.clearFlag]

/-- Choosing p and the clean-up may be done in either order. -/
theorem chooseP_clean_comm (reached : Reachable F) : (∃ report, F.chooseP.answer = .ok report) ∧
    (∃ report, F.clean.1.chooseP.answer = .ok report) ∧ F.chooseP.forest.clean.1 = F.clean.1.chooseP.forest := by
  have h := reached.linked
  obtain ⟨accepted, forest⟩ := chooseP_accepts h
  obtain ⟨accepted', forest'⟩ := chooseP_accepts (SameLinks.clean.linked h)
  refine ⟨⟨_, accepted⟩, ⟨_, accepted'⟩, ?_⟩
  rw [forest, forest', clean_fst, clean_fst, remark_remark, remark_remark]
  refine remark_congr fun l hl => ?_
  have hl := mem_leaves_iff.mp hl
  exact (h.cleanMarkers_chosen hl).trans (h.chosen_clean hl).symm

theorem twoGroups_clean_comm : Reachable twoGroups ∧ twoGroups.clean.2 = 2 ∧
    twoGroups.chooseP.forest.clean.1 = twoGroups.clean.1.chooseP.forest := by
  obtain ⟨-, -, same⟩ := chooseP_clean_comm (F := twoGroups) (.after _)
  exact ⟨.after _, by rw [twoGroups_eq]; rfl, same⟩

/-! ### The execution -/

theorem Linked.within_chosen (h : F.Linked) (within : F.Within fe) : (F.remark F.chosen).Within fe := by
  refine within.remark fun l hl i future => Or.inl ?_
  rw [h.chosen_future (mem_leaves_iff.mp hl)] at future
  split at future
  · cases future
  · exact future

theorem countP_chosen {q q' : Leaf → Bool}
    (same : ∀ {id l}, F.leaf? id = some l → q { l with markers := F.chosen l } = q' l) :
    (F.remark F.chosen).leaves.countP q = F.leaves.countP q' := by
  rw [leaves_remark, List.countP_map]
  exact List.countP_congr fun l hl => by rw [Function.comp_apply, same (mem_leaves_iff.mp hl)]

/-- What choosing p and then executing leaves of a forest. -/
structure ExecutedChoice (F G : Forest D) : Prop where
  /-- An uneven group is merged, and its parent takes the highest element that its cells had in use. -/
  merged : ∀ {p c}, F.cell? p = some c → F.uneven p = true →
    (∃ e, ((c.children.filterMap F.leaf?).map (·.element)).max? = some e ∧
      G.cell? p = some ⟨c.level, c.parent, e, .active {}⟩) ∧ ∀ k ∈ c.children, G.cell? k = none
  inner : ∀ {p c}, F.cell? p = some c → c.isActive = false → F.uneven p = false → G.cell? p = some c
  refined : ∀ {id l}, F.leaf? id = some l → l.flag = .refine → l.future = none → ∃ ks, ks.length = fanout D ∧
    G.cell? id = some ⟨l.level, l.parent, l.element, .split ks⟩ ∧
    ∀ k ∈ ks, G.cell? k = some ⟨l.level + 1, some id, l.element, .active {}⟩
  /-- Any other leaf switches to its scheduled element, if it has one. -/
  leaf : ∀ {id l}, F.leaf? id = some l → ¬(l.flag = .refine ∧ l.future = none) → l.parent.any F.uneven = false →
    G.cell? id = some ⟨l.level, l.parent, l.target, .active {}⟩
  /-- No marker is left, on these cells or on any other. -/
  bare : ∀ {id l}, G.leaf? id = some l → l.markers = {}

theorem Linked.highestTarget_chosen (h : F.Linked) (hc : F.cell? p = some c) (uneven : F.uneven p = true) :
    ∃ e, ((c.children.filterMap F.leaf?).map (·.element)).max? = some e ∧
      (F.remark F.chosen).highestTarget c = e := by
  have targets : (c.children.filterMap (F.remark F.chosen).leaf?).map Leaf.target =
      (c.children.filterMap F.leaf?).map (·.element) := by
    rw [List.map_filterMap, List.map_filterMap]
    refine List.filterMap_congr fun k hk => ?_
    rw [leaf?_remark]
    cases hl : F.leaf? k with
    | none => rfl
    | some l =>
      have hp : l.parent = some p := h.parent_of_mem hc hk (cell?_of_leaf? hl)
      have unscheduled : (F.chosen l).future = none := by
        rw [h.chosen_future hl, hp, Option.any_some, if_pos uneven]
      simp [Leaf.target, Leaf.future, unscheduled]
  rw [highestTarget, targets]
  obtain ⟨c', hc', split, coarsens⟩ := exists_of_uneven uneven
  obtain rfl : c = c' := Option.some.inj (hc.symm.trans hc')
  obtain ⟨k, l, hk, hl, -, -⟩ := h.exists_leaf_of_coarsens hc split coarsens
  cases highest : ((c.children.filterMap F.leaf?).map (·.element)).max? with
  | some e => exact ⟨e, rfl, rfl⟩
  | none =>
    have none := List.max?_eq_none_iff.mp highest
    have member : l.element ∈ (c.children.filterMap F.leaf?).map (·.element) :=
      List.mem_map.mpr ⟨l, List.mem_filterMap.mpr ⟨k, hk, hl⟩, rfl⟩
    rw [none] at member
    cases member

theorem Executed.of_chosen (h : F.Linked) (e : Executed (F.remark F.chosen) G) : ExecutedChoice F G where
  merged {p c} hc uneven := by
    obtain ⟨c', hc', split, -⟩ := exists_of_uneven uneven
    obtain rfl : c = c' := Option.some.inj (hc.symm.trans hc')
    have merges := h.merges_chosen.mpr uneven
    have hc := cell?_remark_of_split hc split F.chosen
    obtain ⟨i, highest, target⟩ := h.highestTarget_chosen hc' uneven
    exact ⟨⟨i, highest, target ▸ e.merged merges hc⟩, fun k hk => e.gone merges hc hk⟩
  inner {p c} hc split even := by
    refine e.inner (cell?_remark_of_split hc split _) split fun merges => ?_
    rw [h.merges_chosen.mp merges] at even
    cases even
  refined {id l} hl flag unscheduled := by
    have hl' := leaf?_remark_of_leaf? hl F.chosen
    have flag' : (F.chosen l).flag = .refine := (h.chosen_flag_eq_refine hl).mpr ⟨flag, unscheduled⟩
    have target : ({ l with markers := F.chosen l } : Leaf).target = l.element := by
      simp [Leaf.target, Leaf.future, h.chosen_future hl, show l.markers.future = none from unscheduled]
    have parent := e.refined hl' flag'
    have child := fun k hk => e.child (k := k) hl' flag' hk
    rw [target] at parent
    simp only [target] at child
    exact ⟨_, by simp [newChildren, childBlock, CellId.block], parent, child⟩
  bare := e.bare ((SameLinks.of_remark _).linked h)
  leaf {id l} hl staying even := by
    have target : ({ l with markers := F.chosen l } : Leaf).target = l.target := by
      simp [Leaf.target, Leaf.future, h.chosen_future hl, even]
    have unsplit : (F.chosen l).flag ≠ .refine := mt (h.chosen_flag_eq_refine hl).mp staying
    have cell := e.leaf (leaf?_remark_of_leaf? hl F.chosen) unsplit fun p hp merges => by
      have hp : l.parent = some p := hp
      rw [hp, Option.any_some, h.merges_chosen.mp merges] at even
      cases even
    rwa [target] at cell

theorem ExecutedChoice.isActive_iff (e : ExecutedChoice F G) (hc : F.cell? p = some c) (split : c.isActive = false) :
    G.isActive p = true ↔ F.uneven p = true := by
  rw [Forest.isActive_iff]
  cases uneven : F.uneven p with
  | true =>
    obtain ⟨⟨i, -, merged⟩, -⟩ := e.merged hc uneven
    simp [merged, Cell.isActive]
  | false => simp [e.inner hc split uneven, split]

theorem Linked.unevenParents_perm (h : F.Linked) :
    ((coarsenParents F.leaves).filter F.uneven).Perm ((F.cells.map Prod.fst).filter F.uneven) := by
  refine (List.perm_ext_iff_of_nodup (nodup_coarsenParents.filter _) (nodup_cells_ids.filter _)).mpr fun p => ?_
  simp only [List.mem_filter, List.mem_map, Prod.exists, exists_and_right, exists_eq_right, mem_cells]
  refine and_congr_left fun uneven => ?_
  obtain ⟨c, hc, split, coarsens⟩ := exists_of_uneven uneven
  obtain ⟨k, l, -, hl, parent, flag⟩ := h.exists_leaf_of_coarsens hc split coarsens
  exact iff_of_true (mem_coarsenParents.mpr ⟨l, mem_leaves_of_leaf? hl, flag, parent⟩) ⟨c, hc⟩

theorem Linked.merging_chosen (h : F.Linked) :
    (F.remark F.chosen).merging.Perm ((F.cells.map Prod.fst).filter F.uneven) := by
  have linked : (F.remark F.chosen).Linked := (SameLinks.of_remark _).linked h
  refine (List.perm_ext_iff_of_nodup nodup_merging (nodup_cells_ids.filter _)).mpr fun p => ?_
  rw [merging, linked.mem_coarsenParents_clean, h.merges_chosen, List.mem_filter, List.mem_map]
  refine ⟨fun uneven => ⟨?_, uneven⟩, And.right⟩
  obtain ⟨c, hc, -⟩ := exists_of_uneven uneven
  exact ⟨(p, c), mem_cells.mpr hc, rfl⟩

theorem Linked.choiceReport_hCoarsenedGroups (h : F.Linked) :
    F.choiceReport.hCoarsenedGroups = F.cells.countP fun cell => F.uneven cell.1 := by
  have groups : F.choiceReport.hCoarsenedGroups = ((coarsenParents F.leaves).filter F.uneven).length := by
    show List.countP _ _ = _
    rw [List.countP_map, ← List.countP_eq_length_filter]
    refine List.countP_congr fun p _ => ?_
    rw [Function.comp_apply, decide_eq_true_eq]
    exact resolution_eq_hCoarsening_iff
  rw [groups, h.unevenParents_perm.length_eq, ← List.countP_eq_length_filter, List.countP_map]
  rfl

/-- The choice anticipates the execution. When every element index is valid and every leaf that remains to
be refined can be, both are accepted. The split cells that become active are the parents of the uneven
groups, as many as the choice reports, and the summary counts the leaves by the markers that they had
before the choice. -/
theorem execute_chooseP (reached : Reachable F) (within : F.Within fe)
    (room : ∀ l ∈ F.leaves, l.flag = .refine → l.future = none → l.level ≠ maxLevel) :
    ∃ report summary, F.chooseP.answer = .ok report ∧ (F.chooseP.forest.execute fe).answer = .ok summary ∧
      (∀ p c, F.cell? p = some c → c.isActive = false →
        ((F.chooseP.forest.execute fe).forest.isActive p = true ↔
          (∀ k ∈ c.children, F.coarsens k = true) ∧ ¬∀ k ∈ c.children, F.schedules k = true)) ∧
      ExecutedChoice F (F.chooseP.forest.execute fe).forest ∧
      summary.coarsenedGroups = report.hCoarsenedGroups ∧
      report.hCoarsenedGroups = F.cells.countP (fun cell => F.uneven cell.1) ∧
      summary.refined = F.leaves.countP (fun l => l.flag = .refine ∧ l.future = none) ∧
      summary.droppedFlags = F.leaves.countP (fun l => F.strayCoarsen l ∧ l.future = none) ∧
      summary.pAdapted = F.leaves.countP (fun l => l.future.any (· ≠ l.element) ∧ ¬l.parent.any F.uneven) := by
  have h := reached.linked
  obtain ⟨accepted, forest⟩ := chooseP_accepts h
  rw [forest]
  have room' : ∀ m ∈ (F.remark F.chosen).leaves, m.flag = .refine → m.level < maxLevel := fun m hm flag => by
    rw [leaves_remark] at hm
    obtain ⟨l, hl, rfl⟩ := List.mem_map.mp hm
    have hl' := mem_leaves_iff.mp hl
    obtain ⟨flag, unscheduled⟩ := (h.chosen_flag_eq_refine hl').mp flag
    exact Nat.lt_of_le_of_ne (h.level_le (cell?_of_leaf? hl')) (room l hl flag unscheduled)
  obtain ⟨answer, executed⟩ := execute_accepts ((SameLinks.of_remark _).linked h) (h.within_chosen within) room'
  have choice := executed.of_chosen h
  refine ⟨_, _, accepted, answer, fun p c hc split => ?_, choice, ?_, h.choiceReport_hCoarsenedGroups, ?_, ?_, ?_⟩
  · rw [choice.isActive_iff hc split, uneven_iff hc]
  · rw [h.choiceReport_hCoarsenedGroups, h.merging_chosen.length_eq, ← List.countP_eq_length_filter, List.countP_map]
    rfl
  · rw [refining, List.length_map, ← List.countP_eq_length_filter]
    refine countP_chosen fun hl => ?_
    exact decide_eq_decide.mpr (h.chosen_flag_eq_refine hl)
  · refine countP_chosen fun {id l} hl => ?_
    rw [h.strayCoarsen_chosen hl]
    cases F.strayCoarsen l <;> cases l.future <;> rfl
  · refine countP_chosen fun {id l} hl => ?_
    have future : ({ l with markers := F.chosen l } : Leaf).future = _ := h.chosen_future hl
    rw [Leaf.switches, Leaf.target, future]
    cases l.parent.any F.uneven <;> cases l.future <;> simp

theorem twoGroups_executed : Reachable twoGroups ∧ twoGroups.Within .twoElements ∧
    (∀ l ∈ twoGroups.leaves, l.flag = .refine → l.future = none → l.level ≠ maxLevel) ∧
    ∃ summary, (twoGroups.chooseP.forest.execute .twoElements).answer = .ok summary ∧
      summary.coarsenedGroups = 1 ∧ summary.refined = 1 ∧ summary.droppedFlags = 1 ∧ summary.pAdapted = 2 ∧
      (twoGroups.chooseP.forest.execute .twoElements).forest.isActive ⟨0⟩ = true ∧
      (twoGroups.chooseP.forest.execute .twoElements).forest.isActive ⟨1⟩ = false := by
  have reached : Reachable twoGroups := .after _
  have within : twoGroups.Within .twoElements := by rw [twoGroups_eq]; decide
  have room : ∀ l ∈ twoGroups.leaves, l.flag = .refine → l.future = none → l.level ≠ maxLevel := by
    rw [twoGroups_eq]
    decide
  obtain ⟨report, summary, -, answer, merged, -, groups, all, refined, dropped, adapted⟩ :=
    execute_chooseP reached within room
  have hc : twoGroups.cell? ⟨0⟩ = some ⟨0, none, 0, .split [⟨2⟩, ⟨3⟩]⟩ := by rw [twoGroups_eq]; rfl
  have hd : twoGroups.cell? ⟨1⟩ = some ⟨0, none, 0, .split [⟨4⟩, ⟨5⟩]⟩ := by rw [twoGroups_eq]; rfl
  rw [← groups] at all
  simp only [twoGroups_eq] at all refined dropped adapted
  refine ⟨reached, within, room, summary, answer, all.trans (by decide +kernel), refined, dropped, adapted, ?_, ?_⟩
  · refine (merged _ _ hc rfl).mpr ?_
    rw [twoGroups_eq]
    decide
  · refine Bool.eq_false_iff.mpr (mt (merged _ _ hd rfl).mp ?_)
    rw [twoGroups_eq]
    decide

end Forest
end HpForest
