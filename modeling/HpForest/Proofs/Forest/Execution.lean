import HpForest.Proofs.Forest.Merging

/-! # What an execution does

An execution has three ends. It refuses an element index that the collection does not have and
changes nothing; it refuses the first leaf that can be split no further, with the work before it
done; or it is accepted, and then `Executed` describes every cell of the result by the forest before.
These ends are proved here once; statements about executions start from them. -/

namespace HpForest

def Leaf.exhausted (l : Leaf) : Bool := l.flag = .refine ∧ ¬l.level < Forest.maxLevel

theorem Leaf.mem_indices {l : Leaf} {i : Nat} : i ∈ l.indices ↔ i = l.element ∨ l.future = some i := by
  simp [indices, future]

theorem Leaf.eq_of_mem_indices {l : Leaf} {i : Nat} (unscheduled : l.future = none) (h : i ∈ l.indices) :
    i = l.element := by
  simpa [mem_indices, unscheduled] using h

theorem Leaf.target_mem_indices (l : Leaf) : l.target ∈ l.indices := by
  cases scheduled : l.future <;> simp [mem_indices, target, scheduled]

theorem Cell.switchElement_of_not_isActive {c : Cell} (h : c.isActive = false) : c.switchElement = c := by
  have unscheduled : c.target = c.element := by
    simp [target, future, markers, markers?, role_of_not_isActive h]
  rw [switchElement, mapMarkers_of_not_isActive h, unscheduled]

@[simp] theorem Cell.links_switchElement {c : Cell} : c.switchElement.links = c.links :=
  Cell.links_mapMarkers (c := c) (f := Markers.clearFuture)

namespace Forest
variable {D : Nat} {F G : Forest D} {fe : Collection} {id k p : CellId} {c : Cell} {l m : Leaf}

/-! ### Element indices -/

/-- Every element index of an active cell, in use or scheduled, belongs to the collection. -/
def Within (F : Forest D) (fe : Collection) : Prop := ∀ l ∈ F.leaves, ∀ i ∈ l.indices, i < fe.size

instance : Decidable (F.Within fe) :=
  inferInstanceAs (Decidable (∀ l ∈ F.leaves, ∀ i ∈ l.indices, i < fe.size))

theorem checkElements_eq_ok : F.checkElements fe = .ok () ↔ F.Within fe := by
  unfold checkElements
  split
  · next i hi =>
    have missing := List.find?_some hi
    obtain ⟨l, hl, hmem⟩ := List.mem_flatMap.mp (List.mem_of_find?_eq_some hi)
    simp only [reduceCtorEq, false_iff]
    intro within
    simp [Collection.contains, within l hl i hmem] at missing
  · next none =>
    simp only [true_iff]
    intro l hl i hi
    simpa [Collection.contains] using List.find?_eq_none.mp none i (List.mem_flatMap.mpr ⟨l, hl, hi⟩)

theorem checkElements_eq_error (h : ¬F.Within fe) : ∃ i, F.checkElements fe = .error (.invalidElement i fe.size) := by
  unfold checkElements
  split
  · next i _ => exact ⟨i, rfl⟩
  · next none =>
    refine absurd (checkElements_eq_ok.mp ?_) h
    rw [checkElements, none]

/-- New markers may schedule what was scheduled before and elements of the collection. -/
theorem Within.remark {f : Leaf → Markers} (within : F.Within fe)
    (futures : ∀ l ∈ F.leaves, ∀ i, (f l).future = some i → l.future = some i ∨ i < fe.size) :
    (F.remark f).Within fe := by
  intro m hm i hi
  rw [leaves_remark] at hm
  obtain ⟨l, hl, rfl⟩ := List.mem_map.mp hm
  rcases Leaf.mem_indices.mp hi with element | future
  · exact within l hl i (Leaf.mem_indices.mpr (Or.inl element))
  · rcases futures l hl i future with kept | valid
    · exact within l hl i (Leaf.mem_indices.mpr (Or.inr kept))
    · exact valid

/-! ### The phases -/

def refining (F : Forest D) : List CellId := (F.leaves.filter fun l => l.flag = .refine).map (·.id)

def merging (F : Forest D) : List CellId := coarsenParents F.clean.1.leaves

/-- The forest after the clean-up, with the scheduled elements in use. -/
def switched (F : Forest D) : Forest D := F.clean.1.mapCells fun _ => Cell.switchElement

/-- The leaf after the clean-up, with its scheduled element in use. -/
def switchedLeaf (F : Forest D) (l : Leaf) : Leaf :=
  { l with element := l.target, markers := (F.cleanMarkers l).clearFuture }

theorem nodup_refining : F.refining.Nodup :=
  nodup_leaves_ids.sublist (List.filter_sublist.map _)

theorem nodup_merging : F.merging.Nodup := nodup_coarsenParents

theorem Linked.mem_merging (h : F.Linked) : p ∈ F.merging ↔ F.Merges p := h.mem_coarsenParents_clean

theorem mem_refining : id ∈ F.refining ↔ ∃ l, F.leaf? id = some l ∧ l.flag = .refine := by
  simp only [refining, mem_ids_filter_leaves, decide_eq_true_eq]

theorem refining_clean : F.clean.1.refining = F.refining := by
  have same : ((fun l : Leaf => decide (l.flag = .refine)) ∘ fun l => { l with markers := F.cleanMarkers l }) =
      fun l : Leaf => decide (l.flag = .refine) := by
    funext l
    exact decide_eq_decide.mpr cleanMarkers_flag_eq_refine
  rw [refining, leaves_clean, List.filter_map, same, List.map_map]
  rfl

theorem target_clean : ({ l with markers := F.cleanMarkers l } : Leaf).target = l.target := by
  have future : ({ l with markers := F.cleanMarkers l } : Leaf).future = l.future := cleanMarkers_future
  rw [Leaf.target, future, Leaf.target]

theorem countP_switches_clean : F.clean.1.leaves.countP Leaf.switches = F.leaves.countP Leaf.switches := by
  rw [leaves_clean, List.countP_map]
  congr 1
  funext l
  simp only [Function.comp_apply, Leaf.switches, target_clean]

@[simp] theorem size_switched : F.switched.slots.size = F.slots.size := by
  rw [switched, size_mapCells, clean_fst, size_remark]

theorem SameLinks.switched : SameLinks F F.switched :=
  SameLinks.clean.trans (of_mapCells fun _ _ => Cell.links_switchElement)

theorem SameCells.switched : SameCells F F.switched := ⟨SameLinks.switched, size_switched⟩

theorem leaf?_switched : F.switched.leaf? id = (F.leaf? id).map F.switchedLeaf := by
  have step : F.switched.leaf? id = (F.clean.1.leaf? id).map fun l =>
      { l with element := l.target, markers := l.markers.clearFuture } := by
    cases h : F.clean.1.cell? id with
    | none => simp [Forest.switched, leaf?, cell?_mapCells, h]
    | some c =>
      cases hr : c.role <;> simp [Forest.switched, leaf?, cell?_mapCells, h, Cell.switchElement, Cell.mapMarkers,
        Cell.leaf?, Cell.markers?, Cell.target, Cell.future, Cell.markers, Leaf.target, Leaf.future, hr]
  rw [step, leaf?_clean, Option.map_map]
  congr 1
  funext l
  simp only [Function.comp_apply, switchedLeaf, target_clean]

theorem cell?_switched_of_split (hc : F.cell? id = some c) (split : c.isActive = false) :
    F.switched.cell? id = some c := by
  have leafless : c.leaf? id = none := Cell.leaf?_of_not_isActive split
  simp [switched, cell?_mapCells, clean_fst, cell?_remark, hc, leafless,
    Cell.switchElement_of_not_isActive split]

theorem cell?_switched_of_inactive (inactive : F.isActive id = false) : F.switched.cell? id = F.cell? id := by
  rcases cell?_of_inactive inactive with dead | ⟨c, hc, split⟩
  · have same := SameLinks.switched (F := F) id
    rwa [dead, Option.map_none, Option.map_eq_none_iff, ← dead] at same
  · rw [cell?_switched_of_split hc split, hc]

theorem execute_eq (within : F.Within fe) : F.execute fe =
    (Outcome.accept F.switched () (droppedFlagsLog F.clean.2)).andThen fun _ switched =>
      (switched.refineEach F.refining).andThen fun _ refined =>
      (refined.mergeEach F.merging).andThen fun _ merged =>
      let summary : ExecutionSummary :=
        ⟨F.leaves.countP Leaf.switches, F.refining.length, F.merging.length, F.clean.2⟩
      .accept merged summary [summary.message] := by
  rw [execute, checkElements_eq_ok.mpr within, ← refining_clean, ← countP_switches_clean]
  rfl

/-! ### The accepted end -/

/-- The ids that an execution gives to the children of a leaf flagged for refinement. -/
def newChildren (F : Forest D) (id : CellId) : List CellId := F.childBlock F.refining id

/-- The highest element that a child of the cell has scheduled or else in use. -/
def highestTarget (F : Forest D) (c : Cell) : Nat :=
  ((c.children.filterMap F.leaf?).map Leaf.target).max?.getD c.element

/-- `G` is `F` after all markers have been carried out. -/
structure Executed (F G : Forest D) : Prop where
  size : G.slots.size = F.slots.size + fanout D * F.refining.length
  refined : ∀ {id l}, F.leaf? id = some l → l.flag = .refine →
    G.cell? id = some ⟨l.level, l.parent, l.target, .split (F.newChildren id)⟩
  child : ∀ {id l k}, F.leaf? id = some l → l.flag = .refine → k ∈ F.newChildren id →
    G.cell? k = some ⟨l.level + 1, some id, l.target, .active {}⟩
  merged : ∀ {p c}, F.Merges p → F.cell? p = some c →
    G.cell? p = some ⟨c.level, c.parent, F.highestTarget c, .active {}⟩
  gone : ∀ {p c k}, F.Merges p → F.cell? p = some c → k ∈ c.children → G.cell? k = none
  leaf : ∀ {id l}, F.leaf? id = some l → l.flag ≠ .refine → (∀ p, l.parent = some p → ¬F.Merges p) →
    G.cell? id = some ⟨l.level, l.parent, l.target, .active {}⟩
  inner : ∀ {id c}, F.cell? id = some c → c.isActive = false → ¬F.Merges id → G.cell? id = some c
  dead : ∀ {id}, F.cell? id = none → id.slot < F.slots.size → G.cell? id = none
  /-- Every new cell is the child of a split leaf. -/
  cover : ∀ {k}, F.slots.size ≤ k.slot → k.slot < G.slots.size →
    ∃ id l, F.leaf? id = some l ∧ l.flag = .refine ∧ k ∈ F.newChildren id
  linked : G.Linked

theorem Linked.switched (h : F.Linked) : F.switched.Linked := SameLinks.switched.linked h

theorem Merges.not_isActive (h : F.Merges p) (hc : F.cell? p = some c) : c.isActive = false :=
  (h.mergeable.of_cell hc).1

theorem not_mem_refining_of_split (hc : F.cell? id = some c) (split : c.isActive = false) :
    id ∉ F.refining := fun hmem => by
  obtain ⟨l, hl, -⟩ := mem_refining.mp hmem
  rw [cell?_of_leaf? hl] at hc
  cases hc
  cases split

section Phases
variable {R : Forest D} (refined : Refined F.switched F.refining R)
include refined

/-- The splits leave the groups that are to be merged as the switch left them. -/
theorem Refined.group (hp : F.Merges p) (hc : F.cell? p = some c) : R.cell? p = some c ∧
    ∀ k ∈ c.children, ∃ l, F.leaf? k = some l ∧ R.cell? k = some (F.switchedLeaf l).cell := by
  have split := hp.not_isActive hc
  constructor
  · rw [refined.kept (by simpa using slot_lt_size hc) (not_mem_refining_of_split hc split)]
    exact cell?_switched_of_split hc split
  · intro k hk
    obtain ⟨l, hl, flagged⟩ := hp.leaf hc hk
    have staying : k ∉ F.refining := fun hmem => by
      obtain ⟨l', hl', refining⟩ := mem_refining.mp hmem
      rw [hl] at hl'
      cases hl'
      rw [flagged] at refining
      cases refining
    refine ⟨l, hl, ?_⟩
    rw [refined.kept (by simpa using slot_lt_size (cell?_of_leaf? hl)) staying]
    exact cell?_of_leaf? (by rw [leaf?_switched, hl]; rfl)

theorem Refined.mergeable (hp : F.Merges p) : R.Mergeable p := by
  obtain ⟨c, hc, split, -⟩ := id hp
  obtain ⟨same, group⟩ := refined.group hp hc
  refine ⟨c, same, split, fun k hk => ?_⟩
  obtain ⟨l, -, hk⟩ := group k hk
  exact isActive_iff.mpr ⟨_, hk, rfl⟩

theorem Refined.mergedElement (hp : F.Merges p) (hc : F.cell? p = some c) :
    R.mergedElement c = F.highestTarget c := by
  have same : (c.children.filterMap R.cell?).map (·.element) = (c.children.filterMap F.leaf?).map Leaf.target := by
    rw [List.map_filterMap, List.map_filterMap]
    refine List.filterMap_congr fun k hk => ?_
    obtain ⟨l, hl, hR⟩ := (refined.group hp hc).2 k hk
    rw [hl, hR]
    rfl
  rw [Forest.mergedElement, same, highestTarget]

theorem Refined.cell?_of_staying (h : F.Linked) (hl : F.leaf? id = some l) (unsplit : l.flag ≠ .refine)
    (apart : ∀ p, l.parent = some p → ¬F.Merges p) :
    R.cell? id = some ⟨l.level, l.parent, l.target, .active {}⟩ := by
  have staying : id ∉ F.refining := fun hmem => by
    obtain ⟨l', hl', refining⟩ := mem_refining.mp hmem
    rw [hl] at hl'
    cases hl'
    exact unsplit refining
  have unflagged : (F.cleanMarkers l).flag = .none := by
    cases flag : (F.cleanMarkers l).flag with
    | none => rfl
    | refine => exact absurd (cleanMarkers_flag_eq_refine.mp flag) unsplit
    | coarsen =>
      obtain ⟨flagged, kept⟩ := cleanMarkers_flag_eq_coarsen.mp flag
      obtain ⟨p, hp, merges⟩ := h.merges_of_not_stray hl flagged kept
      exact absurd merges (apart p hp)
  have bare : (F.cleanMarkers l).clearFuture = {} := by
    rw [Markers.clearFuture, unflagged]
  rw [refined.kept (by simpa using slot_lt_size (cell?_of_leaf? hl)) staying,
    cell?_of_leaf? (by rw [leaf?_switched, hl]; rfl : F.switched.leaf? id = some (F.switchedLeaf l)),
    Leaf.cell, switchedLeaf, bare]

end Phases

/-! ### Cells outside the merged groups -/

/-- The cell is neither the parent of a group that is to be merged nor one of its children. -/
def Unmerged (F : Forest D) (id : CellId) : Prop :=
  ¬F.Merges id ∧ ∀ {p c}, F.Merges p → F.cell? p = some c → id ∉ c.children

theorem Linked.unmerged_of_dead (h : F.Linked) (dead : F.cell? id = none) : F.Unmerged id := by
  constructor
  · rintro ⟨c, hc, -⟩
    rw [dead] at hc
    cases hc
  · intro p c hp hc hmem
    obtain ⟨d, hd, -⟩ := h.child hc hmem
    rw [dead] at hd
    cases hd

theorem Linked.unmerged_of_leaf (h : F.Linked) (hl : F.leaf? id = some l)
    (apart : ∀ p, l.parent = some p → ¬F.Merges p) : F.Unmerged id := by
  constructor
  · intro merges
    have split := merges.not_isActive (cell?_of_leaf? hl)
    cases split
  · exact fun hp hc hmem => apart _ (h.parent_of_mem hc hmem (cell?_of_leaf? hl)) hp

/-- A leaf flagged for refinement keeps its group from being merged. -/
theorem Linked.apart_of_refine (h : F.Linked) (hl : F.leaf? id = some l) (flagged : l.flag = .refine) :
    ∀ p, l.parent = some p → ¬F.Merges p := fun p hp merges => by
  rw [h.flag_of_merges hl hp merges] at flagged
  cases flagged

theorem unmerged_of_split (hc : F.cell? id = some c) (split : c.isActive = false) (staying : ¬F.Merges id) :
    F.Unmerged id := by
  refine ⟨staying, fun hp he hmem => ?_⟩
  obtain ⟨l, hl, -⟩ := hp.leaf he hmem
  rw [cell?_of_leaf? hl] at hc
  cases hc
  cases split

/-- The merges leave a cell outside all merged groups as the splits left it. -/
theorem Merged.cell?_of_unmerged {R : Forest D} (h : F.Linked) (refined : Refined F.switched F.refining R)
    (merged : Merged R F.merging G) (outside : F.Unmerged id) : G.cell? id = R.cell? id := by
  refine merged.kept (fun hmem => outside.1 (h.mem_merging.mp hmem)) fun p hp c hc => ?_
  have merges : F.Merges p := h.mem_merging.mp hp
  obtain ⟨d, hd, -⟩ := h.mem_merging.mp hp
  rw [(refined.group merges hd).1] at hc
  cases hc
  exact outside.2 merges hd

theorem executed_of_phases {R : Forest D} (h : F.Linked) (refined : Refined F.switched F.refining R)
    (merged : Merged R F.merging G) (linked : G.Linked) : Executed F G := by
  constructor
  · rw [merged.size, refined.size, size_switched]
  · intro id l hl flagged
    rw [merged.cell?_of_unmerged h refined (h.unmerged_of_leaf hl (h.apart_of_refine hl flagged))]
    rw [refined.parent (mem_refining.mpr ⟨l, hl, flagged⟩) (by rw [leaf?_switched, hl]; rfl)]
    rw [newChildren, childBlock, childBlock, size_switched]
    rfl
  · intro id l k hl flagged hk
    have young : F.slots.size ≤ k.slot := by
      have := (CellId.mem_block.mp hk).1
      omega
    rw [merged.cell?_of_unmerged h refined (h.unmerged_of_dead (cell?_eq_none_of_size_le young))]
    obtain rfl := leaf?_id hl
    refine refined.child (mem_refining.mpr ⟨l, hl, flagged⟩) (by rw [leaf?_switched, hl]; rfl) ?_
    rwa [childBlock, size_switched]
  · intro p c hp hc
    rw [merged.parent (h.mem_merging.mpr hp) (refined.group hp hc).1, mergedCell, refined.mergedElement hp hc]
  · intro p c k hp hc hk
    exact merged.child (h.mem_merging.mpr hp) (refined.group hp hc).1 hk
  · intro id l hl unsplit apart
    rw [merged.cell?_of_unmerged h refined (h.unmerged_of_leaf hl apart)]
    exact refined.cell?_of_staying h hl unsplit apart
  · intro id c hc split staying
    rw [merged.cell?_of_unmerged h refined (unmerged_of_split hc split staying),
      refined.kept (by simpa using slot_lt_size hc) (not_mem_refining_of_split hc split)]
    exact cell?_switched_of_split hc split
  · intro id hid old
    have links := SameLinks.switched (F := F) id
    have unlisted : id ∉ F.refining := fun hmem => by
      obtain ⟨l, hl, -⟩ := mem_refining.mp hmem
      rw [cell?_of_leaf? hl] at hid
      cases hid
    rw [merged.cell?_of_unmerged h refined (h.unmerged_of_dead hid), refined.kept (by simpa using old) unlisted]
    rw [hid] at links
    simpa using links
  · intro k old new
    obtain ⟨id, hmem, hk⟩ := refined.cover (by simpa using old) (by rwa [← merged.size])
    obtain ⟨l, hl, flagged⟩ := mem_refining.mp hmem
    exact ⟨id, l, hl, flagged, by rwa [childBlock, size_switched] at hk⟩
  · exact linked

/-- A leaf is split, or it stays, or it is merged into its parent. -/
theorem Executed.leaf_cases (e : Executed F G) (h : F.Linked) (hl : F.leaf? id = some l) :
    (l.flag = .refine ∧ G.cell? id = some ⟨l.level, l.parent, l.target, .split (F.newChildren id)⟩) ∨
    ((l.flag ≠ .refine ∧ ∀ p, l.parent = some p → ¬F.Merges p) ∧
      G.cell? id = some ⟨l.level, l.parent, l.target, .active {}⟩) ∨
    ((l.flag = .coarsen ∧ ∃ p, l.parent = some p ∧ F.Merges p) ∧ G.cell? id = none) := by
  by_cases merges : ∃ p, l.parent = some p ∧ F.Merges p
  · obtain ⟨p, hp, merges⟩ := merges
    obtain ⟨c, hc, listed⟩ := h.parent (cell?_of_leaf? hl) hp
    exact Or.inr (Or.inr ⟨⟨h.flag_of_merges hl hp merges, p, hp, merges⟩, e.gone merges hc listed⟩)
  · have apart : ∀ p, l.parent = some p → ¬F.Merges p := fun p hp here => merges ⟨p, hp, here⟩
    by_cases flag : l.flag = .refine
    · exact Or.inl ⟨flag, e.refined hl flag⟩
    · exact Or.inr (Or.inl ⟨⟨flag, apart⟩, e.leaf hl flag apart⟩)

/-- An execution leaves no marker. -/
theorem Executed.bare (e : Executed F G) (h : F.Linked) (hl : G.leaf? id = some l) : l.markers = {} := by
  have role : ∀ {c}, G.cell? id = some c → c.role = .active l.markers := fun hc => by
    rw [cell?_of_leaf? hl] at hc
    cases hc
    rfl
  by_cases old : id.slot < F.slots.size
  · rcases F.cell?_cases id with dead | ⟨m, hm⟩ | ⟨c, hc, split⟩
    · rw [leaf?, e.dead dead old] at hl
      cases hl
    · rcases e.leaf_cases h hm with ⟨-, hG⟩ | ⟨-, hG⟩ | ⟨-, hG⟩
      · cases role hG
      · exact (Role.active.inj (role hG)).symm
      · rw [leaf?, hG] at hl
        cases hl
    · by_cases merges : F.Merges id
      · exact (Role.active.inj (role (e.merged merges hc))).symm
      · have active := role (e.inner hc split merges)
        rw [Cell.role_of_not_isActive split] at active
        cases active
  · obtain ⟨p, m, hm, flag, listed⟩ := e.cover (Nat.le_of_not_lt old) (slot_lt_size (cell?_of_leaf? hl))
    exact (Role.active.inj (role (e.child hm flag listed))).symm

/-- A cell that can be merged has children to take the highest target from. -/
theorem Mergeable.highestTarget (mergeable : F.Mergeable p) (h : F.Linked) (hc : F.cell? p = some c) :
    (∃ k ∈ c.children, ∃ l, F.leaf? k = some l ∧ l.target = F.highestTarget c) ∧
      ∀ k ∈ c.children, ∀ l, F.leaf? k = some l → l.target ≤ F.highestTarget c := by
  have mem_targets : ∀ {t}, t ∈ (c.children.filterMap F.leaf?).map Leaf.target ↔
      ∃ k ∈ c.children, ∃ l, F.leaf? k = some l ∧ l.target = t := fun {t} => by
    simp only [List.mem_map, List.mem_filterMap]
    constructor
    · rintro ⟨l, ⟨k, hk, hl⟩, target⟩
      exact ⟨k, hk, l, hl, target⟩
    · rintro ⟨k, hk, l, hl, target⟩
      exact ⟨l, ⟨k, hk, hl⟩, target⟩
  cases highest : ((c.children.filterMap F.leaf?).map Leaf.target).max? with
  | none =>
    obtain ⟨split, active⟩ := mergeable.of_cell hc
    obtain ⟨k, hk⟩ := List.exists_mem_of_ne_nil _ (h.children_ne_nil hc split)
    obtain ⟨l, hl⟩ := Option.isSome_iff_exists.mp (isActive_eq ▸ active k hk)
    have listed := mem_targets.mpr ⟨k, hk, l, hl, rfl⟩
    rw [List.max?_eq_none_iff.mp highest] at listed
    cases listed
  | some t =>
    obtain ⟨listed, upper⟩ := List.max?_eq_some_iff.mp highest
    have same : F.highestTarget c = t := by rw [Forest.highestTarget, highest, Option.getD_some]
    rw [same]
    exact ⟨mem_targets.mp listed, fun k hk l hl => upper _ (mem_targets.mpr ⟨k, hk, l, hl, rfl⟩)⟩

/-- After an execution a leaf uses the target of a leaf before it: of itself, of a child that was merged into
it, or of the cell that was split into it. -/
theorem Executed.origin (e : Executed F G) (h : F.Linked) (hm : G.leaf? id = some m) :
    ∃ k l, F.leaf? k = some l ∧ l.target = m.element ∧ (k = id ∨ l.parent = some id ∨ m.parent = some k) := by
  have hG := cell?_of_leaf? hm
  by_cases old : id.slot < F.slots.size
  · rcases F.cell?_cases id with dead | ⟨l, hl⟩ | ⟨c, hc, split⟩
    · cases hG.symm.trans (e.dead dead old)
    · rcases e.leaf_cases h hl with ⟨-, after⟩ | ⟨-, after⟩ | ⟨-, after⟩ <;>
        have same := congrArg (Option.map Cell.role) (hG.symm.trans after)
      · cases same
      · exact ⟨id, l, hl, (congrArg Cell.element (Option.some.inj (hG.symm.trans after))).symm, Or.inl rfl⟩
      · cases same
    · by_cases merges : F.Merges id
      · obtain ⟨⟨k, hk, l, hl, target⟩, -⟩ := merges.mergeable.highestTarget h hc
        have element := congrArg Cell.element (Option.some.inj (hG.symm.trans (e.merged merges hc)))
        have parent : l.parent = some id := h.parent_of_mem hc hk (cell?_of_leaf? hl)
        exact ⟨k, l, hl, target.trans element.symm, Or.inr (Or.inl parent)⟩
      · have same := congrArg Cell.isActive (Option.some.inj (hG.symm.trans (e.inner hc split merges)))
        cases same.trans split
  · obtain ⟨p, l, hl, flag, listed⟩ := e.cover (Nat.le_of_not_lt old) (slot_lt_size hG)
    have after := Option.some.inj (hG.symm.trans (e.child hl flag listed))
    exact ⟨p, l, hl, (congrArg Cell.element after).symm, Or.inr (Or.inr (congrArg Cell.parent after))⟩

theorem room_iff :
    (∀ l ∈ F.leaves, l.flag = .refine → l.level < maxLevel) ↔ F.leaves.find? Leaf.exhausted = none := by
  simp [List.find?_eq_none, Leaf.exhausted]

/-- With room for every split the splits and the merges are accepted. -/
theorem Linked.phases_accept (h : F.Linked) (room : ∀ l ∈ F.leaves, l.flag = .refine → l.level < maxLevel) :
    ∃ R G, F.switched.refineEach F.refining = .accept R () [] ∧ R.Linked ∧
      R.mergeEach F.merging = .accept G () [] ∧ Executed F G := by
  obtain ⟨R, accepted, refined⟩ := refineEach_accepts (F := F.switched) (nodup_refining (F := F))
    fun id hid => by
      obtain ⟨l, hl, flagged⟩ := mem_refining.mp hid
      obtain rfl := leaf?_id hl
      exact ⟨F.switchedLeaf l, by rw [leaf?_switched, hl]; rfl, room l (mem_leaves_iff.mpr hl) flagged⟩
  have hR : R.Linked := by simpa [accepted, Outcome.accept] using h.switched.refineEach F.refining
  obtain ⟨G, accepted', merged, hG⟩ := mergeEach_accepts (F := R) hR (nodup_merging (F := F)) fun p hp =>
    refined.mergeable (h.mem_merging.mp hp)
  exact ⟨R, G, accepted, hR, accepted', executed_of_phases h refined merged hG⟩

/-- With valid indices and room for every split an execution is accepted. -/
theorem execute_accepts (h : F.Linked) (within : F.Within fe)
    (room : ∀ l ∈ F.leaves, l.flag = .refine → l.level < maxLevel) :
    (F.execute fe).answer =
        .ok ⟨F.leaves.countP Leaf.switches, F.refining.length, F.merging.length, F.clean.2⟩ ∧
      Executed F (F.execute fe).forest := by
  obtain ⟨R, G, refined, -, merged, executed⟩ := h.phases_accept room
  have run : (F.execute fe).forest = G := by
    rw [execute_eq within]
    simp [Outcome.andThen, Outcome.accept, refined, merged]
  constructor
  · rw [execute_eq within]
    simp [Outcome.andThen, Outcome.accept, refined, merged]
  · rwa [run]

/-! ### The refused ends -/

theorem execute_foreign (h : ¬F.Within fe) :
    ∃ i, (F.execute fe).answer = .error (.invalidElement i fe.size) ∧ (F.execute fe).forest = F := by
  obtain ⟨i, refused⟩ := checkElements_eq_error h
  exact ⟨i, by simp [execute, refused, Outcome.refuse], by simp [execute, refused, Outcome.refuse]⟩

/-- The splits end at the first leaf that can be split no further, with those before it done. -/
theorem phases_refuse (first : F.leaves.find? Leaf.exhausted = some l) :
    ∃ before after R, F.leaves = before ++ l :: after ∧ (∀ m ∈ before, m.exhausted = false) ∧
      Refined F.switched ((before.filter fun m => m.flag = .refine).map (·.id)) R ∧
      F.switched.refineEach F.refining = .refuse R (.topology (.levelExhausted l.id)) [] := by
  obtain ⟨exhausted, before, after, leaves, room⟩ := List.find?_eq_some_iff_append.mp first
  have room : ∀ m ∈ before, m.exhausted = false := fun m hm => by simpa using room m hm
  simp only [Leaf.exhausted, decide_eq_true_eq] at exhausted
  have refining : F.refining = (before.filter fun m => m.flag = .refine).map (·.id) ++
      l.id :: (after.filter fun m => m.flag = .refine).map (·.id) := by
    simp [Forest.refining, leaves, exhausted.1]
  have hl : F.leaf? l.id = some l := mem_leaves_iff.mp (by simp [leaves])
  obtain ⟨R, refused, refined⟩ := refineEach_refuses (F := F.switched) (l := F.switchedLeaf l)
    (refining ▸ nodup_refining) (fun id hid => by
      obtain ⟨m, hm, rfl⟩ := List.mem_map.mp hid
      obtain ⟨hm, flagged⟩ := List.mem_filter.mp hm
      have hm' : F.leaf? m.id = some m := mem_leaves_iff.mp (by simp [leaves, hm])
      simp only [decide_eq_true_eq] at flagged
      have below : m.level < maxLevel := by simpa [Leaf.exhausted, flagged] using room m hm
      exact ⟨F.switchedLeaf m, by rw [leaf?_switched, hm']; rfl, below⟩) (by rw [leaf?_switched, hl]; rfl) exhausted.2
  exact ⟨before, after, R, leaves, room, refined, refining ▸ refused⟩

/-- An execution ends at the first leaf that can be split no further. The clean-up, the switch and the
splits before it are done. -/
theorem execute_exhausted (h : F.Linked) (within : F.Within fe)
    (first : F.leaves.find? Leaf.exhausted = some l) :
    ∃ before after R, F.leaves = before ++ l :: after ∧ (∀ m ∈ before, m.exhausted = false) ∧
      Refined F.switched ((before.filter fun m => m.flag = .refine).map (·.id)) R ∧ R.Linked ∧
      (F.execute fe).answer = .error (.topology (.levelExhausted l.id)) ∧ (F.execute fe).forest = R := by
  obtain ⟨before, after, R, leaves, room, refined, refused⟩ := phases_refuse first
  have linked : R.Linked := by simpa [refused, Outcome.refuse] using h.switched.refineEach F.refining
  refine ⟨before, after, R, leaves, room, refined, linked, ?_, ?_⟩ <;> rw [execute_eq within] <;>
    simp [Outcome.andThen, Outcome.accept, Outcome.refuse, refused]

/-- Every execution comes to one of the three ends. -/
theorem execute_ends (h : F.Linked) (fe : Collection) :
    (¬F.Within fe ∧ (∃ i, (F.execute fe).answer = .error (.invalidElement i fe.size)) ∧ (F.execute fe).forest = F) ∨
    (F.Within fe ∧ (F.execute fe).forest.Linked ∧ ∃ l, F.leaves.find? Leaf.exhausted = some l ∧
      (F.execute fe).answer = .error (.topology (.levelExhausted l.id))) ∨
    (F.Within fe ∧ (∃ summary, (F.execute fe).answer = .ok summary) ∧ Executed F (F.execute fe).forest) := by
  by_cases within : F.Within fe
  · refine Or.inr ?_
    cases first : F.leaves.find? Leaf.exhausted with
    | some l =>
      obtain ⟨before, after, R, -, -, -, linked, answer, forest⟩ := execute_exhausted h within first
      exact Or.inl ⟨within, by rwa [forest], l, rfl, answer⟩
    | none =>
      obtain ⟨answer, executed⟩ := execute_accepts h within (room_iff.mpr first)
      exact Or.inr ⟨within, ⟨_, answer⟩, executed⟩
  · obtain ⟨i, answer, forest⟩ := execute_foreign within
    exact Or.inl ⟨within, ⟨i, answer⟩, forest⟩

/-- An execution is accepted with valid indices and room for every split, and then its answer is known. -/
theorem execute_eq_ok_iff {summary : ExecutionSummary} (h : F.Linked) : (F.execute fe).answer = .ok summary ↔
    F.Within fe ∧ (∀ l ∈ F.leaves, l.flag = .refine → l.level < maxLevel) ∧
      summary = ⟨F.leaves.countP Leaf.switches, F.refining.length, F.merging.length, F.clean.2⟩ := by
  by_cases within : F.Within fe
  · rw [room_iff]
    cases exhausted : F.leaves.find? Leaf.exhausted with
    | none =>
      obtain ⟨answer, -⟩ := execute_accepts h within (room_iff.mpr exhausted)
      rw [answer, Except.ok.injEq, eq_comm]
      exact ⟨fun same => ⟨within, rfl, same⟩, fun done => done.2.2⟩
    | some l =>
      obtain ⟨-, -, -, -, -, -, -, answer, -⟩ := execute_exhausted h within exhausted
      simp [answer]
  · obtain ⟨i, answer, -⟩ := execute_foreign within
    simp [answer, within]

theorem execute_eq_ok {summary : ExecutionSummary} (h : F.Linked) (done : (F.execute fe).answer = .ok summary) :
    F.Within fe ∧ Executed F (F.execute fe).forest := by
  rcases execute_ends h fe with ⟨-, ⟨i, refused⟩, -⟩ | ⟨-, -, l, -, refused⟩ | ⟨within, -, executed⟩
  · rw [refused] at done
    cases done
  · rw [refused] at done
    cases done
  · exact ⟨within, executed⟩

/-! ### Without flags -/

section
variable (unflagged : ∀ l ∈ F.leaves, l.flag = .none)
include unflagged

theorem clean_of_unflagged : F.clean = (F, 0) := clean_eq_self fun l hl => by simp [strayCoarsen, unflagged l hl]

theorem refining_of_unflagged : F.refining = [] := by
  refine List.eq_nil_iff_forall_not_mem.mpr fun id hid => ?_
  obtain ⟨l, hl, flag⟩ := mem_refining.mp hid
  cases flag.symm.trans (unflagged l (mem_leaves_of_leaf? hl))

theorem merging_of_unflagged (h : F.Linked) : F.merging = [] := by
  refine List.eq_nil_iff_forall_not_mem.mpr fun p hp => ?_
  obtain ⟨c, hc, split, all⟩ := h.mem_merging.mp hp
  obtain ⟨k, l, -, hl, -, flag⟩ := h.exists_leaf_of_coarsens hc split all
  cases flag.symm.trans (unflagged l (mem_leaves_of_leaf? hl))

theorem leaves_switched_of_unflagged :
    F.switched.leaves = F.leaves.map fun l => { l with element := l.target, markers := {} } := by
  rw [leaves_eq_map (Nat.le_of_eq size_switched.symm) fun _ => leaf?_switched]
  refine List.map_congr_left fun l hl => ?_
  have kept : F.cleanMarkers l = l.markers := by simp [cleanMarkers, strayCoarsen, unflagged l hl]
  have bare : l.markers.clearFuture = {} := by rw [Markers.clearFuture, show l.markers.flag = .none from unflagged l hl]
  rw [switchedLeaf, kept, bare]

/-- Without a flag an execution switches elements and does nothing else. -/
theorem execute_of_unflagged (h : F.Linked) (within : F.Within fe) :
    let summary : ExecutionSummary := ⟨F.leaves.countP Leaf.switches, 0, 0, 0⟩
    F.execute fe = .accept F.switched summary [summary.message] := by
  rw [execute_eq within, refining_of_unflagged unflagged, merging_of_unflagged unflagged h,
    clean_of_unflagged unflagged]
  rfl

end

end Forest
end HpForest
