import HpForest.Proofs.Forest.Growth
import Mathlib.Data.List.Basic

/-! # Merging

A sibling group is merged when all its cells are active and flagged for coarsening (`Merges`). The
clean-up leaves coarsen flags on exactly these groups, so that a run of merges over the parents that
remain flagged is accepted, keeps the forest linked, and touches each group apart from the others. -/

namespace HpForest

namespace CellId

theorem nodup_eraseDups : ∀ ids : List CellId, ids.eraseDups.Nodup
  | [] => List.nodup_nil
  | id :: rest => by
    have fresh : id ∉ (rest.filter fun k => !k == id).eraseDups := fun again => by
      simpa using (List.mem_filter.mp (List.mem_eraseDups.mp again)).2
    rw [List.eraseDups_cons]
    exact List.nodup_cons.mpr ⟨fresh, nodup_eraseDups _⟩
termination_by ids => ids.length
decreasing_by exact Nat.lt_succ_of_le (List.length_filter_le _ rest)

theorem nodup_sortDistinct (ids : List CellId) : (sortDistinct ids).Nodup :=
  (List.mergeSort_perm _ _).nodup_iff.mpr (nodup_eraseDups ids)

end CellId

namespace Forest
variable {D : Nat} {F G : Forest D} {id j k p : CellId} {c d : Cell} {l : Leaf} {ks ps : List CellId}

/-! ### Merging one group -/

def mergedElement (F : Forest D) (c : Cell) : Nat :=
  ((c.children.filterMap F.cell?).map (·.element)).max?.getD c.element

def mergedCell (F : Forest D) (c : Cell) : Cell :=
  { c with element := F.mergedElement c, role := .active {} }

def merge (F : Forest D) (p : CellId) (c : Cell) : Forest D :=
  (F.vacate c.children).modify p fun d => { d with element := F.mergedElement c, role := .active {} }

@[simp] theorem size_merge : (F.merge p c).slots.size = F.slots.size := by
  simp [merge]

theorem cell_eq_ok : F.cell id = .ok c ↔ F.cell? id = some c := by
  cases hc : F.cell? id <;> simp [cell, hc]

theorem mapM_cell (live : ∀ k ∈ ks, ∃ d, F.cell? k = some d) :
    ks.mapM F.cell = .ok (ks.filterMap F.cell?) := by
  induction ks with
  | nil => rfl
  | cons k rest ih =>
    obtain ⟨d, hd⟩ := live k (by simp)
    have tail := ih fun k hk => live k (by simp [hk])
    rw [List.mapM_cons, cell_eq_ok.mpr hd, tail, List.filterMap_cons, hd]
    rfl

theorem mergeChildren_eq_ok (h : F.Linked) (hc : F.cell? p = some c) :
    F.mergeChildren p = .ok (F.merge p c) := by
  have live := h.children_live hc
  rw [mergeChildren, cell_eq_ok.mpr hc]
  show (c.children.mapM F.cell >>= _) = _
  rw [mapM_cell live]
  rfl

theorem cell?_merge_self (h : F.Linked) (hc : F.cell? p = some c) :
    (F.merge p c).cell? p = some (F.mergedCell c) := by
  have outside : p ∉ c.children := fun hp => h.ne_of_mem hc hp rfl
  rw [merge, cell?_modify, if_pos rfl, cell?_vacate, if_neg outside, hc]
  rfl

theorem cell?_merge_child (h : F.Linked) (hc : F.cell? p = some c) (hk : k ∈ c.children) :
    (F.merge p c).cell? k = none := by
  rw [merge, cell?_modify, if_neg (h.ne_of_mem hc hk).symm, cell?_vacate, if_pos hk]

theorem cell?_merge_of_ne (ne : j ≠ p) (outside : j ∉ c.children) :
    (F.merge p c).cell? j = F.cell? j := by
  rw [merge, cell?_modify, if_neg ne.symm, cell?_vacate, if_neg outside]

theorem cell?_merge_cases (h : F.Linked) (hc : F.cell? p = some c) (hd : (F.merge p c).cell? j = some d) :
    (j = p ∧ d = F.mergedCell c) ∨ (j ≠ p ∧ j ∉ c.children ∧ F.cell? j = some d) := by
  by_cases self : j = p
  · subst self
    rw [cell?_merge_self h hc] at hd
    exact Or.inl ⟨rfl, (Option.some.inj hd).symm⟩
  · by_cases child : j ∈ c.children
    · rw [cell?_merge_child h hc child] at hd
      cases hd
    · rw [cell?_merge_of_ne self child] at hd
      exact Or.inr ⟨self, child, hd⟩

def Mergeable (F : Forest D) (p : CellId) : Prop :=
  ∃ c, F.cell? p = some c ∧ c.isActive = false ∧ ∀ k ∈ c.children, F.isActive k = true

theorem Mergeable.of_cell (h : F.Mergeable p) (hc : F.cell? p = some c) :
    c.isActive = false ∧ ∀ k ∈ c.children, F.isActive k = true := by
  obtain ⟨c', hc', split, active⟩ := h
  rw [hc] at hc'
  cases hc'
  exact ⟨split, active⟩

/-- A split cell is not in a group that can be merged. -/
theorem Mergeable.not_mem (h : F.Mergeable p) (hc : F.cell? p = some c) (hd : F.cell? k = some d)
    (split : d.isActive = false) : k ∉ c.children := fun hk => by
  obtain ⟨e, he, leaf⟩ := isActive_iff.mp ((h.of_cell hc).2 k hk)
  rw [hd] at he
  cases he
  rw [split] at leaf
  cases leaf

theorem Linked.merge (h : F.Linked) (hc : F.cell? p = some c)
    (active : ∀ k ∈ c.children, F.isActive k = true) : (F.merge p c).Linked := by
  -- The children are leaves, so no remaining cell has its parent among them.
  have up : ∀ {j q e}, j ∉ c.children → F.cell? q = some e → j ∈ e.children →
      ∃ e', (F.merge p c).cell? q = some e' ∧ j ∈ e'.children := fun {j q e} kept he hj => by
    have ne : q ≠ p := by
      rintro rfl
      rw [hc] at he
      cases he
      exact kept hj
    have outside : q ∉ c.children := fun hq => by
      obtain ⟨e', he', leaf⟩ := isActive_iff.mp (active q hq)
      rw [he] at he'
      cases he'
      rw [Linked.not_isActive_of_mem hj] at leaf
      cases leaf
    exact ⟨e, (cell?_merge_of_ne ne outside).trans he, hj⟩
  have top : p ∉ c.children := fun hp => h.ne_of_mem hc hp rfl
  constructor
  · intro j d hd root
    rcases cell?_merge_cases h hc hd with ⟨rfl, rfl⟩ | ⟨-, -, hd⟩
    · exact h.root (c := c) hc root
    · exact h.root hd root
  · intro j d q hd hq
    rcases cell?_merge_cases h hc hd with ⟨rfl, rfl⟩ | ⟨-, kept, hd⟩
    · obtain ⟨e, he, listed⟩ := h.parent hc hq
      exact up top he listed
    · obtain ⟨e, he, listed⟩ := h.parent hd hq
      exact up kept he listed
  · intro j d k hd hk
    rcases cell?_merge_cases h hc hd with ⟨rfl, rfl⟩ | ⟨ne, -, hd⟩
    · cases hk
    · obtain ⟨e, he, parent, below, younger⟩ := h.child hd hk
      by_cases self : k = p
      · subst self
        rw [hc] at he
        cases he
        exact ⟨_, cell?_merge_self h hc, parent, below, younger⟩
      · have outside : k ∉ c.children := fun child => ne (h.eq_of_mem hd hc hk child)
        exact ⟨e, (cell?_merge_of_ne self outside).trans he, parent, below, younger⟩
  · intro j d hd
    rcases cell?_merge_cases h hc hd with ⟨rfl, rfl⟩ | ⟨-, -, hd⟩
    · exact List.nodup_nil
    · exact h.distinct hd
  · intro j d hd split
    rcases cell?_merge_cases h hc hd with ⟨rfl, rfl⟩ | ⟨-, -, hd⟩
    · cases split
    · exact h.count hd split
  · intro j d hd
    rcases cell?_merge_cases h hc hd with ⟨rfl, rfl⟩ | ⟨-, -, hd⟩
    · exact h.level_le (c := c) hc
    · exact h.level_le hd

/-! ### Runs of merges -/

/-- `G` is `F` after the groups of the given parents have been merged. -/
structure Merged (F : Forest D) (ps : List CellId) (G : Forest D) : Prop where
  size : G.slots.size = F.slots.size
  parent : ∀ {p c}, p ∈ ps → F.cell? p = some c → G.cell? p = some (F.mergedCell c)
  child : ∀ {p c k}, p ∈ ps → F.cell? p = some c → k ∈ c.children → G.cell? k = none
  kept : ∀ {j}, j ∉ ps → (∀ p ∈ ps, ∀ c, F.cell? p = some c → j ∉ c.children) → G.cell? j = F.cell? j

namespace Merged

theorem nil : Merged F [] F where
  size := rfl
  parent hp := by cases hp
  child hp := by cases hp
  kept _ _ := rfl

variable (h : F.Linked) (ready : ∀ p ∈ ps, F.Mergeable p)
include h ready

theorem group_kept (merged : Merged F ps G) (hp : F.Mergeable p) (fresh : p ∉ ps)
    (hc : F.cell? p = some c) :
    G.cell? p = F.cell? p ∧ ∀ k ∈ c.children, G.cell? k = F.cell? k := by
  constructor
  · exact merged.kept fresh fun q hq e he => (ready q hq).not_mem he hc (hp.of_cell hc).1
  · intro k hk
    refine merged.kept (fun listed => ?_) fun q hq e he also => fresh (h.eq_of_mem hc he hk also ▸ hq)
    obtain ⟨d, hd, split, -⟩ := ready k listed
    exact hp.not_mem hc hd split hk

theorem concat (merged : Merged F ps G) (hp : F.Mergeable p) (fresh : p ∉ ps) (hG : G.Linked)
    (hc : F.cell? p = some c) : Merged F (ps ++ [p]) (G.merge p c) := by
  obtain ⟨same, group⟩ := merged.group_kept h ready hp fresh hc
  have hGc := same.trans hc
  have element : G.mergedElement c = F.mergedElement c := by
    rw [mergedElement, mergedElement, List.filterMap_congr group]
  constructor
  · rw [size_merge, merged.size]
  · intro q e hq he
    rcases List.mem_append.mp hq with hq | hq
    · have ne : q ≠ p := fun same => fresh (same ▸ hq)
      have outside : q ∉ c.children := hp.not_mem hc he ((ready q hq).of_cell he).1
      rw [cell?_merge_of_ne ne outside, merged.parent hq he]
    · obtain rfl := List.mem_singleton.mp hq
      rw [hc] at he
      cases he
      rw [cell?_merge_self hG hGc, mergedCell, mergedCell, element]
  · intro q e k hq he hk
    rcases List.mem_append.mp hq with hq | hq
    · have gone := merged.child hq he hk
      by_cases child : k ∈ c.children
      · exact cell?_merge_child hG hGc child
      · have ne : k ≠ p := fun same => by
          rw [same, hGc] at gone
          cases gone
        rw [cell?_merge_of_ne ne child, gone]
    · obtain rfl := List.mem_singleton.mp hq
      rw [hc] at he
      cases he
      exact cell?_merge_child hG hGc hk
  · intro j hj outside
    simp only [List.mem_append, List.mem_singleton, not_or] at hj
    rw [cell?_merge_of_ne hj.2 (outside p (by simp) c hc)]
    exact merged.kept hj.1 fun q hq => outside q (by simp [hq])

end Merged

/-- Mergeable groups are all merged, one after the other, and the forest stays linked. -/
theorem mergeEach_accepts (h : F.Linked) (distinct : ps.Nodup) (ready : ∀ p ∈ ps, F.Mergeable p) :
    ∃ G, F.mergeEach ps = .accept G () [] ∧ Merged F ps G ∧ G.Linked := by
  have run := stepEach_accepts mergeChildren ps (F := F)
    (I := fun rest G => ∃ done, ps = done ++ rest ∧ Merged F done G ∧ G.Linked) ?_ ⟨[], rfl, .nil, h⟩
  · obtain ⟨G, accepted, done, same, merged, hG⟩ := run
    rw [List.append_nil] at same
    exact ⟨G, accepted, same ▸ merged, hG⟩
  · rintro p rest G ⟨done, same, merged, hG⟩
    have before : ∀ q ∈ done, F.Mergeable q := fun q hq => ready q (by simp [same, hq])
    have hp : F.Mergeable p := ready p (by simp [same])
    have fresh : p ∉ done := fun hdone => by
      rw [same, List.nodup_append] at distinct
      exact distinct.2.2 p hdone p (by simp) rfl
    obtain ⟨c, hc, -, active⟩ := id hp
    obtain ⟨sameCell, group⟩ := merged.group_kept h before hp fresh hc
    have hGc := sameCell.trans hc
    have activeG : ∀ k ∈ c.children, G.isActive k = true := fun k hk => by
      have leaf := active k hk
      rwa [isActive_iff, ← group k hk, ← isActive_iff] at leaf
    exact ⟨G.merge p c, mergeChildren_eq_ok hG hGc, done ++ [p], by simp [same],
      merged.concat h before hp fresh hG hc, hG.merge hGc activeG⟩

/-! ### The clean-up -/

/-- The cell is split and all its children are active and flagged for coarsening. -/
def Merges (F : Forest D) (p : CellId) : Prop :=
  ∃ c, F.cell? p = some c ∧ c.isActive = false ∧ ∀ k ∈ c.children, F.coarsens k = true

theorem groupCoarsens_iff : F.groupCoarsens p = true ↔
    ∃ c, F.cell? p = some c ∧ ∀ k ∈ c.children, F.coarsens k = true := by
  cases h : F.cell? p <;> simp [groupCoarsens, h]

theorem isActive_of_coarsens (h : F.coarsens id = true) : F.isActive id = true := by
  obtain ⟨l, hl, -⟩ := coarsens_iff.mp h
  simp [isActive_eq, hl]

theorem Merges.mergeable (h : F.Merges p) : F.Mergeable p := by
  obtain ⟨c, hc, split, flagged⟩ := h
  exact ⟨c, hc, split, fun k hk => isActive_of_coarsens (flagged k hk)⟩

theorem strayCoarsen_iff : F.strayCoarsen l = true ↔
    l.flag = .coarsen ∧ ∀ p, l.parent = some p → F.groupCoarsens p = false := by
  cases hp : l.parent <;> simp [strayCoarsen, hp]

theorem not_stray_of_groupCoarsens (hp : l.parent = some p) (group : F.groupCoarsens p = true) :
    F.strayCoarsen l = false := by
  simp [strayCoarsen, hp, group]

/-- No leaf of a group that is merged is stray. -/
theorem Merges.not_stray (h : F.Merges p) (hp : l.parent = some p) : F.strayCoarsen l = false := by
  obtain ⟨c, hc, -, all⟩ := h
  exact not_stray_of_groupCoarsens hp (groupCoarsens_iff.mpr ⟨c, hc, all⟩)

/-- The group of a leaf is judged by the cell that is its parent, which is split. -/
theorem Linked.groupCoarsens_iff_merges (h : F.Linked) (hl : F.leaf? id = some l) (hp : l.parent = some p) :
    F.groupCoarsens p = true ↔ F.Merges p := by
  rw [groupCoarsens_iff]
  obtain ⟨c, hc, listed⟩ := h.parent (cell?_of_leaf? hl) hp
  simp [Merges, hc, Linked.not_isActive_of_mem listed]

/-- A split cell has a child, so a group that is flagged as a whole has a flagged leaf. -/
theorem Linked.exists_leaf_of_coarsens (h : F.Linked) (hc : F.cell? p = some c) (split : c.isActive = false)
    (all : ∀ k ∈ c.children, F.coarsens k = true) :
    ∃ k l, k ∈ c.children ∧ F.leaf? k = some l ∧ l.parent = some p ∧ l.flag = .coarsen := by
  obtain ⟨k, hk⟩ := List.exists_mem_of_ne_nil _ (h.children_ne_nil hc split)
  obtain ⟨l, hl, flag⟩ := coarsens_iff.mp (all k hk)
  exact ⟨k, l, hk, hl, h.parent_of_mem hc hk (cell?_of_leaf? hl), flag⟩

theorem Merges.leaf (h : F.Merges p) (hc : F.cell? p = some c) (hk : k ∈ c.children) :
    ∃ l, F.leaf? k = some l ∧ l.flag = .coarsen := by
  obtain ⟨c', hc', -, all⟩ := h
  rw [hc] at hc'
  cases hc'
  exact coarsens_iff.mp (all k hk)

theorem Linked.flag_of_merges (h : F.Linked) (hl : F.leaf? id = some l) (hp : l.parent = some p)
    (merges : F.Merges p) : l.flag = .coarsen := by
  obtain ⟨c, hc, -, all⟩ := merges
  exact (coarsens_of_leaf? hl).mp (all id ((h.mem_children_iff hc (cell?_of_leaf? hl)).mpr hp))

theorem Linked.merges_of_not_stray (h : F.Linked) (hl : F.leaf? id = some l) (flagged : l.flag = .coarsen)
    (kept : F.strayCoarsen l = false) : ∃ p, l.parent = some p ∧ F.Merges p := by
  cases hp : l.parent with
  | none => simp [strayCoarsen, flagged, hp] at kept
  | some p =>
    have group : F.groupCoarsens p = true := by simpa [strayCoarsen, flagged, hp] using kept
    obtain ⟨c, hc, all⟩ := groupCoarsens_iff.mp group
    have listed := (h.mem_children_iff hc (cell?_of_leaf? hl)).mpr hp
    exact ⟨p, rfl, c, hc, Linked.not_isActive_of_mem listed, all⟩

def cleanMarkers (F : Forest D) (l : Leaf) : Markers :=
  if F.strayCoarsen l then l.markers.clearFlag else l.markers

theorem clean_fst : F.clean.1 = F.remark F.cleanMarkers := rfl

/-- A clean-up that finds no stray flag changes nothing. -/
theorem clean_eq_self (kept : ∀ l ∈ F.leaves, F.strayCoarsen l = false) : F.clean = (F, 0) := by
  have same : ∀ l ∈ F.leaves, F.cleanMarkers l = l.markers := fun l hl => by
    rw [cleanMarkers, kept l hl, if_neg Bool.false_ne_true]
  have none : F.leaves.countP F.strayCoarsen = 0 := List.countP_eq_zero.mpr fun l hl => by simp [kept l hl]
  exact Prod.ext ((remark_congr same).trans F.remark_markers) none

theorem cleanMarkers_future : (F.cleanMarkers l).future = l.future := by
  unfold cleanMarkers
  split <;> rfl

theorem cleanMarkers_flag_eq_refine : (F.cleanMarkers l).flag = .refine ↔ l.flag = .refine := by
  unfold cleanMarkers
  split
  · next stray => simp [Markers.clearFlag, (strayCoarsen_iff.mp stray).1]
  · rfl

theorem cleanMarkers_flag_eq_coarsen :
    (F.cleanMarkers l).flag = .coarsen ↔ l.flag = .coarsen ∧ F.strayCoarsen l = false := by
  unfold cleanMarkers
  split
  · next stray => simp [Markers.clearFlag, stray]
  · next kept => simp [Leaf.flag, kept]

/-- After the clean-up a leaf is flagged for coarsening if its group is to be merged. -/
theorem Linked.cleanMarkers_coarsens_iff (h : F.Linked) (hl : F.leaf? id = some l) (hp : l.parent = some p) :
    (F.cleanMarkers l).flag = .coarsen ↔ F.Merges p := by
  rw [cleanMarkers_flag_eq_coarsen]
  constructor
  · rintro ⟨flagged, kept⟩
    obtain ⟨q, hq, merges⟩ := h.merges_of_not_stray hl flagged kept
    exact Option.some.inj (hp.symm.trans hq) ▸ merges
  · exact fun merges => ⟨h.flag_of_merges hl hp merges, merges.not_stray hp⟩

theorem leaf?_clean : F.clean.1.leaf? id = (F.leaf? id).map fun l => { l with markers := F.cleanMarkers l } :=
  leaf?_remark _

theorem leaves_clean : F.clean.1.leaves = F.leaves.map fun l => { l with markers := F.cleanMarkers l } :=
  leaves_remark _

/-- After the clean-up a cell is flagged for coarsening if its whole group was. -/
theorem Linked.coarsens_clean_iff (h : F.Linked) (hc : F.cell? p = some c) (hk : k ∈ c.children) :
    F.clean.1.coarsens k = true ↔ F.Merges p := by
  rw [clean_fst, coarsens_remark_iff]
  constructor
  · rintro ⟨l, hl, flag⟩
    exact (h.cleanMarkers_coarsens_iff hl (h.parent_of_mem hc hk (cell?_of_leaf? hl))).mp flag
  · intro merges
    obtain ⟨l, hl, -⟩ := merges.leaf hc hk
    exact ⟨l, hl, (h.cleanMarkers_coarsens_iff hl (h.parent_of_mem hc hk (cell?_of_leaf? hl))).mpr merges⟩

theorem Linked.groupCoarsens_clean (h : F.Linked) (hl : F.leaf? id = some l) (hp : l.parent = some p) :
    F.clean.1.groupCoarsens p = F.groupCoarsens p := by
  obtain ⟨c, hc, listed⟩ := h.parent (cell?_of_leaf? hl) hp
  have hc' : F.clean.1.cell? p = some c := cell?_remark_of_split hc (Linked.not_isActive_of_mem listed) _
  rw [Bool.eq_iff_iff, h.groupCoarsens_iff_merges hl hp, groupCoarsens_iff]
  simp only [hc', Option.some.injEq, exists_eq_left']
  constructor
  · exact fun all => (h.coarsens_clean_iff hc listed).mp (all id listed)
  · exact fun merges k hk => (h.coarsens_clean_iff hc hk).mpr merges

theorem mem_coarsenParents {ls : List Leaf} :
    p ∈ coarsenParents ls ↔ ∃ l ∈ ls, l.flag = .coarsen ∧ l.parent = some p := by
  simp [coarsenParents, CellId.mem_sortDistinct, List.mem_filterMap]

theorem nodup_coarsenParents {ls : List Leaf} : (coarsenParents ls).Nodup := CellId.nodup_sortDistinct _

/-- After the clean-up the parents of flagged leaves are those whose groups are to be merged. -/
theorem Linked.mem_coarsenParents_clean (h : F.Linked) :
    p ∈ coarsenParents F.clean.1.leaves ↔ F.Merges p := by
  rw [mem_coarsenParents, leaves_clean]
  constructor
  · rintro ⟨_, hmem, flagged, parent⟩
    obtain ⟨l, hl, rfl⟩ := List.mem_map.mp hmem
    exact (h.cleanMarkers_coarsens_iff (mem_leaves_iff.mp hl) parent).mp flagged
  · intro merges
    obtain ⟨c, hc, split, all⟩ := id merges
    obtain ⟨k, l, -, hl, parent, -⟩ := h.exists_leaf_of_coarsens hc split all
    exact ⟨_, List.mem_map.mpr ⟨l, mem_leaves_of_leaf? hl, rfl⟩, (h.cleanMarkers_coarsens_iff hl parent).mpr merges,
      parent⟩

theorem SameLinks.clean : SameLinks F F.clean.1 := of_remark _

end Forest
end HpForest
