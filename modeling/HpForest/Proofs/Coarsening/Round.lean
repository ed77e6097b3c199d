import HpForest.Proofs.Coarsening.Groups

/-! # A round of coarsening

A round flags the cells of all sibling groups for coarsening and executes. On a forest without markers it
is accepted and merges these groups, every one of them, and nothing else (`Coarsened`). -/

namespace HpForest
namespace Forest
variable {D : Nat} {F G H : Forest D} {fe : Collection} {id k p : CellId} {ids ks : List CellId} {c d : Cell} {l : Leaf}

/-- The cells of all sibling groups. -/
def grouped (F : Forest D) : List CellId := F.siblingGroups.flatMap Prod.snd

def flagGroups (F : Forest D) : Except AdaptError (Forest D) := F.flagAll .coarsen F.grouped

/-- Flags the cells of all sibling groups for coarsening, and executes. -/
def coarsenRound (F : Forest D) (fe : Collection) : Outcome D ExecutionSummary :=
  match F.flagGroups with
  | .ok G => G.execute fe
  | .error e => .refuse F e []

/-! ### Sibling groups -/

theorem mem_siblingGroups : (p, ks) ∈ F.siblingGroups ↔
    ∃ c, F.cell? p = some c ∧ c.isActive = false ∧ (∀ k ∈ c.children, F.isActive k = true) ∧ c.children = ks := by
  simp [siblingGroups, List.mem_filterMap, mem_cells, and_assoc]

theorem mergeable_iff : F.Mergeable p ↔ p ∈ F.siblingGroups.map Prod.fst := by
  simp only [List.mem_map, Prod.exists, exists_and_right, exists_eq_right, mem_siblingGroups]
  constructor
  · rintro ⟨c, hc, split, active⟩
    exact ⟨c.children, c, hc, split, active, rfl⟩
  · rintro ⟨ks, c, hc, split, active, -⟩
    exact ⟨c, hc, split, active⟩

theorem nodup_siblingGroups : (F.siblingGroups.map Prod.fst).Nodup := by
  have parents : F.siblingGroups.map Prod.fst =
      (F.cells.filter fun x => ¬x.2.isActive ∧ x.2.children.all F.isActive).map Prod.fst := by
    rw [siblingGroups, List.map_filterMap, ← List.filterMap_eq_map, ← List.filterMap_eq_filter,
      List.filterMap_filterMap]
    refine List.filterMap_congr fun _ _ => ?_
    show Option.map _ (ite _ _ _) = Option.bind (ite _ _ _) _
    simp only [decide_eq_true_eq]
    split <;> rfl
  rw [parents]
  exact nodup_cells_ids.sublist (List.filter_sublist.map _)

theorem grouped_eq : F.grouped = (F.siblingGroups.map Prod.fst).flatMap F.childrenOf := by
  rw [grouped, List.flatMap_map]
  refine List.flatMap_congr fun (p, ks) listed => ?_
  obtain ⟨c, hc, -, -, rfl⟩ := mem_siblingGroups.mp listed
  simp [childrenOf, hc]

/-! ### The round -/

/-- `H` is `F` after all sibling groups have been merged. -/
structure Coarsened (F H : Forest D) : Prop where
  size : H.slots.size = F.slots.size
  merged : ∀ {p c}, F.Mergeable p → F.cell? p = some c →
    H.cell? p = some ⟨c.level, c.parent, F.highestTarget c, .active {}⟩
  gone : ∀ {p c k}, F.Mergeable p → F.cell? p = some c → k ∈ c.children → H.cell? k = none
  kept : ∀ {id c}, F.cell? id = some c → ¬F.Mergeable id → (∀ p, c.parent = some p → ¬F.Mergeable p) →
    H.cell? id = some c
  dead : ∀ {id}, F.cell? id = none → H.cell? id = none
  linked : H.Linked

theorem AtRest.coarsened (h : F.AtRest fe) (merged : Merged F (F.siblingGroups.map Prod.fst) H) (linked : H.Linked) :
    Coarsened F H where
  size := merged.size
  merged mergeable hc := by
    rw [merged.parent (mergeable_iff.mp mergeable) hc, mergedCell, ← h.highestTarget_eq mergeable hc]
  gone mergeable hc hk := merged.child (mergeable_iff.mp mergeable) hc hk
  kept {id c} hc staying apart := by
    rw [← hc]
    refine merged.kept (staying ∘ mergeable_iff.mpr) fun p hp q hq listed => ?_
    exact apart p (h.linked.parent_of_mem hq listed hc) (mergeable_iff.mpr hp)
  dead {id} dead := by
    rw [← dead]
    refine merged.kept (fun hp => ?_) fun p hp q hq listed => ?_
    · obtain ⟨c, hc, -⟩ := mergeable_iff.mpr hp
      cases dead.symm.trans hc
    · obtain ⟨c, hc, -⟩ := h.linked.child hq listed
      cases dead.symm.trans hc
  linked := linked

/-- A round is accepted, changes nothing but merging every sibling group, and leaves the forest at rest. -/
theorem AtRest.round (h : F.AtRest fe) : (F.coarsenRound fe).answer = .ok ⟨0, 0, F.siblingGroups.length, 0⟩ ∧
    Coarsened F (F.coarsenRound fe).forest ∧ (F.coarsenRound fe).forest.AtRest fe := by
  obtain ⟨flags, answer, merged, rest⟩ := h.merges_groups (fun _ => mergeable_iff.mpr) nodup_siblingGroups
  rw [← grouped_eq] at flags
  have run : F.coarsenRound fe = (F.flaggedGroups (F.siblingGroups.map Prod.fst)).execute fe := by
    rw [coarsenRound, show F.flagGroups = _ from flags]
  rw [List.length_map] at answer
  rw [run]
  exact ⟨answer, h.coarsened merged rest.linked, rest⟩

end Forest
end HpForest
