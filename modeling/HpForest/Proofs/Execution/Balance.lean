import HpForest.Proofs.Choice.Order
import HpForest.Proofs.History.Tiling
import Mathlib.Tactic.Linarith

/-! # What an execution counts

The summary of an execution accounts for all markers of the forest before. A coarsen flag is dropped, or its leaf is
the child of exactly one merged parent (`Linked.coarsening_perm`). The split cells after the execution are those before
it and the refined leaves, without the merged parents (`Executed.inner_perm`). With the links this gives the number
of cells and of leaves. -/

namespace HpForest
namespace Forest
variable {D : Nat} {F G : Forest D} {fe : Collection} {id p : CellId}

/-! ### Split cells -/

theorem Linked.split_of_merging (h : F.Linked) (hp : p ∈ F.merging) : ∃ c, F.cell? p = some c ∧ c.isActive = false := by
  obtain ⟨c, hc, split, -⟩ := h.mem_merging.mp hp
  exact ⟨c, hc, split⟩

namespace Executed
variable (e : Executed F G) (h : F.Linked)
include e h

/-- A cell is split after an execution when it was refined, or was split before and is not merged. -/
theorem split_iff : (∃ c, G.cell? id = some c ∧ c.isActive = false) ↔
    id ∈ F.refining ∨ (∃ c, F.cell? id = some c ∧ c.isActive = false) ∧ ¬F.Merges id := by
  constructor
  · rintro ⟨d, hd, split⟩
    -- An old cell was dead, a leaf or split; a new one is the active child of a refined leaf.
    by_cases old : id.slot < F.slots.size
    · rcases F.cell?_cases id with dead | ⟨l, hl⟩ | ⟨c, hc, inner⟩
      · cases (e.dead dead old).symm.trans hd
      · rcases e.leaf_cases h hl with ⟨flag, -⟩ | ⟨-, after⟩ | ⟨-, after⟩
        · exact Or.inl (mem_refining.mpr ⟨l, hl, flag⟩)
        · cases Option.some.inj (after.symm.trans hd)
          cases split
        · cases after.symm.trans hd
      · refine Or.inr ⟨⟨c, hc, inner⟩, fun merges => ?_⟩
        cases Option.some.inj ((e.merged merges hc).symm.trans hd)
        cases split
    · obtain ⟨p, l, hl, flag, listed⟩ := e.cover (Nat.le_of_not_lt old) (slot_lt_size hd)
      cases Option.some.inj ((e.child hl flag listed).symm.trans hd)
      cases split
  · rintro (refined | ⟨⟨c, hc, split⟩, kept⟩)
    · obtain ⟨l, hl, flag⟩ := mem_refining.mp refined
      exact ⟨_, e.refined hl flag, rfl⟩
    · exact ⟨c, e.inner hc split kept, split⟩

/-- Refined leaves become split cells, and merged parents were split cells. -/
theorem inner_perm : (G.inner.map Prod.fst ++ F.merging).Perm (F.inner.map Prod.fst ++ F.refining) := by
  -- Neither side repeats a cell: a refined cell was a leaf before, and a merged parent is one afterwards.
  have apart : ∀ a ∈ F.inner.map Prod.fst, ∀ b ∈ F.refining, a ≠ b := by
    rintro a ha b hb rfl
    obtain ⟨c, hc, split⟩ := mem_inner_ids.mp ha
    exact not_mem_refining_of_split hc split hb
  have apart' : ∀ a ∈ G.inner.map Prod.fst, ∀ b ∈ F.merging, a ≠ b := by
    rintro a ha b hb rfl
    rcases (e.split_iff h).mp (mem_inner_ids.mp ha) with refined | ⟨-, kept⟩
    · obtain ⟨c, hc, split⟩ := h.split_of_merging hb
      exact not_mem_refining_of_split hc split refined
    · exact kept (h.mem_merging.mp hb)
  have left := List.nodup_append.mpr ⟨nodup_inner_ids, nodup_merging, apart'⟩
  have right := List.nodup_append.mpr ⟨nodup_inner_ids, nodup_refining, apart⟩
  refine (List.perm_ext_iff_of_nodup left right).mpr fun id => ?_
  rw [List.mem_append, List.mem_append, mem_inner_ids, mem_inner_ids, e.split_iff h, h.mem_merging]
  constructor
  · rintro ((refined | ⟨split, -⟩) | merges)
    · exact Or.inr refined
    · exact Or.inl split
    · exact Or.inl (h.split_of_merging (h.mem_merging.mpr merges))
  · rintro (split | refined)
    · by_cases merges : F.Merges id
      · exact Or.inr merges
      · exact Or.inl (Or.inr ⟨split, merges⟩)
    · exact Or.inl (Or.inl refined)

/-- Each refined leaf adds a split cell and each merged group takes one away. -/
theorem length_inner : G.inner.length + F.merging.length = F.inner.length + F.refining.length := by
  simpa using (e.inner_perm h).length_eq

/-- Each refined leaf adds the children of one cell and each merged group takes them away. -/
theorem size_eq : G.size + fanout D * F.merging.length = F.size + fanout D * F.refining.length := by
  have inner := congrArg (fanout D * ·) (e.length_inner h)
  simp only [Nat.mul_add] at inner
  rw [e.linked.size_eq, h.size_eq, e.roots h]
  omega

end Executed

/-! ### Coarsen flags -/

/-- The leaves that are flagged for coarsening and stay so in the clean-up. -/
def coarsening (F : Forest D) : List CellId :=
  (F.leaves.filter fun l => l.flag = .coarsen ∧ F.strayCoarsen l = false).map (·.id)

theorem mem_coarsening :
    id ∈ F.coarsening ↔ ∃ l, F.leaf? id = some l ∧ l.flag = .coarsen ∧ F.strayCoarsen l = false := by
  simp only [coarsening, mem_ids_filter_leaves, decide_eq_true_eq]

/-- Each of them is the child of exactly one cell whose group is merged. -/
theorem Linked.coarsening_perm (h : F.Linked) : F.coarsening.Perm (F.merging.flatMap F.childrenOf) := by
  have distinct : F.coarsening.Nodup := nodup_leaves_ids.sublist (List.filter_sublist.map _)
  refine (List.perm_ext_iff_of_nodup distinct (h.nodup_flatMap_childrenOf nodup_merging)).mpr fun id => ?_
  rw [mem_coarsening, List.mem_flatMap]
  constructor
  · rintro ⟨l, hl, flagged, kept⟩
    obtain ⟨p, hp, merges⟩ := h.merges_of_not_stray hl flagged kept
    obtain ⟨c, hc, listed⟩ := h.parent (cell?_of_leaf? hl) hp
    exact ⟨p, h.mem_merging.mpr merges, mem_childrenOf.mpr ⟨c, hc, listed⟩⟩
  · rintro ⟨p, hp, listed⟩
    obtain ⟨c, hc, listed⟩ := mem_childrenOf.mp listed
    have merges : F.Merges p := h.mem_merging.mp hp
    obtain ⟨l, hl, flagged⟩ := merges.leaf hc listed
    exact ⟨l, hl, flagged, merges.not_stray (h.parent_of_mem hc listed (cell?_of_leaf? hl))⟩

/-- A coarsen flag is dropped by the clean-up, or its leaf is one of the children of a merged cell. -/
theorem Linked.countP_coarsen (h : F.Linked) :
    F.clean.2 + fanout D * F.merging.length = F.leaves.countP fun l => l.flag = .coarsen := by
  have parts := List.countP_eq_countP_filter_add F.leaves (fun l => l.flag = .coarsen) F.strayCoarsen
  rw [List.countP_filter, List.countP_filter] at parts
  have dropped : F.clean.2 = F.leaves.countP fun l => l.flag = .coarsen && F.strayCoarsen l := by
    refine List.countP_congr fun l _ => ?_
    have flagged : F.strayCoarsen l = true → l.flag = .coarsen := fun stray => (strayCoarsen_iff.mp stray).1
    simpa using flagged
  have kept : fanout D * F.merging.length = F.leaves.countP fun l => l.flag = .coarsen && !F.strayCoarsen l := by
    rw [← h.length_flatMap_childrenOf fun p => h.split_of_merging, ← h.coarsening_perm.length_eq, coarsening,
      List.length_map, ← List.countP_eq_length_filter]
    simp
  rw [dropped, kept, parts]

/-- The summary of an accepted execution accounts for all markers of the forest before, and for the change of the
number of cells and of leaves. -/
theorem execute_accounts (reached : Reachable F) {s : ExecutionSummary} (done : (F.execute fe).answer = .ok s) :
    s.refined = F.leaves.countP (fun l => l.flag = .refine) ∧
    s.droppedFlags + 2 ^ D * s.coarsenedGroups = F.leaves.countP (fun l => l.flag = .coarsen) ∧
    s.pAdapted = F.leaves.countP (fun l => l.future.any (· ≠ l.element)) ∧
    ((F.execute fe).forest.size : ℤ) - F.size = 2 ^ D * (s.refined - s.coarsenedGroups) ∧
    ((F.execute fe).forest.leaves.length : ℤ) - F.leaves.length = (2 ^ D - 1) * (s.refined - s.coarsenedGroups) := by
  have h := reached.linked
  obtain ⟨-, executed⟩ := execute_eq_ok h done
  obtain ⟨-, -, rfl⟩ := (execute_eq_ok_iff h).mp done
  have cells : (((F.execute fe).forest.size + 2 ^ D * F.merging.length : ℕ) : ℤ) =
      (F.size + 2 ^ D * F.refining.length : ℕ) := congrArg Nat.cast (executed.size_eq h)
  have inner : (((F.execute fe).forest.inner.length + F.merging.length : ℕ) : ℤ) =
      (F.inner.length + F.refining.length : ℕ) := congrArg Nat.cast (executed.length_inner h)
  have before : (F.size : ℤ) = (F.leaves.length + F.inner.length : ℕ) := congrArg Nat.cast size_eq_leaves_add_inner
  have after : ((F.execute fe).forest.size : ℤ) =
      ((F.execute fe).forest.leaves.length + (F.execute fe).forest.inner.length : ℕ) :=
    congrArg Nat.cast size_eq_leaves_add_inner
  push_cast at cells inner before after
  refine ⟨?_, h.countP_coarsen, ?_, ?_, ?_⟩
  · rw [refining, List.length_map, ← List.countP_eq_length_filter]
  · refine List.countP_congr fun l _ => ?_
    cases scheduled : l.future <;> simp [Leaf.switches, Leaf.target, scheduled]
  · linarith
  · linarith

theorem twoGroups_accounted : Reachable twoGroups ∧
    (twoGroups.execute .twoElements).answer = .ok ⟨3, 2, 1, 2⟩ ∧ twoGroups.size = 8 ∧
    (twoGroups.execute .twoElements).forest.size = 10 ∧ (twoGroups.execute .twoElements).forest.leaves.length = 7 := by
  have reached : Reachable twoGroups := .after _
  have dropped : twoGroups.clean.2 = 2 := by rw [twoGroups_eq]; decide
  have size : twoGroups.size = 8 := by rw [twoGroups_eq]; decide
  have leaves : twoGroups.leaves.length = 6 := by rw [twoGroups_eq]; decide
  have refines : twoGroups.leaves.countP (fun l => l.flag = .refine) = 2 := by rw [twoGroups_eq]; decide
  have coarsens : twoGroups.leaves.countP (fun l => l.flag = .coarsen) = 4 := by rw [twoGroups_eq]; decide
  have schedules : twoGroups.leaves.countP (fun l => l.future.any (· ≠ l.element)) = 3 := by rw [twoGroups_eq]; decide
  obtain ⟨answer, -⟩ := execute_accepts reached.linked twoGroups_within twoGroups_room
  obtain ⟨refined, flags, adapted, cells, active⟩ := execute_accounts reached answer
  dsimp only at refined flags adapted cells active
  rw [coarsens, dropped] at flags
  have merged : twoGroups.merging.length = 1 := by omega
  rw [refined, merged, refines] at cells active answer
  rw [adapted, schedules, dropped] at answer
  rw [size] at cells
  rw [leaves] at active
  exact ⟨reached, answer, size, by omega, by omega⟩

end Forest
end HpForest
