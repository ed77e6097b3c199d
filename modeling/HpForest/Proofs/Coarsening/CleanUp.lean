import HpForest.Proofs.Coarsening.Round
import HpForest.Proofs.History

/-! # What the clean-up keeps

Whether the clean-up drops a coarsen flag depends on the whole sibling group of the leaf, some of which may be
split (`Linked.unmatched_iff`). Of a group it keeps all flags or none, so each flag that is left belongs to a group
that is going to be merged (`Linked.coarsens_clean_iff`), and a second clean-up finds no flag to drop. -/

namespace HpForest
namespace Forest
variable {D : Nat} {F : Forest D} {id k p : CellId} {c : Cell} {l : Leaf}

/-- The leaf is flagged for coarsening, and it is a root or has a sibling that is split or not flagged so. -/
def Unmatched (F : Forest D) (l : Leaf) : Prop :=
  l.flag = .coarsen ∧ (l.parent = none ∨
    ∃ s ∈ F.cells, s.2.parent = l.parent ∧ ¬(s.2.isActive = true ∧ s.2.flag = .coarsen))

instance (l : Leaf) : Decidable (F.Unmatched l) :=
  inferInstanceAs (Decidable (_ ∧ (_ ∨ ∃ s ∈ F.cells, _ ∧ ¬(_ ∧ _))))

theorem coarsens_of_cell? (hc : F.cell? id = some c) :
    F.coarsens id = true ↔ c.isActive = true ∧ c.flag = .coarsen := by
  cases hr : c.role <;> simp [coarsens, markers?, hc, Cell.markers?, Cell.isActive, Cell.flag, Cell.markers, hr]

/-- The clean-up looks at the children of the parent, which are the cells with the same parent. -/
theorem Linked.unmatched_iff (h : F.Linked) (hl : F.leaf? id = some l) :
    F.Unmatched l ↔ F.strayCoarsen l = true := by
  rw [strayCoarsen_iff, Unmatched]
  refine and_congr_right fun _ => ?_
  cases hp : l.parent with
  | none => simp
  | some p =>
    obtain ⟨c, hc, -⟩ := h.parent (cell?_of_leaf? hl) hp
    have judged : F.groupCoarsens p = false ↔ ∃ k ∈ c.children, F.coarsens k = false := by
      rw [groupCoarsens, hc, Option.any_some, List.all_eq_false]
      simp only [Bool.not_eq_true]
    simp only [reduceCtorEq, false_or, Option.some.injEq, forall_eq', judged]
    constructor
    · rintro ⟨⟨k, d⟩, hd, parent, apart⟩
      have hd := mem_cells.mp hd
      exact ⟨k, (h.mem_children_iff hc hd).mpr parent, Bool.eq_false_iff.mpr (mt (coarsens_of_cell? hd).mp apart)⟩
    · rintro ⟨k, listed, apart⟩
      obtain ⟨d, hd, parent, -⟩ := h.child hc listed
      exact ⟨(k, d), mem_cells.mpr hd, parent, mt (coarsens_of_cell? hd).mpr (Bool.eq_false_iff.mp apart)⟩

theorem Linked.not_stray_clean (h : F.Linked) : ∀ l ∈ F.clean.1.leaves, F.clean.1.strayCoarsen l = false := by
  intro m hm
  refine Bool.eq_false_iff.mpr fun stray => ?_
  obtain ⟨flag, apart⟩ := strayCoarsen_iff.mp stray
  rw [leaves_clean] at hm
  obtain ⟨l, hl, rfl⟩ := List.mem_map.mp hm
  have hl := mem_leaves_iff.mp hl
  obtain ⟨flag, kept⟩ := cleanMarkers_flag_eq_coarsen.mp flag
  obtain ⟨p, hp, merges⟩ := h.merges_of_not_stray hl flag kept
  have group := (h.groupCoarsens_iff_merges hl hp).mpr merges
  cases (apart p hp).symm.trans ((h.groupCoarsens_clean hl hp).trans group)

/-- The clean-up drops the flags of the unmatched leaves, counts them, and changes nothing else. Of each group it
leaves all flags, and the group can then be merged, or none. A second clean-up has nothing to do. -/
theorem clean_keeps_groups (reached : Reachable F) : let G := F.clean.1
    G.slots.size = F.slots.size ∧ (∀ id, F.isActive id = false → G.cell? id = F.cell? id) ∧
    (∀ id l, F.leaf? id = some l →
      G.leaf? id = some { l with markers := if F.Unmatched l then l.markers.clearFlag else l.markers }) ∧
    F.clean.2 = F.leaves.countP (fun l => F.Unmatched l) ∧
    (∀ p c, G.cell? p = some c → c.isActive = false →
      ((∀ k ∈ c.children, G.coarsens k = true) ∧ (p, c.children) ∈ G.siblingGroups) ∨
        ∀ k ∈ c.children, G.coarsens k = false) ∧
    G.clean = (G, 0) := by
  intro G
  have h := reached.linked
  refine ⟨size_remark _, fun id inactive => cell?_remark_of_inactive inactive _, fun id l hl => ?_, ?_,
    fun p c hc split => ?_, clean_eq_self h.not_stray_clean⟩
  · have marks : F.cleanMarkers l = if F.Unmatched l then l.markers.clearFlag else l.markers := by
      rw [cleanMarkers, if_congr (h.unmatched_iff hl) rfl rfl]
    exact marks ▸ leaf?_remark_of_leaf? hl F.cleanMarkers
  · refine List.countP_congr fun l hl => ?_
    rw [decide_eq_true_iff, h.unmatched_iff (mem_leaves_iff.mp hl)]
  · have hF : F.cell? p = some c := (cell?_remark_eq_split split _).mp hc
    by_cases merges : F.Merges p
    · have all : ∀ k ∈ c.children, G.coarsens k = true := fun k hk => (h.coarsens_clean_iff hF hk).mpr merges
      have active : ∀ k ∈ c.children, G.isActive k = true := fun k hk => isActive_of_coarsens (all k hk)
      exact Or.inl ⟨all, mem_siblingGroups.mpr ⟨c, hc, split, active, rfl⟩⟩
    · exact Or.inr fun k hk => Bool.eq_false_iff.mpr (mt (h.coarsens_clean_iff hF hk).mp merges)

/-- A leaf and a split cell whose children are leaves, where all leaves are flagged, and a flagged root. -/
def nestedGroup : Forest 1 := after ([.addRoot 0, .refineCell ⟨0⟩, .refineCell ⟨2⟩, .setFlag ⟨1⟩ .coarsen,
  .setFlag ⟨3⟩ .coarsen, .setFlag ⟨4⟩ .coarsen, .addRoot 0, .setFlag ⟨5⟩ .coarsen] : List (Operation Rat Rat))

theorem nestedGroup_eq : nestedGroup = ⟨#[some ⟨0, none, 0, .split [⟨1⟩, ⟨2⟩]⟩,
    some ⟨1, some ⟨0⟩, 0, .active ⟨.coarsen, none⟩⟩, some ⟨1, some ⟨0⟩, 0, .split [⟨3⟩, ⟨4⟩]⟩,
    some ⟨2, some ⟨2⟩, 0, .active ⟨.coarsen, none⟩⟩, some ⟨2, some ⟨2⟩, 0, .active ⟨.coarsen, none⟩⟩,
    some ⟨0, none, 0, .active ⟨.coarsen, none⟩⟩]⟩ := by decide +kernel

/-- Only the inner group keeps its flags. -/
theorem nestedGroup_cleaned : Reachable nestedGroup ∧ nestedGroup.clean.2 = 2 ∧
    nestedGroup.clean.1.leaf? ⟨1⟩ = some ⟨⟨1⟩, 1, some ⟨0⟩, 0, {}⟩ ∧
    nestedGroup.clean.1.leaf? ⟨5⟩ = some ⟨⟨5⟩, 0, none, 0, {}⟩ ∧
    (⟨2⟩, [⟨3⟩, ⟨4⟩]) ∈ nestedGroup.clean.1.siblingGroups ∧ nestedGroup.clean.1.coarsens ⟨3⟩ = true ∧
    nestedGroup.clean.1.coarsens ⟨1⟩ = false ∧ nestedGroup.clean.1.clean = (nestedGroup.clean.1, 0) := by
  have reached : Reachable nestedGroup := .after _
  obtain ⟨-, split, marks, dropped, groups, again⟩ := clean_keeps_groups reached
  have inner : nestedGroup.clean.1.cell? ⟨2⟩ = some ⟨1, some ⟨0⟩, 0, .split [⟨3⟩, ⟨4⟩]⟩ :=
    (split ⟨2⟩ (by rw [nestedGroup_eq]; rfl)).trans (by rw [nestedGroup_eq]; rfl)
  have outer : nestedGroup.clean.1.cell? ⟨0⟩ = some ⟨0, none, 0, .split [⟨1⟩, ⟨2⟩]⟩ :=
    (split ⟨0⟩ (by rw [nestedGroup_eq]; rfl)).trans (by rw [nestedGroup_eq]; rfl)
  have first := marks ⟨1⟩ ⟨⟨1⟩, 1, some ⟨0⟩, 0, ⟨.coarsen, none⟩⟩ (by rw [nestedGroup_eq]; rfl)
  have root := marks ⟨5⟩ ⟨⟨5⟩, 0, none, 0, ⟨.coarsen, none⟩⟩ (by rw [nestedGroup_eq]; rfl)
  have third := marks ⟨3⟩ ⟨⟨3⟩, 2, some ⟨2⟩, 0, ⟨.coarsen, none⟩⟩ (by rw [nestedGroup_eq]; rfl)
  rw [if_pos (by rw [nestedGroup_eq]; decide)] at first root
  rw [if_neg (by rw [nestedGroup_eq]; decide)] at third
  have kept : nestedGroup.clean.1.coarsens ⟨3⟩ = true := (coarsens_of_leaf? third).mpr rfl
  refine ⟨reached, dropped.trans (by rw [nestedGroup_eq]; decide), first, root, ?_, kept, ?_, again⟩
  · rcases groups _ _ inner rfl with ⟨-, listed⟩ | unflagged
    · exact listed
    · cases kept.symm.trans (unflagged ⟨3⟩ List.mem_cons_self)
  · rcases groups _ _ outer rfl with ⟨all, -⟩ | unflagged
    · exact absurd ((coarsens_of_leaf? first).mp (all ⟨1⟩ List.mem_cons_self)) nofun
    · exact unflagged ⟨1⟩ List.mem_cons_self

end Forest
end HpForest
