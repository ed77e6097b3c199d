import HpForest.Proofs.Forest.Refusal
import HpForest.Proofs.Strategy.Mask

/-! # Cycles that adapt in place

The full strategy schedules an element on every flagged leaf, so that forcing p leaves no flag: what is left for the
execution is to switch elements. Such a cycle and the execution after it are always accepted and change no links,
also where a leaf was flagged for refinement on the last level. -/

namespace HpForest

namespace Leaf
variable {fe : Collection} {l : Leaf}

/-- The element after a cycle in place: the one next to the leaf's own in the direction of its flag, or the target of
a leaf without a flag. -/
def advanced (fe : Collection) (l : Leaf) : Nat :=
  match l.flag with
  | .none => l.target
  | .refine => min (l.element + 1) (fe.size - 1)
  | .coarsen => l.element - 1

/-- The markers after a cycle in place, before its execution. -/
def inPlace (fe : Collection) (l : Leaf) : Markers := ⟨.none, if l.flag = .none then l.future else some (l.next fe)⟩

theorem target_inPlace : ({ l with markers := l.inPlace fe } : Leaf).target = l.advanced fe := by
  cases flag : l.flag <;> simp [target, future, inPlace, advanced, next, flag]

end Leaf

/-! ### The full strategy -/

theorem qualified_full (leaves : List Leaf) :
    qualified leaves (leaves.map fun _ => true) = leaves.filter fun l => l.flag ≠ .none := by
  induction leaves with
  | nil => rfl
  | cons l rest ih =>
    rw [List.map_cons, qualified_cons, ih, List.filter_cons]
    simp

namespace Strategy
variable {D : Nat} {P N : Type} [Scalar P] [Scalar N] [RoundsTo P N] {F : Forest D}
  {fe : Collection}

omit [Scalar P] in
theorem isMask_full (leaves : List Leaf) : (full : Strategy P N).IsMask fe leaves (leaves.map fun _ => true) where
  length := List.length_map _
  verdict {i l q} _ hq _ := by
    obtain ⟨_, -, rfl⟩ := List.mem_map.mp (List.mem_of_getElem? hq)
    exact ⟨fun _ => trivial, fun _ => rfl⟩

omit [RoundsTo P N] in
theorem check_full (within : F.Within fe) : (full : Strategy P N).check F fe = .ok () := by
  simp [check, checkOptions, Forest.checkElements_eq_ok.mpr within, lengths, checkIndicators, bind, Except.bind, pure,
    Except.pure]

variable (P N) in
/-- The full strategy schedules the next element on every flagged leaf. -/
theorem apply_full (within : F.Within fe) : (∃ report, ((full : Strategy P N).apply F fe).answer = .ok report) ∧
    ((full : Strategy P N).apply F fe).forest =
      F.remark fun l => if l.flag = .none then l.markers else { l.markers with future := some (l.next fe) } := by
  have mask : (full : Strategy P N).IsMask fe F.leaves (F.leaves.map fun _ => true) := isMask_full F.leaves
  obtain ⟨applied, forest⟩ := apply_of_plan (plan_of_mask (check_full within) exists_mask_full mask)
  refine ⟨⟨_, applied⟩, forest.trans (Forest.remark_congr fun l hl => ?_)⟩
  have listed : l.id ∈ (qualified F.leaves (F.leaves.map fun _ => true)).map (·.id) ↔ l.flag ≠ .none := by
    rw [qualified_full, Forest.mem_ids_filter_leaves]
    simp [Forest.mem_leaves_iff.mp hl]
  rw [Leaf.scheduledOn, Leaf.markOn, if_congr listed rfl rfl, ite_not]

end Strategy

namespace Forest
variable {D : Nat} {P N : Type} [Scalar P] [Scalar N] [RoundsTo P N] {F : Forest D}
  {fe : Collection} {id : CellId} {l : Leaf}

/-! ### The cycle -/

theorem forced_scheduled : forced { l with markers :=
    if l.flag = .none then l.markers else { l.markers with future := some (l.next fe) } } = l.inPlace fe := by
  by_cases unflagged : l.flag = .none
  · have flag : l.markers.flag = .none := unflagged
    rw [if_pos unflagged, forced_of_not_conflicted (by simp [Markers.conflicted, flag]), Leaf.inPlace, if_pos unflagged,
      Leaf.future, ← flag]
  · have flag : l.markers.flag ≠ .none := unflagged
    simp [forced, Markers.conflicted, Markers.clearFlag, Leaf.inPlace, unflagged, flag]

variable (P N) in
theorem Linked.hpAdapt_full (h : F.Linked) (within : F.Within fe) :
    (∃ summary, (F.hpAdapt fe (.full : Strategy P N) .forceP).answer = .ok summary) ∧
      (F.hpAdapt fe (.full : Strategy P N) .forceP).forest = F.remark (Leaf.inPlace fe) := by
  obtain ⟨⟨report, applied⟩, scheduled⟩ := Strategy.apply_full P N within
  obtain ⟨summary, done⟩ := hpAdapt_accepts (d := .forceP) h applied
  refine ⟨⟨summary, done⟩, ?_⟩
  rw [(hpAdapt_eq_ok h done).1, scheduled]
  exact (remark_remark _ _).trans (remark_congr fun _ _ => forced_scheduled)

theorem Within.inPlace (within : F.Within fe) : (F.remark (Leaf.inPlace fe)).Within fe := by
  refine within.remark fun l hl i scheduled => ?_
  simp only [Leaf.inPlace] at scheduled
  split at scheduled
  · exact Or.inl scheduled
  · exact Or.inr (Option.some.inj scheduled ▸ Leaf.next_lt (within.element hl))

theorem unflagged_inPlace : ∀ m ∈ (F.remark (Leaf.inPlace fe)).leaves, m.flag = .none := by
  intro m hm
  rw [leaves_remark] at hm
  obtain ⟨l, -, rfl⟩ := List.mem_map.mp hm
  rfl

/-! ### The execution -/

theorem countP_switches_inPlace : (F.remark (Leaf.inPlace fe)).leaves.countP Leaf.switches =
    F.leaves.countP fun l => l.advanced fe ≠ l.element := by
  rw [leaves_remark, List.countP_map]
  refine List.countP_congr fun l _ => ?_
  rw [Function.comp_apply, Leaf.switches, Leaf.target_inPlace]

theorem leaves_switched_inPlace : (F.remark (Leaf.inPlace fe)).switched.leaves =
    F.leaves.map fun l => { l with element := l.advanced fe, markers := {} } := by
  rw [leaves_switched_of_unflagged unflagged_inPlace, leaves_remark, List.map_map]
  refine List.map_congr_left fun l _ => ?_
  simp only [Function.comp_apply, Leaf.target_inPlace]

/-- With the full strategy and p forced, a cycle and the execution after it are accepted. All cells stay where they
are and only active cells change: a leaf that was flagged goes on to the next element in the direction of its flag,
as far as there is one, and any other leaf switches to its scheduled element. -/
theorem full_forceP_keeps_cells (reached : Reachable F) (within : F.Within fe) :
    let cycle := F.hpAdapt fe (.full : Strategy P N) .forceP
    let G := (cycle.forest.execute fe).forest
    (∃ summary, cycle.answer = .ok summary) ∧
    (cycle.forest.execute fe).answer = .ok ⟨F.leaves.countP fun l => l.advanced fe ≠ l.element, 0, 0, 0⟩ ∧
    SameCells F G ∧ (∀ id, F.isActive id = false → G.cell? id = F.cell? id) ∧
    G.leaves = F.leaves.map fun l => { l with element := l.advanced fe, markers := {} } := by
  intro cycle G
  have h := reached.linked
  obtain ⟨accepted, (forest : cycle.forest = _)⟩ := h.hpAdapt_full P N within
  have linked : (F.remark (Leaf.inPlace fe)).Linked := (SameLinks.of_remark _).linked h
  have executed := execute_of_unflagged unflagged_inPlace linked within.inPlace
  have switched : G = (F.remark (Leaf.inPlace fe)).switched := by
    show (cycle.forest.execute fe).forest = _
    rw [forest, executed]
    rfl
  refine ⟨accepted, ?_, ?_, fun id inactive => ?_, ?_⟩
  · rw [forest, executed, countP_switches_inPlace]
    rfl
  · rw [switched]
    exact (SameCells.of_remark _).trans SameCells.switched
  · rw [switched, cell?_switched_of_inactive (by rwa [isActive_remark]), cell?_remark_of_inactive inactive]
  · rw [switched, leaves_switched_inPlace]

/-- On its own the execution refuses to split the cell on the last level. -/
theorem markedDescent_inPlace : Reachable (markedDescent 2 255) ∧ (markedDescent 2 255).Within .twoElements ∧
    ((markedDescent 2 255).execute .twoElements).answer = .error (.topology (.levelExhausted ⟨1020⟩)) ∧
    let cycle := (markedDescent 2 255).hpAdapt .twoElements (.full : Strategy Rat Rat) .forceP
    (∃ summary, cycle.answer = .ok summary) ∧
    (∃ adapted, (cycle.forest.execute .twoElements).answer = .ok ⟨adapted, 0, 0, 0⟩) ∧
    ∃ parent, (cycle.forest.execute .twoElements).forest.leaf? ⟨1020⟩ = some ⟨⟨1020⟩, 255, parent, 1, {}⟩ := by
  have reached : Reachable (markedDescent 2 255) := .after _
  have within := markedDescent_within (D := 2) (n := 255) (Nat.le_refl _)
  obtain ⟨parent, before, refused, -⟩ := markedDescent_ends
  obtain ⟨accepted, executed, -, -, leaves⟩ := full_forceP_keeps_cells (P := Rat) (N := Rat) reached within
  have switched : (⟨⟨1020⟩, 255, parent, 1, {}⟩ : Leaf) ∈ (((markedDescent 2 255).hpAdapt .twoElements
      (.full : Strategy Rat Rat) .forceP).forest.execute .twoElements).forest.leaves := by
    rw [leaves]
    exact List.mem_map.mpr ⟨_, mem_leaves_of_leaf? before, rfl⟩
  have landed := mem_leaves_iff.mp switched
  exact ⟨reached, within, refused, accepted, ⟨_, executed⟩, parent, landed⟩

end Forest
end HpForest
