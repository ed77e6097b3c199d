import HpForest.Proofs.Strategy.Mask

/-! # Strategies one after the other

A strategy looks at the flags and the elements in use, never at the schedules, which are all that a strategy
writes. So each of several strategies decides as if it were the first: their order is immaterial, a second
application changes nothing, and two that are accepted come to selecting by the union of their masks. -/

namespace HpForest

/-! ### What the schedules do not change -/

namespace Leaf
variable {fe : Collection} {ids : List CellId} {l : Leaf}

/-- The leaf when the next element has been scheduled on the leaves with the given ids. -/
def rescheduled (fe : Collection) (ids : List CellId) (l : Leaf) : Leaf := { l with markers := l.scheduledOn fe ids }

@[simp] theorem rescheduled_id : (l.rescheduled fe ids).id = l.id := rfl

@[simp] theorem rescheduled_element : (l.rescheduled fe ids).element = l.element := rfl

@[simp] theorem rescheduled_flag : (l.rescheduled fe ids).flag = l.flag := scheduledOn_flag

end Leaf

section
variable {D : Nat} {F : Forest D} {fe : Collection} {ids : List CellId} {leaves : List Leaf} {m m₁ m₂ : List Bool}

theorem leaves_scheduledOn :
    (F.remark (Leaf.scheduledOn fe ids)).leaves = F.leaves.map (Leaf.rescheduled fe ids) := Forest.leaves_remark _

theorem qualified_rescheduled :
    qualified (leaves.map (Leaf.rescheduled fe ids)) m = (qualified leaves m).map (Leaf.rescheduled fe ids) := by
  simp [qualified, List.zip_map_left, List.filter_map, Function.comp_def]

theorem report_rescheduled : Assignment.report ((leaves.map (Leaf.rescheduled fe ids)).map (Leaf.assignment fe)) =
    Assignment.report (leaves.map (Leaf.assignment fe)) := by
  have counts (flag : HFlag) : ((leaves.map (Leaf.rescheduled fe ids)).map (Leaf.assignment fe)).countP
      (fun a => a.leaf.flag = flag) = (leaves.map (Leaf.assignment fe)).countP fun a => a.leaf.flag = flag := by
    rw [List.map_map, List.countP_map, List.countP_map]
    refine List.countP_congr fun l _ => ?_
    show decide ((l.rescheduled fe ids).flag = flag) = true ↔ decide (l.flag = flag) = true
    rw [decide_eq_true_iff, decide_eq_true_iff, Leaf.rescheduled_flag]
  rw [Assignment.report, counts, counts, Assignment.report]

/-- What qualifies by one of two masks qualifies by their union. -/
theorem mem_qualified_union (same₁ : m₁.length = F.leaves.length) (same₂ : m₂.length = F.leaves.length) {l : Leaf}
    (hl : l ∈ F.leaves) : l.id ∈ (qualified F.leaves (List.zipWith (· || ·) m₁ m₂)).map (·.id) ↔
      l.id ∈ (qualified F.leaves m₁).map (·.id) ∨ l.id ∈ (qualified F.leaves m₂).map (·.id) := by
  obtain ⟨i, bound, rfl⟩ := List.mem_iff_getElem.mp hl
  have bound₁ : i < m₁.length := same₁ ▸ bound
  have bound₂ : i < m₂.length := same₂ ▸ bound
  have entry {m : List Bool} (here : i < m.length) : (F.leaves[i], m[i]) ∈ F.leaves.zip m := by
    refine List.mem_of_getElem? (i := i) (List.getElem?_zip_eq_some.mpr ?_)
    exact ⟨List.getElem?_eq_getElem bound, List.getElem?_eq_getElem here⟩
  have same : (List.zipWith (· || ·) m₁ m₂).length = F.leaves.length := by
    rw [List.length_zipWith, same₁, same₂, Nat.min_self]
  rw [mem_qualified_ids Forest.nodup_leaves_ids same (entry (same ▸ bound)), List.getElem_zipWith,
    mem_qualified_ids Forest.nodup_leaves_ids same₁ (entry bound₁),
    mem_qualified_ids Forest.nodup_leaves_ids same₂ (entry bound₂), Bool.or_eq_true, or_and_right]

theorem within_scheduledOn (within : F.Within fe) : (F.remark (Leaf.scheduledOn fe ids)).Within fe :=
  within.remark fun _ hl _ future => Leaf.scheduledOn_future (within.element hl) future

section
variable {N : Type} {xs : List N}

theorem classValues_rescheduled {flag : HFlag} :
    classValues flag (leaves.map (Leaf.rescheduled fe ids)) xs = classValues flag leaves xs := by
  simp [classValues, List.zip_map_left, List.filter_map, Function.comp_def]

theorem checkFinite_rescheduled [Scalar N] :
    checkFinite (leaves.map (Leaf.rescheduled fe ids)) xs = checkFinite leaves xs := by
  rw [Strategy.checkFinite_eq_enforce, Strategy.checkFinite_eq_enforce, List.zip_map_left, List.map_map]
  refine congrArg Requirement.enforce (List.map_congr_left fun x _ => ?_)
  simp [Leaf.finite]

end
end

namespace Strategy
variable {D : Nat} {P N : Type} {F : Forest D} {fe : Collection} {s : Strategy P N} {leaves : List Leaf}
  {ids : List CellId} {l : Leaf} [Scalar P] [Scalar N]

theorem check_scheduledOn (within : F.Within fe) :
    s.check (F.remark (Leaf.scheduledOn fe ids)) fe = s.check F fe := by
  have indicators : s.checkIndicators (F.remark (Leaf.scheduledOn fe ids)).leaves = s.checkIndicators F.leaves := by
    cases s <;> simp [checkIndicators, leaves_scheduledOn, checkFinite_rescheduled]
  rw [check, check, Forest.checkElements_eq_ok.mpr within, Forest.checkElements_eq_ok.mpr (within_scheduledOn within),
    indicators, leaves_scheduledOn, List.length_map]

/-- Verdicts that look only at what schedules leave alone are the same. -/
theorem judge_rescheduled {α β : Type} {xs : List α} {g : α → β} {verdict : Leaf → β → Except AdaptError Bool}
    {verdict' : Leaf → α → Except AdaptError Bool}
    (same : ∀ l x, verdict (Leaf.rescheduled fe ids l) (g x) = verdict' l x) :
    judge (leaves.map (Leaf.rescheduled fe ids)) (xs.map g) verdict = judge leaves xs verdict' := by
  rw [judge, judge, List.zip_map, List.mapM_map]
  refine congrArg (List.mapM · _) (funext fun x => ?_)
  show (if (x.1.rescheduled fe ids).flag = .none then _ else verdict (x.1.rescheduled fe ids) (g x.2)) = _
  rw [same, Leaf.rescheduled_flag]

omit [Scalar P] in
theorem supports_rescheduled {x : N} : supports fe (l.rescheduled fe ids) x = supports fe l x := by
  simp [supports, Leaf.neighbour]

variable [RoundsTo P N]

theorem mask_rescheduled : s.mask fe (leaves.map (Leaf.rescheduled fe ids)) = s.mask fe leaves := by
  have judged {α : Type} {xs : List α} {verdict verdict' : Leaf → α → Except AdaptError Bool}
      (same : ∀ l x, verdict (Leaf.rescheduled fe ids l) x = verdict' l x) :
      judge (leaves.map (Leaf.rescheduled fe ids)) xs verdict = judge leaves xs verdict' := by
    rw [← judge_rescheduled (g := id) same, List.map_id]
  unfold mask
  cases s with
  | full => exact judge_rescheduled fun _ _ => rfl
  | flags | prediction => exact judged fun _ _ => rfl
  | regularity => exact judged fun _ _ => supports_rescheduled
  | threshold smoothness o =>
    simp only [Cutoffs.ofLeaves, classValues_rescheduled]
    exact bind_congr fun _ => judged fun l _ => by rw [Leaf.rescheduled_flag]

theorem plan_scheduledOn (within : F.Within fe) : s.plan (F.remark (Leaf.scheduledOn fe ids)) fe =
    (s.plan F fe).map (List.map (Leaf.rescheduled fe ids)) := by
  rw [plan, plan, check_scheduledOn within, leaves_scheduledOn, mask_rescheduled]
  cases s.check F fe with
  | error e => rfl
  | ok passed =>
    cases s.mask fe F.leaves with
    | error e => rfl
    | ok m => exact congrArg Except.ok qualified_rescheduled

end Strategy

/-! ### Two strategies -/

namespace Strategy
variable {D : Nat} {F : Forest D} {fe : Collection} {P₁ N₁ P₂ N₂ : Type}
  [Scalar P₁] [Scalar N₁] [RoundsTo P₁ N₁] [Scalar P₂] [Scalar N₂] [RoundsTo P₂ N₂]
  {s₁ : Strategy P₁ N₁} {s₂ : Strategy P₂ N₂}

/-- What another strategy has scheduled does not change the plan of a strategy. -/
theorem plan_apply : s₂.plan (s₁.apply F fe).forest fe =
    (s₂.plan F fe).map (List.map (Leaf.rescheduled fe (s₁.picked F fe))) := by
  cases planned : s₁.plan F fe with
  | ok leaves =>
    rw [apply_forest]
    exact plan_scheduledOn (within_of_plan planned)
  | error e =>
    have unchanged : Leaf.rescheduled fe (s₁.picked F fe) = id := by
      funext l
      simp [picked, planned, Leaf.rescheduled, Leaf.scheduledOn, Leaf.markOn]
    rw [apply_of_plan_error planned, unchanged]
    show s₂.plan F fe = _
    cases s₂.plan F fe <;> simp [Except.map]

theorem picked_apply : s₂.picked (s₁.apply F fe).forest fe = s₂.picked F fe := by
  rw [picked, picked, plan_apply]
  cases s₂.plan F fe with
  | error e => rfl
  | ok leaves => simp [Except.map]

theorem answer_apply : (s₂.apply (s₁.apply F fe).forest fe).answer = (s₂.apply F fe).answer := by
  rw [apply_answer, apply_answer, plan_apply]
  cases s₂.plan F fe with
  | error e => rfl
  | ok leaves => exact congrArg Except.ok report_rescheduled

/-- What two strategies leave one after the other: the next element scheduled where the one or the other asks for it. -/
theorem forest_apply : (s₂.apply (s₁.apply F fe).forest fe).forest =
    F.remark (Leaf.scheduledOn fe (s₁.picked F fe ++ s₂.picked F fe)) := by
  rw [apply_forest, picked_apply, apply_forest, Forest.remark_scheduledOn]

/-- Strategies commute, and repeating one changes nothing, whether they are accepted or refused. Two that are
accepted leave the forest that selecting by the union of their masks leaves. -/
theorem apply_comm_idempotent (s₁ : Strategy P₁ N₁) (s₂ : Strategy P₂ N₂) (F : Forest D) (fe : Collection) :
    (s₂.apply (s₁.apply F fe).forest fe).forest = (s₁.apply (s₂.apply F fe).forest fe).forest ∧
    (s₁.apply (s₁.apply F fe).forest fe).forest = (s₁.apply F fe).forest ∧
    (s₁.apply (s₁.apply F fe).forest fe).answer = (s₁.apply F fe).answer ∧
    (s₂.apply (s₁.apply F fe).forest fe).answer = (s₂.apply F fe).answer ∧
    ∀ r₁ r₂ m₁ m₂, (s₁.apply F fe).answer = .ok r₁ → (s₂.apply (s₁.apply F fe).forest fe).answer = .ok r₂ →
      s₁.IsMask fe F.leaves m₁ → s₂.IsMask fe F.leaves m₂ →
      let union : Strategy P₁ N₁ := .flags (List.zipWith (· || ·) m₁ m₂)
      (∃ r, (union.apply F fe).answer = .ok r) ∧
        (union.apply F fe).forest = (s₂.apply (s₁.apply F fe).forest fe).forest := by
  refine ⟨?_, ?_, answer_apply, answer_apply, ?_⟩
  · rw [forest_apply, forest_apply]
    exact Forest.remark_markOn_congr fun l _ => by rw [List.mem_append, List.mem_append, or_comm]
  · rw [forest_apply, apply_forest]
    exact Forest.remark_markOn_congr fun l _ => by rw [List.mem_append, or_self]
  · intro r₁ r₂ m₁ m₂ accepted₁ accepted₂ mask₁ mask₂ union
    have planned₁ := plan_of_apply_isMask accepted₁ mask₁
    have planned₂ := plan_of_apply_isMask (answer_apply.symm.trans accepted₂) mask₂
    have same : (List.zipWith (· || ·) m₁ m₂).length = F.leaves.length := by
      rw [List.length_zipWith, mask₁.length, mask₂.length, Nat.min_self]
    have planned : union.plan F fe = .ok _ := plan_flags (within_of_plan planned₁) same
    obtain ⟨answer, forest⟩ := apply_of_plan planned
    refine ⟨⟨_, answer⟩, ?_⟩
    rw [forest, forest_apply, picked, picked, planned₁, planned₂]
    refine Forest.remark_markOn_congr fun l hl => ?_
    rw [List.mem_append]
    exact mem_qualified_union mask₁.length mask₂.length hl

end Strategy

/-- The threshold selects the second and third cell of the four, the prediction the first and third. -/
theorem Forest.flaggedQuad_united : let s₁ : Strategy Rat Rat := .threshold [0, 1, 5, 9] ⟨1 / 2, 1 / 2⟩
    let s₂ : Strategy Rat Rat := .prediction [1, 2, 1, 1] [2, 1, 2, 2]
    let both := (s₂.apply (s₁.apply flaggedQuad .twoElements).forest .twoElements).forest
    Reachable flaggedQuad ∧ (s₁.apply (s₂.apply flaggedQuad .twoElements).forest .twoElements).forest = both ∧
      ((.flags [true, true, true, false] : Strategy Rat Rat).apply flaggedQuad .twoElements).forest = both ∧
      both.leaves.map (·.future) = [some 1, some 1, some 0, some 1] := by
  intro s₁ s₂ both
  have accepted₁ : (s₁.apply flaggedQuad .twoElements).answer = .ok ⟨1, 1⟩ := by decide +kernel
  have accepted₂ : (s₂.apply (s₁.apply flaggedQuad .twoElements).forest .twoElements).answer = .ok ⟨1, 1⟩ := by
    decide +kernel
  have mask₁ : s₁.IsMask .twoElements flaggedQuad.leaves [false, true, true, false] :=
    Strategy.isMask_of_mask (F := flaggedQuad) (by decide +kernel) (by decide +kernel)
  have mask₂ : s₂.IsMask .twoElements flaggedQuad.leaves [true, false, true, false] :=
    Strategy.isMask_of_mask (F := flaggedQuad) (by decide +kernel) (by decide +kernel)
  obtain ⟨commutes, -, -, -, union⟩ := Strategy.apply_comm_idempotent s₁ s₂ flaggedQuad .twoElements
  exact ⟨.after _, commutes.symm, (union _ _ _ _ accepted₁ accepted₂ mask₁ mask₂).2, by decide +kernel⟩

end HpForest
