import HpForest.Proofs.Scalar.Floats
import Mathlib.Logic.Equiv.Defs

/-! # The classes of a threshold

The leaves flagged for refinement and those flagged for coarsening do not influence each other. Which leaves of a
class a threshold picks depends on the fraction of the class and on which indicators the class has, and on nothing
else: not on their order, and not on the indicators of other leaves, be they numbers or not. Within a class a larger
indicator never counts against refinement, and a smaller one never against coarsening. -/

namespace HpForest

/-! ### What a strategy picks -/

namespace Strategy
variable {D : Nat} {P N : Type} {F : Forest D} {fe : Collection} {s : Strategy P N} {l : Leaf} {i : Nat}
  [Scalar P] [Scalar N] [RoundsTo P N] [RoundsTo.Total P N]

theorem apply_accepts_iff : (∃ report, (s.apply F fe).answer = .ok report) ↔ s.check F fe = .ok () := by
  constructor
  · rintro ⟨report, accepted⟩
    exact check_of_apply accepted
  · intro passed
    obtain ⟨m, masked, mask⟩ := exists_isMask passed
    exact ⟨_, (apply_of_plan (plan_of_mask passed ⟨m, masked⟩ mask)).1⟩

/-- An accepted strategy picks the flagged leaves that qualify. -/
theorem mem_picked (passed : s.check F fe = .ok ()) (hl : F.leaves[i]? = some l) :
    l.id ∈ s.picked F fe ↔ l.flag ≠ .none ∧ s.Qualifies fe F.leaves i l := by
  obtain ⟨m, masked, mask⟩ := exists_isMask passed
  have bound : i < m.length := mask.length.symm ▸ (List.getElem?_eq_some_iff.mp hl).1
  have verdict : m[i]? = some m[i] := List.getElem?_eq_getElem bound
  have entry : (F.leaves.zip m)[i]? = some (l, m[i]) := List.getElem?_zip_eq_some.mpr ⟨hl, verdict⟩
  rw [picked, plan_of_mask passed ⟨m, masked⟩ mask]
  show l.id ∈ (qualified F.leaves m).map (·.id) ↔ _
  rw [mem_qualified_ids Forest.nodup_leaves_ids mask.length (List.mem_of_getElem? entry), and_comm]
  exact and_congr_right fun flagged => mask.verdict hl verdict flagged

end Strategy

/-! ### The indicators of a class -/

section
variable {N : Type} {flag : HFlag} {leaves : List Leaf} {xs ys : List N} {x : N}

theorem mem_classValues : x ∈ classValues flag leaves xs ↔
    ∃ i : Nat, leaves[i]?.map Leaf.flag = some flag ∧ xs[i]? = some x := by
  simp only [classValues, List.mem_map, List.mem_filter, decide_eq_true_eq, Option.map_eq_some_iff]
  constructor
  · rintro ⟨⟨l, v⟩, ⟨h, flagged⟩, rfl⟩
    obtain ⟨i, entry⟩ := List.mem_iff_getElem?.mp h
    obtain ⟨hl, hx⟩ := List.getElem?_zip_eq_some.mp entry
    exact ⟨i, ⟨l, hl, flagged⟩, hx⟩
  · rintro ⟨i, ⟨l, hl, flagged⟩, hx⟩
    exact ⟨(l, x), ⟨List.mem_of_getElem? (List.getElem?_zip_eq_some.mpr ⟨hl, hx⟩), flagged⟩, rfl⟩

/-- Indicators that are moved within their class are still the indicators of the class. -/
theorem mem_classValues_moved {σ : Equiv.Perm ℕ}
    (keeps : ∀ i, leaves[σ i]?.map Leaf.flag = some flag ↔ leaves[i]?.map Leaf.flag = some flag)
    (moved : ∀ i, leaves[i]?.map Leaf.flag = some flag → ys[σ i]? = xs[i]?) :
    x ∈ classValues flag leaves ys ↔ x ∈ classValues flag leaves xs := by
  rw [mem_classValues, mem_classValues]
  constructor
  · rintro ⟨j, flagged, hx⟩
    obtain ⟨i, rfl⟩ := σ.surjective j
    have flagged' := (keeps i).mp flagged
    exact ⟨i, flagged', (moved i flagged').symm.trans hx⟩
  · rintro ⟨i, flagged, hx⟩
    exact ⟨σ i, (keeps i).mpr flagged, (moved i flagged).trans hx⟩

variable [Scalar N]

theorem checkFinite_eq_ok : checkFinite leaves xs = .ok () ↔
    ∀ (i : Nat) (l : Leaf) (x : N), leaves[i]? = some l → xs[i]? = some x → l.flag ≠ .none →
      Scalar.isFinite x = true := by
  have accepts : checkFinite leaves xs = .ok () ↔
      ∀ p ∈ leaves.zip xs, p.1.flag ≠ .none → Scalar.isFinite p.2 = true := by
    unfold checkFinite
    split
    · next found =>
      have offends := List.find?_some found
      refine iff_of_false nofun fun finite => ?_
      have := finite _ (List.mem_of_find?_eq_some found)
      simp_all
    · next none => simpa using none
  rw [accepts]
  constructor
  · intro finite i l x hl hx
    exact finite (l, x) (List.mem_of_getElem? (List.getElem?_zip_eq_some.mpr ⟨hl, hx⟩))
  · rintro finite ⟨l, x⟩ h
    obtain ⟨i, entry⟩ := List.mem_iff_getElem?.mp h
    obtain ⟨hl, hx⟩ := List.getElem?_zip_eq_some.mp entry
    exact finite i l x hl hx

theorem finite_classValues (finite : checkFinite leaves xs = .ok ()) (flagged : flag ≠ .none) :
    ∀ v ∈ classValues flag leaves xs, Scalar.isFinite v = true := by
  intro v hv
  obtain ⟨i, class_, hx⟩ := mem_classValues.mp hv
  obtain ⟨l, hl, rfl⟩ := Option.map_eq_some_iff.mp class_
  exact checkFinite_eq_ok.mp finite i l v hl hx flagged

end

/-! ### Thresholds between equal extremes -/

section
variable {P N : Type} [Scalar N] {flag : HFlag} {fraction : P} {values values' : List N} {lo hi t t' x y : N}

theorem Scalar.Alike.beyond_eq (alike : Scalar.Alike t t') : flag.beyond t x = flag.beyond t' x := by
  cases flag with
  | refine => exact (alike x).2
  | none | coarsen => exact (alike x).1

theorem exists_bound (order : Scalar.Ordered N) (nonempty : values ≠ []) : ∃ lo hi, Bound lo hi values := by
  obtain ⟨first, rest, rfl⟩ := List.exists_cons_of_ne_nil nonempty
  exact ⟨_, _, extremes_bound order.toStrict first rest⟩

variable [RoundsTo P N]

/-- Any two extremes of a class decide which indicators qualify, whichever of several equal ones are taken. -/
theorem qualifiesAmong_iff (order : Scalar.Ordered N) (finite : ∀ v ∈ values, Scalar.isFinite v = true)
    (bound : Bound lo hi values) : QualifiesAmong fraction flag values x ↔
      Scalar.eq lo hi = true ∨ BeyondThreshold fraction flag lo hi x := by
  obtain ⟨first, rest, rfl⟩ := List.exists_cons_of_ne_nil (List.ne_nil_of_mem bound.1)
  have bound' := extremes_bound order.toStrict first rest
  rw [qualifiesAmong_cons]
  show rest = [] ∨ Scalar.eq (extremes first rest).1 (extremes first rest).2 = true ∨
    BeyondThreshold fraction flag (extremes first rest).1 (extremes first rest).2 x ↔ _
  have single : rest = [] → Scalar.eq (extremes first rest).1 (extremes first rest).2 = true := by
    rintro rfl
    exact order.eq_self (finite first List.mem_cons_self)
  -- The extremes that are found equal the given ones, but as zeros do, they need not be the same.
  generalize (extremes first rest).1 = lo', (extremes first rest).2 = hi' at bound' single ⊢
  obtain ⟨hlo, hhi, within⟩ := bound
  obtain ⟨hlo', hhi', within'⟩ := bound'
  have low : Scalar.eq lo lo' = true :=
    (order.eq_iff (finite lo hlo) (finite lo' hlo')).mpr ⟨(within' lo hlo).1, (within lo' hlo').1⟩
  have high : Scalar.eq hi hi' = true :=
    (order.eq_iff (finite hi hhi) (finite hi' hhi')).mpr ⟨(within hi' hhi').2, (within' hi hhi).2⟩
  have same : Scalar.eq lo' hi' = true ↔ Scalar.eq lo hi = true := by
    have lows := order.alike_of_eq (finite lo hlo) (finite lo' hlo') low
    have highs := order.alike_of_eq (finite hi hhi) (finite hi' hhi') high
    rw [order.eq_iff (finite lo' hlo') (finite hi' hhi'), order.eq_iff (finite lo hlo) (finite hi hhi),
      ← (lows hi').2, ← (lows hi').1, ← (highs lo).1, ← (highs lo).2]
  by_cases coincide : Scalar.eq lo hi = true
  · exact iff_of_true (Or.inr (Or.inl (same.mpr coincide))) (Or.inl coincide)
  · have apart : Scalar.lt lo hi = true := by
      by_contra level
      refine coincide ((order.eq_iff (finite lo hlo) (finite hi hhi)).mpr ⟨Bool.eq_false_iff.mpr level, ?_⟩)
      exact (within hi hhi).1
    have thresholds : BeyondThreshold fraction flag lo hi x ↔ BeyondThreshold fraction flag lo' hi' x := by
      refine exists_congr fun f => and_congr_right fun _ => ?_
      have alike : Scalar.Alike (lo + f * (hi - lo)) (lo' + f * (hi' - lo')) :=
        order.interpolate (finite lo hlo) (finite hi hhi) (finite lo' hlo') (finite hi' hhi') low high apart
      rw [alike.beyond_eq]
    rw [thresholds, or_iff_right (mt single (mt same.mp coincide)), or_iff_right (mt same.mp coincide),
      or_iff_right coincide]

/-- Which indicators qualify depends only on the values that the class has. -/
theorem qualifiesAmong_congr (order : Scalar.Ordered N) (finite : ∀ v ∈ values, Scalar.isFinite v = true)
    (same : ∀ v, v ∈ values' ↔ v ∈ values) :
    QualifiesAmong fraction flag values x ↔ QualifiesAmong fraction flag values' x := by
  by_cases empty : values = []
  · have empty' : values' = [] := by
      rw [List.eq_nil_iff_forall_not_mem]
      intro v hv
      simpa [empty] using (same v).mp hv
    rw [empty, empty']
  · obtain ⟨lo, hi, bound⟩ := exists_bound order empty
    have bound' : Bound lo hi values' :=
      ⟨(same lo).mpr bound.1, (same hi).mpr bound.2.1, fun v hv => bound.2.2 v ((same v).mp hv)⟩
    rw [qualifiesAmong_iff order finite bound, qualifiesAmong_iff order (fun v hv => finite v ((same v).mp hv)) bound']

/-- The indicator lies at least as far in the direction that qualifies. -/
def HFlag.atLeast (flag : HFlag) (x y : N) : Bool :=
  match flag with
  | .refine => Scalar.le x y
  | _ => Scalar.le y x

theorem QualifiesAmong.mono (order : Scalar.Ordered N) (hx : Scalar.isFinite x = true) (hy : Scalar.isFinite y = true)
    (further : flag.atLeast x y = true) (qualifies : QualifiesAmong fraction flag values x) :
    QualifiesAmong fraction flag values y := by
  obtain ⟨first, rest, rfl, single | coincide | beyond⟩ := qualifies
  · exact ⟨first, rest, rfl, Or.inl single⟩
  · exact ⟨first, rest, rfl, Or.inr (Or.inl coincide)⟩
  · obtain ⟨f, converted, beyond⟩ := beyond
    refine ⟨first, rest, rfl, Or.inr (Or.inr ⟨f, converted, ?_⟩)⟩
    cases flag with
    | refine => exact order.lt_of_lt_of_le hx hy beyond further
    | none | coarsen => exact order.lt_of_le_of_lt hy hx further beyond

end

/-! ### The threshold strategy -/

namespace Strategy
variable {D : Nat} {P N : Type} {F : Forest D} {fe : Collection} {s s' : Strategy P N} {xs ys : List N}
  {o o' : ThresholdOptions P} {flag : HFlag} {l m : Leaf} {i j : Nat} {x y : N} {σ : Equiv.Perm ℕ}
  [Scalar P] [Scalar N]

theorem check_threshold : (threshold xs o).check F fe = .ok () ↔
    o.check = .ok () ∧ F.Within fe ∧ F.leaves.length = xs.length ∧ checkFinite F.leaves xs = .ok () := by
  have length : ((threshold xs o).lengths.forM fun x => x.1.checkLength F.leaves.length x.2) = .ok () ↔
      F.leaves.length = xs.length := by
    by_cases same : F.leaves.length = xs.length <;>
      simp [lengths, CellVector.checkLength, same, bind, Except.bind, pure, Except.pure]
  rw [← length, ← Forest.checkElements_eq_ok (F := F)]
  simp only [check, bind_eq_ok]
  constructor
  · rintro ⟨_, options, _, elements, _, lengths, indicators⟩
    exact ⟨options, elements, lengths, indicators⟩
  · rintro ⟨options, elements, lengths, indicators⟩
    exact ⟨_, options, _, elements, _, lengths, indicators⟩

/-- Indicators that are moved among leaves of the same flag are as acceptable as before. -/
theorem check_moved (keeps : ∀ i, F.leaves[σ i]?.map Leaf.flag = F.leaves[i]?.map Leaf.flag)
    (moved : ∀ i, ys[σ i]? = xs[i]?) (passed : (threshold xs o).check F fe = .ok ()) :
    (threshold ys o).check F fe = .ok () := by
  obtain ⟨options, within, length, finite⟩ := check_threshold.mp passed
  have ends (i : Nat) : F.leaves.length ≤ i ↔ ys.length ≤ i := by
    obtain ⟨i, rfl⟩ := σ.surjective i
    rw [← List.getElem?_eq_none_iff, ← Option.map_eq_none_iff (f := Leaf.flag), keeps, Option.map_eq_none_iff,
      List.getElem?_eq_none_iff, length, ← List.getElem?_eq_none_iff, ← List.getElem?_eq_none_iff, moved]
  refine check_threshold.mpr ⟨options, within, eq_of_forall_ge_iff ends, checkFinite_eq_ok.mpr fun i m y hm hy => ?_⟩
  obtain ⟨i, rfl⟩ := σ.surjective i
  have flags := keeps i
  rw [hm, Option.map_some, eq_comm] at flags
  obtain ⟨l, hl, same⟩ := Option.map_eq_some_iff.mp flags
  rw [← same]
  exact checkFinite_eq_ok.mp finite i l y hl ((moved i).symm.trans hy)

variable [RoundsTo P N]

/-- A leaf on which two strategies agree is left the same by both. -/
theorem leaf?_apply_congr (hl : F.leaf? l.id = some l) (same : l.id ∈ s.picked F fe ↔ l.id ∈ s'.picked F fe) :
    (s.apply F fe).forest.leaf? l.id = (s'.apply F fe).forest.leaf? l.id := by
  have markers : l.scheduledOn fe (s.picked F fe) = l.scheduledOn fe (s'.picked F fe) := if_congr same rfl rfl
  rw [apply_forest, apply_forest, Forest.leaf?_remark_of_leaf? hl, Forest.leaf?_remark_of_leaf? hl, markers]

variable [RoundsTo.Total P N]

theorem mem_picked_threshold (passed : (threshold xs o).check F fe = .ok ()) (hl : F.leaves[i]? = some l)
    (hx : xs[i]? = some x) : l.id ∈ (threshold xs o).picked F fe ↔
      l.flag ≠ .none ∧ QualifiesAmong (o.fraction l.flag) l.flag (classValues l.flag F.leaves xs) x := by
  rw [mem_picked passed hl]
  simp only [Qualifies, hx, Option.some.injEq, exists_eq_left']

/-- When the indicators of a class move within it, so does what is picked of the class. -/
theorem mem_picked_moved (order : Scalar.Ordered N) (passed : (threshold xs o).check F fe = .ok ())
    (passed' : (threshold ys o').check F fe = .ok ()) (fraction : o'.fraction flag = o.fraction flag)
    (keeps : ∀ i, F.leaves[σ i]?.map Leaf.flag = some flag ↔ F.leaves[i]?.map Leaf.flag = some flag)
    (moved : ∀ i, F.leaves[i]?.map Leaf.flag = some flag → ys[σ i]? = xs[i]?)
    (hl : F.leaves[i]? = some l) (hm : F.leaves[σ i]? = some m) (member : l.flag = flag) :
    l.id ∈ (threshold xs o).picked F fe ↔ m.id ∈ (threshold ys o').picked F fe := by
  have here : F.leaves[i]?.map Leaf.flag = some flag := by rw [hl, Option.map_some, member]
  have there : m.flag = flag := by simpa [hm] using (keeps i).mpr here
  rw [mem_picked passed hl, mem_picked passed' hm, member, there]
  refine and_congr_right fun flagged => ?_
  have finite := finite_classValues (check_threshold.mp passed).2.2.2 flagged
  have same (x : N) : QualifiesAmong (o.fraction flag) flag (classValues flag F.leaves xs) x ↔
      QualifiesAmong (o'.fraction flag) flag (classValues flag F.leaves ys) x := by
    rw [fraction]
    exact qualifiesAmong_congr order finite fun _ => mem_classValues_moved keeps moved
  simp only [Qualifies, member, there, moved i here, same]

theorem mem_picked_mono (order : Scalar.Ordered N) (passed : (threshold xs o).check F fe = .ok ())
    (hl : F.leaves[i]? = some l) (hm : F.leaves[j]? = some m) (hx : xs[i]? = some x) (hy : xs[j]? = some y)
    (member : m.flag = l.flag) (further : l.flag.atLeast x y = true) (picks : l.id ∈ (threshold xs o).picked F fe) :
    m.id ∈ (threshold xs o).picked F fe := by
  obtain ⟨flagged, qualifies⟩ := (mem_picked_threshold passed hl hx).mp picks
  have finite := checkFinite_eq_ok.mp (check_threshold.mp passed).2.2.2
  rw [mem_picked_threshold passed hm hy, member]
  exact ⟨flagged, qualifies.mono order (finite i l x hl hx flagged) (finite j m y hm hy (member ▸ flagged)) further⟩

/-- A threshold decides about each class by itself. Two accepted runs with the same fraction and the same indicators
of a class leave the leaves of the class the same, whatever the rest is. In a class the leaves with the larger
indicators are picked first for refinement, and those with the smaller ones first for coarsening. What is picked moves
along when indicators are moved within the classes. -/
theorem threshold_classes_apart (order : Scalar.Ordered N) (F : Forest D) (fe : Collection) (xs : List N)
    (o : ThresholdOptions P) {report : AssignmentReport}
    (accepted : ((threshold xs o).apply F fe).answer = .ok report) :
    ((threshold xs o).apply F fe).forest = F.remark (Leaf.scheduledOn fe ((threshold xs o).picked F fe)) ∧
    (∀ (ys : List N) (o' : ThresholdOptions P) (report' : AssignmentReport) (flag : HFlag),
      ((threshold ys o').apply F fe).answer = .ok report' → o'.fraction flag = o.fraction flag →
      (∀ (i : Nat) (l : Leaf), F.leaves[i]? = some l → l.flag = flag → ys[i]? = xs[i]?) →
      ∀ l ∈ F.leaves, l.flag = flag →
        (l.id ∈ (threshold xs o).picked F fe ↔ l.id ∈ (threshold ys o').picked F fe) ∧
        ((threshold xs o).apply F fe).forest.leaf? l.id = ((threshold ys o').apply F fe).forest.leaf? l.id) ∧
    (∀ (i j : Nat) (l m : Leaf) (x y : N), F.leaves[i]? = some l → F.leaves[j]? = some m → xs[i]? = some x →
      xs[j]? = some y → m.flag = l.flag → l.flag.atLeast x y = true →
      l.id ∈ (threshold xs o).picked F fe → m.id ∈ (threshold xs o).picked F fe) ∧
    ∀ (σ : Equiv.Perm ℕ) (ys : List N), (∀ i, F.leaves[σ i]?.map Leaf.flag = F.leaves[i]?.map Leaf.flag) →
      (∀ i, ys[σ i]? = xs[i]?) →
      (∃ report', ((threshold ys o).apply F fe).answer = .ok report') ∧
      ∀ (i : Nat) (l m : Leaf), F.leaves[i]? = some l → F.leaves[σ i]? = some m →
        (l.id ∈ (threshold xs o).picked F fe ↔ m.id ∈ (threshold ys o).picked F fe) := by
  have passed := check_of_apply accepted
  refine ⟨apply_forest, ?apart, ?monotone, ?moved⟩
  case apart =>
    intro ys o' report' flag accepted' fraction agree l hl member
    obtain ⟨i, entry⟩ := List.mem_iff_getElem?.mp hl
    have unmoved : ∀ i, F.leaves[i]?.map Leaf.flag = some flag → ys[Equiv.refl ℕ i]? = xs[i]? := by
      intro i here
      obtain ⟨l, hl, member⟩ := Option.map_eq_some_iff.mp here
      exact agree i l hl member
    have same := mem_picked_moved (σ := Equiv.refl ℕ) order passed (check_of_apply accepted') fraction
      (fun _ => Iff.rfl) unmoved entry entry member
    exact ⟨same, leaf?_apply_congr (Forest.mem_leaves_iff.mp hl) same⟩
  case monotone =>
    intro i j l m x y hl hm hx hy member further picks
    exact mem_picked_mono order passed hl hm hx hy member further picks
  case moved =>
    intro σ ys keeps moved
    have passed' : (threshold ys o).check F fe = .ok () := check_moved keeps moved passed
    refine ⟨apply_accepts_iff.mpr passed', fun i l m hl hm => ?_⟩
    exact mem_picked_moved order passed passed' rfl (fun i => by rw [keeps]) (fun i _ => moved i) hl hm rfl

end Strategy

/-- Three roots flagged for refinement, two for coarsening and one without a flag. -/
def Forest.flaggedRow : Forest 1 := after ([.addRoot 0, .addRoot 0, .addRoot 0, .addRoot 0, .addRoot 0, .addRoot 0,
  .setFlag ⟨0⟩ .refine, .setFlag ⟨1⟩ .refine, .setFlag ⟨2⟩ .refine, .setFlag ⟨3⟩ .coarsen,
  .setFlag ⟨4⟩ .coarsen] : List (Operation Float Float))

theorem Forest.flaggedRow_apart : let s : Strategy Float Float := .threshold [1, 2, 4, 8, 9, 0 / 0] ⟨0.25, 0.25⟩
    let other : Strategy Float Float := .threshold [1, 2, 4, 3, 3, 1 / 0] ⟨0.25, 1⟩
    let swapped : Strategy Float Float := .threshold [4, 2, 1, 8, 9, 0 / 0] ⟨0.25, 0.25⟩
    Reachable flaggedRow ∧ (s.apply flaggedRow .twoElements).answer = .ok ⟨2, 1⟩ ∧
      (other.apply flaggedRow .twoElements).answer = .ok ⟨2, 2⟩ ∧
      ⟨1⟩ ∈ s.picked flaggedRow .twoElements ∧ ⟨1⟩ ∈ other.picked flaggedRow .twoElements ∧
      ⟨2⟩ ∈ s.picked flaggedRow .twoElements ∧ ⟨0⟩ ∈ swapped.picked flaggedRow .twoElements := by
  intro s other swapped
  let root (n : Nat) (flag : HFlag) : Leaf := ⟨⟨n⟩, 0, none, 0, ⟨flag, none⟩⟩
  have row : flaggedRow.leaves = [root 0 .refine, root 1 .refine, root 2 .refine, root 3 .coarsen, root 4 .coarsen,
    root 5 .none] := by decide +kernel
  have accepted : (s.apply flaggedRow .twoElements).answer = .ok ⟨2, 1⟩ := by decide +kernel
  have accepted' : (other.apply flaggedRow .twoElements).answer = .ok ⟨2, 2⟩ := by decide +kernel
  have picks : ⟨1⟩ ∈ s.picked flaggedRow .twoElements := by decide +kernel
  obtain ⟨-, apart, monotone, moved⟩ :=
    Strategy.threshold_classes_apart Scalar.ordered_float flaggedRow .twoElements _ _ accepted
  rw [row] at apart monotone moved
  have agree : ∀ (i : Nat) (l : Leaf), [root 0 .refine, root 1 .refine, root 2 .refine, root 3 .coarsen,
      root 4 .coarsen, root 5 .none][i]? = some l → l.flag = .refine →
      ([1, 2, 4, 3, 3, 1 / 0] : List Float)[i]? = ([1, 2, 4, 8, 9, 0 / 0] : List Float)[i]? := by
    intro i l hl member
    rcases i with _ | _ | _ | i
    · simp only [List.getElem?_cons_zero]
    · simp only [List.getElem?_cons_succ, List.getElem?_cons_zero]
    · simp only [List.getElem?_cons_succ, List.getElem?_cons_zero]
    · have later : l ∈ [root 3 .coarsen, root 4 .coarsen, root 5 .none] := List.mem_of_getElem? (i := i) hl
      simp only [List.mem_cons, List.not_mem_nil, or_false] at later
      rcases later with rfl | rfl | rfl <;> cases member
  have exchange {α : Type} (a b c : α) (rest : List α) (i : Nat) :
      (c :: b :: a :: rest)[Equiv.swap 0 2 i]? = (a :: b :: c :: rest)[i]? := by
    rcases i with _ | _ | _ | i
    · rw [Equiv.swap_apply_left]; rfl
    · rw [Equiv.swap_apply_of_ne_of_ne (by omega) (by omega)]; rfl
    · rw [Equiv.swap_apply_right]; rfl
    · rw [Equiv.swap_apply_of_ne_of_ne (by omega) (by omega)]; rfl
  have keeps : ∀ i, [root 0 .refine, root 1 .refine, root 2 .refine, root 3 .coarsen, root 4 .coarsen,
      root 5 .none][Equiv.swap 0 2 i]?.map Leaf.flag = [root 0 .refine, root 1 .refine, root 2 .refine,
      root 3 .coarsen, root 4 .coarsen, root 5 .none][i]?.map Leaf.flag := by
    intro i
    rw [← List.getElem?_map, ← List.getElem?_map]
    exact exchange _ _ _ _ i
  have swaps := exchange (1 : Float) 2 4 [8, 9, 0 / 0]
  have larger : ⟨2⟩ ∈ s.picked flaggedRow .twoElements :=
    monotone 1 2 (root 1 .refine) (root 2 .refine) 2 4 rfl rfl rfl rfl rfl (by decide +kernel) picks
  refine ⟨.after _, accepted, accepted', picks, ?_, larger, ?_⟩
  · have same : (⟨0.25, 1⟩ : ThresholdOptions Float).fraction .refine =
        (⟨0.25, 0.25⟩ : ThresholdOptions Float).fraction .refine := by simp only [ThresholdOptions.fraction]
    exact (apart _ _ _ .refine accepted' same agree (root 1 .refine) (by simp) rfl).1.mp picks
  · exact ((moved (Equiv.swap 0 2) _ keeps swaps).2 2 (root 2 .refine) (root 0 .refine) rfl rfl).mp larger

end HpForest
