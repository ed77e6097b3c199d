import HpForest.Proofs.Strategy.Classes
import Mathlib.Algebra.Order.Field.Rat
import Mathlib.Tactic.Linarith
import Mathlib.Tactic.Ring

/-! # Exact thresholds

For rational indicators and fractions in the unit interval a threshold lies where its fraction says, between the
least and the greatest indicator of the class. The fraction alone then decides about the leaves at these two ends,
moving it adds leaves on the one side only, and the unit and the origin in which the indicators are measured do not
matter. -/

namespace HpForest

/-! ### Between two numbers -/

section
variable {f f' lo hi x : Rat}

theorem le_interpolated (nonneg : 0 ≤ f) (apart : lo < hi) : lo ≤ lo + f * (hi - lo) :=
  le_add_of_nonneg_right (mul_nonneg nonneg (sub_pos.mpr apart).le)

theorem lt_interpolated (positive : 0 < f) (apart : lo < hi) : lo < lo + f * (hi - lo) :=
  lt_add_of_pos_right lo (mul_pos positive (sub_pos.mpr apart))

theorem interpolated_le (le_one : f ≤ 1) (apart : lo < hi) : lo + f * (hi - lo) ≤ hi := by
  have part : f * (hi - lo) ≤ hi - lo := mul_le_of_le_one_left (sub_pos.mpr apart).le le_one
  linarith

theorem interpolated_lt (lt_one : f < 1) (apart : lo < hi) : lo + f * (hi - lo) < hi := by
  have part : f * (hi - lo) < hi - lo := mul_lt_of_lt_one_left (sub_pos.mpr apart) lt_one
  linarith

/-- The upper end is above the interpolated number unless the fraction is one, and the lower end never is. -/
theorem above_interpolated (unit : 0 ≤ f ∧ f ≤ 1) (apart : lo < hi) (below : x ≤ hi) :
    (x = lo → ¬lo + f * (hi - lo) < x) ∧ (f < 1 → x = hi → lo + f * (hi - lo) < x) ∧
      (f = 1 → ¬lo + f * (hi - lo) < x) ∧ (f = 0 → lo < x → lo + f * (hi - lo) < x) := by
  refine ⟨?lower, ?upper, ?one, ?zero⟩
  case lower =>
    rintro rfl
    exact not_lt.mpr (le_interpolated unit.1 apart)
  case upper =>
    rintro lt_one rfl
    exact interpolated_lt lt_one apart
  case one =>
    rintro rfl
    rw [one_mul, add_sub_cancel]
    exact not_lt.mpr below
  case zero =>
    rintro rfl above
    rwa [zero_mul, add_zero]

/-- The lower end is below the interpolated number unless the fraction is zero, and the upper end never is. -/
theorem below_interpolated (unit : 0 ≤ f ∧ f ≤ 1) (apart : lo < hi) (above : lo ≤ x) :
    (x = hi → ¬x < lo + f * (hi - lo)) ∧ (0 < f → x = lo → x < lo + f * (hi - lo)) ∧
      (f = 0 → ¬x < lo + f * (hi - lo)) ∧ (f = 1 → x < hi → x < lo + f * (hi - lo)) := by
  refine ⟨?upper, ?lower, ?zero, ?one⟩
  case upper =>
    rintro rfl
    exact not_lt.mpr (interpolated_le unit.2 apart)
  case lower =>
    rintro positive rfl
    exact lt_interpolated positive apart
  case zero =>
    rintro rfl
    rw [zero_mul, add_zero]
    exact not_lt.mpr above
  case one =>
    rintro rfl below
    rwa [one_mul, add_sub_cancel]

theorem interpolated_mono (le : f ≤ f') (apart : lo < hi) : lo + f * (hi - lo) ≤ lo + f' * (hi - lo) :=
  add_le_add_right (mul_le_mul_of_nonneg_right le (sub_pos.mpr apart).le) lo

end

/-! ### The threshold of a class -/

section
variable {f f' lo hi lo' hi' x : Rat} {flag : HFlag} {values : List Rat}

theorem bound_rat : Bound lo hi values ↔ lo ∈ values ∧ hi ∈ values ∧ ∀ x ∈ values, lo ≤ x ∧ x ≤ hi := by
  simp [Bound, Scalar.lt]

theorem Bound.unique (bound : Bound lo hi values) (bound' : Bound lo' hi' values) : lo' = lo ∧ hi' = hi := by
  obtain ⟨least, greatest, within⟩ := bound_rat.mp bound
  obtain ⟨least', greatest', within'⟩ := bound_rat.mp bound'
  exact ⟨le_antisymm (within' lo least).1 (within lo' least').1,
    le_antisymm (within hi' greatest').2 (within' hi greatest).2⟩

theorem Cutoff.ofValues_of_bound {p : Parameter} (bound : Bound lo hi values) (apart : lo < hi) :
    Cutoff.ofValues p f values = .ok (.value (lo + f * (hi - lo))) := by
  match values with
  | [] => exact absurd bound.1 List.not_mem_nil
  | [first] =>
    obtain ⟨least, greatest, -⟩ := bound
    rw [List.mem_singleton.mp least, List.mem_singleton.mp greatest] at apart
    exact absurd apart (lt_irrefl first)
  | first :: second :: rest =>
    obtain ⟨low, high⟩ := bound.unique (extremes_bound Scalar.strict_rat first (second :: rest))
    have different : Scalar.eq lo hi = false := beq_eq_false_iff_ne.mpr apart.ne
    simp only [ofValues, low, high, different]
    rfl

theorem qualifiesAmong_of_bound (bound : Bound lo hi values) (apart : lo < hi) :
    QualifiesAmong f flag values x ↔ flag.beyond (lo + f * (hi - lo)) x = true := by
  have beyond : BeyondThreshold f flag lo hi x ↔ flag.beyond (lo + f * (hi - lo)) x = true :=
    ⟨fun ⟨_, converted, beyond⟩ => Option.some.inj converted ▸ beyond, fun beyond => ⟨f, rfl, beyond⟩⟩
  rw [qualifiesAmong_iff Scalar.ordered_rat (fun _ _ => rfl) bound, beyond]
  exact or_iff_right (mt beq_iff_eq.mp apart.ne)

/-- What qualifies at one fraction qualifies at every fraction that asks for less. -/
theorem QualifiesAmong.loosen (looser : flag.atLeast f f' = true) (qualifies : QualifiesAmong f' flag values x) :
    QualifiesAmong f flag values x := by
  obtain ⟨first, rest, rfl, -⟩ := id qualifies
  have bound := extremes_bound Scalar.strict_rat first rest
  generalize (extremes first rest).1 = lo, (extremes first rest).2 = hi at bound
  obtain coincide | apart := (bound_rat.mp bound).2.2 lo bound.1 |>.2.eq_or_lt
  · exact (qualifiesAmong_iff Scalar.ordered_rat (fun _ _ => rfl) bound).mpr (Or.inl (beq_iff_eq.mpr coincide))
  · rw [qualifiesAmong_of_bound bound apart] at qualifies ⊢
    cases flag with
    | refine =>
      have lower : lo + f * (hi - lo) ≤ lo + f' * (hi - lo) := interpolated_mono (of_decide_eq_true looser) apart
      exact decide_eq_true (lower.trans_lt (of_decide_eq_true qualifies))
    | none | coarsen =>
      have higher : lo + f' * (hi - lo) ≤ lo + f * (hi - lo) := interpolated_mono (of_decide_eq_true looser) apart
      exact decide_eq_true ((of_decide_eq_true qualifies : x < _).trans_le higher)

end

/-! ### Changes of unit and origin -/

/-- Measuring in another unit and from another origin: the order stays, and what is interpolated between two numbers
is where it was between them. -/
structure Scalar.Rescales {N : Type} [Scalar N] (g : N → N) : Prop where
  lt_eq : ∀ x y : N, lt (g x) (g y) = lt x y
  eq_eq : ∀ x y : N, eq (g x) (g y) = eq x y
  isFinite_eq : ∀ x : N, isFinite (g x) = isFinite x
  interpolate : ∀ f lo hi : N, g lo + f * (g hi - g lo) = g (lo + f * (hi - lo))

theorem Scalar.rescales_rat {a : Rat} (positive : 0 < a) (b : Rat) : Rescales fun x : Rat => a * x + b where
  lt_eq x y := by simp [lt, positive]
  eq_eq x y := Bool.eq_iff_iff.mpr (by simp [eq, positive.ne'])
  isFinite_eq _ := rfl
  interpolate f lo hi := by ring

section
variable {P N : Type} {g : N → N} {f : P} {x : N} {flag : HFlag} {leaves : List Leaf} {xs values : List N}
  {o : ThresholdOptions P}

/-- The cutoff for indicators that are measured differently. -/
def Cutoff.map (g : N → N) : Cutoff N → Cutoff N
  | vacant => vacant
  | degenerate => degenerate
  | value t => value (g t)

def Cutoffs.map (g : N → N) (c : Cutoffs N) : Cutoffs N := ⟨c.refine.map g, c.coarsen.map g⟩

theorem Cutoffs.degenerateClasses_map (c : Cutoffs N) : (c.map g).degenerateClasses = c.degenerateClasses := by
  obtain ⟨refine, coarsen⟩ := c
  cases refine <;> cases coarsen <;> rfl

theorem classValues_map : classValues flag leaves (xs.map g) = (classValues flag leaves xs).map g := by
  simp [classValues, List.zip_map_right, List.filter_map, Function.comp_def]

variable [Scalar N]

theorem extremes_map (h : Scalar.Rescales g) (first : N) (rest : List N) :
    extremes (g first) (rest.map g) = (g (extremes first rest).1, g (extremes first rest).2) := by
  have least (m x : N) : (if Scalar.lt (g x) (g m) = true then g x else g m) = g (if Scalar.lt x m then x else m) := by
    rw [h.lt_eq, apply_ite g]
  have greatest (m x : N) : (if Scalar.lt (g m) (g x) = true then g x else g m) = g (if Scalar.lt m x then x else m) := by
    rw [h.lt_eq, apply_ite g]
  rw [extremes, List.foldl_map, List.foldl_map]
  exact Prod.ext (List.foldl_hom g least) (List.foldl_hom g greatest)

theorem Cutoff.passes_map (h : Scalar.Rescales g) (c : Cutoff N) : (c.map g).passes flag (g x) = c.passes flag x := by
  cases c with
  | vacant | degenerate => rfl
  | value t => cases flag <;> exact h.lt_eq _ _

theorem checkFinite_map (h : Scalar.Rescales g) : checkFinite leaves (xs.map g) = checkFinite leaves xs := by
  rw [Strategy.checkFinite_eq_enforce, Strategy.checkFinite_eq_enforce, List.zip_map_right, List.map_map]
  refine congrArg Requirement.enforce (List.map_congr_left fun x _ => ?_)
  simp [Leaf.finite, h.isFinite_eq]

variable [Scalar P] [RoundsTo P N]

theorem Cutoff.ofValues_map {p : Parameter} (h : Scalar.Rescales g) :
    Cutoff.ofValues p f (values.map g) = (Cutoff.ofValues p f values).map (Cutoff.map g) := by
  match values with
  | [] => rfl
  | [_] => rfl
  | first :: second :: rest =>
    have low_high := extremes_map h first (second :: rest)
    simp only [List.map_cons, ofValues] at low_high ⊢
    rw [low_high, h.eq_eq]
    split
    · rfl
    · cases converted : (RoundsTo.round? f : Option N) with
      | none => rfl
      | some t => exact congrArg (fun x => Except.ok (Cutoff.value x)) (h.interpolate t _ _)

theorem Cutoffs.ofLeaves_map (h : Scalar.Rescales g) :
    ofLeaves o leaves (xs.map g) = (ofLeaves o leaves xs).map (Cutoffs.map g) := by
  rw [ofLeaves, classValues_map, classValues_map, Cutoff.ofValues_map h, Cutoff.ofValues_map h, ofLeaves]
  cases Cutoff.ofValues .refineFraction o.refineFraction (classValues .refine leaves xs) with
  | error e => rfl
  | ok c => cases Cutoff.ofValues .coarsenFraction o.coarsenFraction (classValues .coarsen leaves xs) <;> rfl

theorem Cutoffs.passes_map (h : Scalar.Rescales g) (c : Cutoffs N) : (c.map g).passes flag (g x) = c.passes flag x := by
  cases flag <;> exact Cutoff.passes_map h _

end

namespace Strategy
variable {D : Nat} {P N : Type} {F : Forest D} {fe : Collection} {leaves : List Leaf} {xs : List N}
  {o : ThresholdOptions P} {g : N → N} [Scalar P] [Scalar N] [RoundsTo P N]

theorem mask_threshold_map (h : Scalar.Rescales g) :
    (threshold (xs.map g) o).mask fe leaves = (threshold xs o).mask fe leaves := by
  simp only [mask, judge, List.zip_map_right, List.mapM_map, Cutoffs.ofLeaves_map h]
  cases Cutoffs.ofLeaves o leaves xs with
  | error e => rfl
  | ok c =>
    refine congrArg (List.mapM · _) (funext fun x => ?_)
    show (if x.1.flag = .none then _ else Except.ok ((c.map g).passes x.1.flag (g x.2))) = _
    rw [Cutoffs.passes_map h]

/-- A threshold does the same in every unit and from every origin, degenerate classes and refusals included. -/
theorem apply_threshold_map (h : Scalar.Rescales g) :
    (threshold (xs.map g) o).apply F fe = (threshold xs o).apply F fe := by
  have check : (threshold (xs.map g) o).check F fe = (threshold xs o).check F fe := by
    show (o.check >>= fun _ => F.checkElements fe >>= fun _ =>
      (CellVector.smoothness.checkLength F.leaves.length (xs.map g).length >>= fun _ => pure ()) >>= fun _ =>
        checkFinite F.leaves (xs.map g)) = _
    rw [List.length_map, checkFinite_map h]
    rfl
  have plan : (threshold (xs.map g) o).plan F fe = (threshold xs o).plan F fe := by
    rw [Strategy.plan, Strategy.plan, check, mask_threshold_map h]
  have warnings : (threshold (xs.map g) o).warnings F.leaves = (threshold xs o).warnings F.leaves := by
    simp only [Strategy.warnings, Cutoffs.ofLeaves_map h]
    cases Cutoffs.ofLeaves o F.leaves xs with
    | error e => rfl
    | ok c => exact congrArg (List.map _) (Cutoffs.degenerateClasses_map c)
  simp only [apply, plan, warnings]
  rfl

/-! ### Rational indicators -/

section
variable {xs : List Rat} {o o' : ThresholdOptions Rat} {flag : HFlag} {l : Leaf} {i : Nat} {x lo hi : Rat}

theorem check_threshold_rat (unit : ∀ flag, 0 ≤ o.fraction flag ∧ o.fraction flag ≤ 1) (within : F.Within fe)
    (length : F.leaves.length = xs.length) : (threshold xs o).check F fe = .ok () := by
  have options : (threshold xs o).checkOptions = .ok () := by
    rw [checkOptions_eq_enforce, Requirement.enforce_eq_ok]
    have refine : (Parameter.refineFraction.unitInterval o.refineFraction).met = true :=
      Bool.and_eq_true_iff.mpr ((unit .refine).imp decide_eq_true decide_eq_true)
    have coarsen : (Parameter.coarsenFraction.unitInterval o.coarsenFraction).met = true :=
      Bool.and_eq_true_iff.mpr ((unit .coarsen).imp decide_eq_true decide_eq_true)
    simp [Requirement.firstRefusal, refine, coarsen]
  exact check_threshold.mpr ⟨options, within, length, checkFinite_eq_ok.mpr fun _ _ _ _ _ _ => rfl⟩

/-- Between different extremes, a leaf of the class is picked when its indicator is beyond the threshold. -/
theorem mem_picked_beyond (passed : (threshold xs o).check F fe = .ok ()) (hl : F.leaves[i]? = some l)
    (hx : xs[i]? = some x) (flagged : l.flag ≠ .none) (bound : Bound lo hi (classValues l.flag F.leaves xs))
    (apart : lo < hi) : l.id ∈ (threshold xs o).picked F fe ↔
      l.flag.beyond (lo + o.fraction l.flag * (hi - lo)) x = true := by
  rw [mem_picked_threshold passed hl hx, qualifiesAmong_of_bound bound apart]
  exact and_iff_right flagged

/-- The indicator of a leaf is between the extremes of its class. -/
theorem between_of_bound (bound : Bound lo hi (classValues flag F.leaves xs)) (hl : F.leaves[i]? = some l)
    (hx : xs[i]? = some x) (member : l.flag = flag) : lo ≤ x ∧ x ≤ hi := by
  refine (bound_rat.mp bound).2.2 x (mem_classValues.mpr ⟨i, ?_, hx⟩)
  rw [hl, Option.map_some, member]

theorem mem_picked_loosen (passed : (threshold xs o).check F fe = .ok ())
    (passed' : (threshold xs o').check F fe = .ok ()) (hl : l ∈ F.leaves)
    (looser : l.flag.atLeast (o.fraction l.flag) (o'.fraction l.flag) = true)
    (picks : l.id ∈ (threshold xs o').picked F fe) : l.id ∈ (threshold xs o).picked F fe := by
  obtain ⟨i, hl⟩ := List.mem_iff_getElem?.mp hl
  obtain ⟨flagged, x, hx, qualifies⟩ := (mem_picked passed' hl).mp picks
  exact (mem_picked passed hl).mpr ⟨flagged, x, hx, qualifies.loosen looser⟩

/-- An exact threshold lies in the range of its class, at the place of its fraction. One end of the range never
qualifies, and the other does unless the threshold is there; at the ends of the unit interval all but the one end
qualify, or none. A fraction that asks for more picks less, and what is picked depends neither on the unit nor on the
origin of the indicators. -/
theorem threshold_interpolates (F : Forest D) (fe : Collection) (xs : List Rat) (o : ThresholdOptions Rat)
    (unit : ∀ flag, 0 ≤ o.fraction flag ∧ o.fraction flag ≤ 1) (within : F.Within fe)
    (length : F.leaves.length = xs.length) :
    (∃ report, ((threshold xs o).apply F fe).answer = .ok report ∧
      ((threshold xs o).apply F fe).forest = F.remark (Leaf.scheduledOn fe ((threshold xs o).picked F fe))) ∧
    ∃ c : Cutoffs Rat, Cutoffs.ofLeaves o F.leaves xs = .ok c ∧
    (∀ lo hi, Bound lo hi (classValues .refine F.leaves xs) → lo < hi →
      ∃ t, c.refine = .value t ∧ lo ≤ t ∧ t ≤ hi ∧
        ∀ (i : Nat) (l : Leaf) (x : Rat), F.leaves[i]? = some l → xs[i]? = some x → l.flag = .refine →
          (l.id ∈ (threshold xs o).picked F fe ↔ t < x) ∧
          (x = lo → l.id ∉ (threshold xs o).picked F fe) ∧
          (o.refineFraction < 1 → x = hi → l.id ∈ (threshold xs o).picked F fe) ∧
          (o.refineFraction = 1 → l.id ∉ (threshold xs o).picked F fe) ∧
          (o.refineFraction = 0 → lo < x → l.id ∈ (threshold xs o).picked F fe)) ∧
    (∀ lo hi, Bound lo hi (classValues .coarsen F.leaves xs) → lo < hi →
      ∃ t, c.coarsen = .value t ∧ lo ≤ t ∧ t ≤ hi ∧
        ∀ (i : Nat) (l : Leaf) (x : Rat), F.leaves[i]? = some l → xs[i]? = some x → l.flag = .coarsen →
          (l.id ∈ (threshold xs o).picked F fe ↔ x < t) ∧
          (x = hi → l.id ∉ (threshold xs o).picked F fe) ∧
          (0 < o.coarsenFraction → x = lo → l.id ∈ (threshold xs o).picked F fe) ∧
          (o.coarsenFraction = 0 → l.id ∉ (threshold xs o).picked F fe) ∧
          (o.coarsenFraction = 1 → x < hi → l.id ∈ (threshold xs o).picked F fe)) ∧
    (∀ o' : ThresholdOptions Rat, (∀ flag, 0 ≤ o'.fraction flag ∧ o'.fraction flag ≤ 1) → ∀ l ∈ F.leaves,
      (l.flag = .refine → o.refineFraction ≤ o'.refineFraction →
        l.id ∈ (threshold xs o').picked F fe → l.id ∈ (threshold xs o).picked F fe) ∧
      (l.flag = .coarsen → o.coarsenFraction ≤ o'.coarsenFraction →
        l.id ∈ (threshold xs o).picked F fe → l.id ∈ (threshold xs o').picked F fe)) ∧
    ∀ a b : Rat, 0 < a → (threshold (xs.map (a * · + b)) o).apply F fe = (threshold xs o).apply F fe := by
  have passed := check_threshold_rat unit within length
  obtain ⟨c, cutoffs⟩ := exists_ofLeaves_eq_ok o F.leaves xs
  obtain ⟨refines, coarsens⟩ := Cutoffs.ofLeaves_eq_ok.mp cutoffs
  refine ⟨?accepted, c, cutoffs, ?refine, ?coarsen, ?monotone, ?rescaled⟩
  case accepted =>
    obtain ⟨report, accepted⟩ := apply_accepts_iff.mpr passed
    exact ⟨report, accepted, apply_forest⟩
  case refine =>
    intro lo hi bound apart
    obtain ⟨nonneg, le_one⟩ := unit .refine
    have threshold := Except.ok.inj (refines.symm.trans (Cutoff.ofValues_of_bound bound apart))
    refine ⟨_, threshold, le_interpolated nonneg apart, interpolated_le le_one apart, ?_⟩
    intro i l x hl hx flag
    have picks : l.id ∈ (Strategy.threshold xs o).picked F fe ↔ lo + o.refineFraction * (hi - lo) < x := by
      rw [mem_picked_beyond passed hl hx (by rw [flag]; nofun) (flag ▸ bound) apart, flag]
      exact decide_eq_true_iff
    rw [picks]
    exact ⟨Iff.rfl, above_interpolated (unit .refine) apart (between_of_bound bound hl hx flag).2⟩
  case coarsen =>
    intro lo hi bound apart
    obtain ⟨nonneg, le_one⟩ := unit .coarsen
    have threshold := Except.ok.inj (coarsens.symm.trans (Cutoff.ofValues_of_bound bound apart))
    refine ⟨_, threshold, le_interpolated nonneg apart, interpolated_le le_one apart, ?_⟩
    intro i l x hl hx flag
    have picks : l.id ∈ (Strategy.threshold xs o).picked F fe ↔ x < lo + o.coarsenFraction * (hi - lo) := by
      rw [mem_picked_beyond passed hl hx (by rw [flag]; nofun) (flag ▸ bound) apart, flag]
      exact decide_eq_true_iff
    rw [picks]
    exact ⟨Iff.rfl, below_interpolated (unit .coarsen) apart (between_of_bound bound hl hx flag).1⟩
  case monotone =>
    intro o' unit' l hl
    have passed' := check_threshold_rat unit' within length
    constructor
    · intro flag le picks
      exact mem_picked_loosen passed passed' hl (by rw [flag]; exact decide_eq_true le) picks
    · intro flag le picks
      exact mem_picked_loosen passed' passed hl (by rw [flag]; exact decide_eq_true le) picks
  case rescaled =>
    intro a b positive
    exact apply_threshold_map (Scalar.rescales_rat positive b)

end

end Strategy

theorem Forest.flaggedRow_interpolated : let s : Strategy Rat Rat := .threshold [1, 2, 4, 8, 9, 0] ⟨1 / 2, 0⟩
    let raised : Strategy Rat Rat := .threshold [1, 2, 4, 8, 9, 0] ⟨1, 1⟩
    Reachable flaggedRow ∧ (∃ report, (s.apply flaggedRow .twoElements).answer = .ok report) ∧
      ⟨0⟩ ∉ s.picked flaggedRow .twoElements ∧ ⟨2⟩ ∈ s.picked flaggedRow .twoElements ∧
      ⟨3⟩ ∉ s.picked flaggedRow .twoElements ∧ ⟨2⟩ ∉ raised.picked flaggedRow .twoElements ∧
      ⟨3⟩ ∈ raised.picked flaggedRow .twoElements ∧
      (Strategy.threshold [1, 3, 7, 15, 17, -1] ⟨1 / 2, 0⟩ : Strategy Rat Rat).apply flaggedRow .twoElements =
        s.apply flaggedRow .twoElements := by
  intro s raised
  let root (n : Nat) (flag : HFlag) : Leaf := ⟨⟨n⟩, 0, none, 0, ⟨flag, none⟩⟩
  have within : flaggedRow.Within .twoElements := Forest.checkElements_eq_ok.mp (by decide +kernel)
  have refine : Bound (1 : Rat) 4 (classValues .refine flaggedRow.leaves [1, 2, 4, 8, 9, 0]) :=
    extremes_bound Scalar.strict_rat 1 [2, 4]
  have coarsen : Bound (8 : Rat) 9 (classValues .coarsen flaggedRow.leaves [1, 2, 4, 8, 9, 0]) :=
    extremes_bound Scalar.strict_rat 8 [9]
  obtain ⟨⟨report, accepted, -⟩, _, -, above, below, -, rescaled⟩ :=
    Strategy.threshold_interpolates flaggedRow .twoElements [1, 2, 4, 8, 9, 0] ⟨1 / 2, 0⟩
      (by intro flag; cases flag <;> decide +kernel) within rfl
  obtain ⟨t, -, -, -, refined⟩ := above 1 4 refine (by decide +kernel)
  obtain ⟨u, -, -, -, coarsened⟩ := below 8 9 coarsen (by decide +kernel)
  obtain ⟨-, _, -, above', below', -, -⟩ := Strategy.threshold_interpolates flaggedRow .twoElements
    [1, 2, 4, 8, 9, 0] ⟨1, 1⟩ (by intro flag; cases flag <;> decide +kernel) within rfl
  obtain ⟨t', -, -, -, refined'⟩ := above' 1 4 refine (by decide +kernel)
  obtain ⟨u', -, -, -, coarsened'⟩ := below' 8 9 coarsen (by decide +kernel)
  have measured : [1, 3, 7, 15, 17, -1] = ([1, 2, 4, 8, 9, 0] : List Rat).map (2 * · + -1) := by decide +kernel
  refine ⟨.after _, ⟨report, accepted⟩, ?_, ?_, ?_, ?_, ?_, ?_⟩
  · exact (refined 0 (root 0 .refine) 1 rfl rfl rfl).2.1 rfl
  · exact (refined 2 (root 2 .refine) 4 rfl rfl rfl).2.2.1 (by decide +kernel) rfl
  · exact (coarsened 3 (root 3 .coarsen) 8 rfl rfl rfl).2.2.2.1 rfl
  · exact (refined' 2 (root 2 .refine) 4 rfl rfl rfl).2.2.2.1 rfl
  · exact (coarsened' 3 (root 3 .coarsen) 8 rfl rfl rfl).2.2.1 (by decide +kernel) rfl
  · rw [measured]
    exact rescaled 2 (-1) (by decide +kernel)

end HpForest
