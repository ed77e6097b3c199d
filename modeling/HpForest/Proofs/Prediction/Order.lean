import HpForest.Proofs.Prediction.Contract
import Mathlib.Algebra.Order.Field.Rat
import Mathlib.Algebra.Order.GroupWithZero.Basic

/-! # Predictions along the collection

In exact arithmetic a switch of elements multiplies the error by a factor that depends on the two degrees alone. The
degrees ascend with the index, so switching up predicts a smaller error and switching down a larger one, and the factor
of a detour is the factor of the way. The predictions of a split and of a merge undo each other. -/

namespace HpForest

open Requirement

/-! ### Degrees along the collection -/

namespace Collection
variable {fe : Collection} {i j : Nat}

/-- Degrees ascend throughout the collection, not only between neighbours. -/
theorem power_mono (le : i ≤ j) (valid : j < fe.size) : fe.power i ≤ fe.power j := by
  obtain ⟨k, degree, power, -⟩ := exists_element (le.trans_lt valid)
  obtain ⟨k', degree', power', -⟩ := exists_element valid
  rw [power, power']
  exact Int.ofNat_le.mpr (UInt32.le_iff_toNat_le.mp (degree_mono le degree degree'))

theorem degree_eq_iff (valid : i < fe.size) (valid' : j < fe.size) :
    fe.degree i = fe.degree j ↔ fe.power i = fe.power j := by
  obtain ⟨k, degree, power, -⟩ := exists_element valid
  obtain ⟨k', degree', power', -⟩ := exists_element valid'
  rw [degree, degree', power, power', Except.ok.injEq, Int.natCast_inj, UInt32.toNat_inj]

end Collection

/-! ### Accepted predictions -/

namespace Forest
variable {D : Nat} {F : Forest D} {fe : Collection} {o : PredictionOptions Rat} {l : Leaf} {error value : Rat}

/-- A prediction that gives the value for the leaf, if its error is the given one. -/
def Predicts (F : Forest D) (fe : Collection) (o : PredictionOptions Rat) (l : Leaf) (error value : Rat) : Prop :=
  ∃ (errors values : List Rat) (i : Nat), (F.predictError fe errors o).answer = .ok values ∧
    F.leaves[i]? = some l ∧ errors[i]? = some error ∧ values[i]? = some value

theorem within_of_predictError {errors values : List Rat} (h : (F.predictError fe errors o).answer = .ok values) :
    F.Within fe := by
  obtain ⟨_, -, h⟩ := bind_eq_ok.mp h
  obtain ⟨_, elements, -⟩ := bind_eq_ok.mp h
  exact checkElements_eq_ok.mp elements

theorem Predicts.valid (h : F.Predicts fe o l error value) : l.element < fe.size ∧ l.target < fe.size := by
  obtain ⟨errors, values, i, accepted, hl, -, -⟩ := h
  exact elements_of_within (within_of_predictError accepted) (List.mem_of_getElem? hl)

theorem Predicts.eq_entry (h : F.Predicts fe o l error value) :
    value = o.entry fe l.flag l.element l.target error := by
  obtain ⟨errors, values, i, accepted, hl, he, hv⟩ := h
  have pair : (F.leaves.zip errors)[i]? = some (l, error) := List.getElem?_zip_eq_some.mpr ⟨hl, he⟩
  rw [((predictError_enforces rfl).eq_ok.mp accepted).2, List.getElem?_map, pair] at hv
  exact (Option.some.inj hv).symm

theorem Predicts.eq_switch (h : F.Predicts fe o l error value) (flag : l.flag = .none)
    (switches : l.target ≠ l.element) : value = error * o.gammaP ^ (fe.power l.target - fe.power l.element) := by
  rw [h.eq_entry, flag, PredictionOptions.entry, if_neg switches, Scalar.powi_rat]

/-- With factors in range and degrees that are exponents, only element indices and the number of errors can be wrong. -/
theorem exists_predictError (small : ∀ x ∈ fe.elements, x.degree < 0x80000000) (gammaP : 0 < o.gammaP)
    (gammaH : 0 < o.gammaH) (gammaN : 0 < o.gammaN) (within : F.Within fe) {errors : List Rat}
    (length : F.leaves.length = errors.length) : ∃ values, (F.predictError fe errors o).answer = .ok values := by
  refine ⟨_, (predictError_enforces rfl).eq_ok.mpr ⟨firstRefusal_eq_none.mpr fun r hr => ?_, rfl⟩⟩
  have positive {p : Parameter} {x : Rat} (h : 0 < x) : (p.positiveFinite x).met = true := decide_eq_true h
  have exponent {i : Nat} (h : r ∈ fe.exponent i) : r.met = true := by
    obtain ⟨x, found, rfl⟩ := List.mem_map.mp h
    exact decide_eq_true (small x (List.mem_of_getElem? (Option.mem_toList.mp found)))
  simp only [PredictionOptions.contract, List.mem_append, List.mem_cons, List.not_mem_nil, or_false] at hr
  rcases hr with (rfl | rfl | rfl) | present | rfl | exponents
  · exact positive gammaP
  · exact positive gammaH
  · exact positive gammaN
  · exact met_of_enforce (Strategy.checkElements_eq_enforce.symm.trans (checkElements_eq_ok.mpr within)) present
  · exact decide_eq_true length
  · obtain ⟨l, -, asked⟩ := List.mem_flatMap.mp exponents
    rcases List.mem_append.mp asked with target | element
    · exact exponent target
    · split at element
      · exact exponent element
      · cases element

/-! ### Switches up and down -/

section
variable {g e : Rat} {n : Int}

theorem scaled_le (positive : 0 < g) (lt_one : g < 1) (nonneg : 0 ≤ e) (up : 0 ≤ n) : e * g ^ n ≤ e :=
  mul_le_of_le_one_right nonneg ((zpow_le_one_iff_right_of_lt_one₀ positive lt_one).mpr up)

theorem le_scaled (positive : 0 < g) (lt_one : g < 1) (nonneg : 0 ≤ e) (down : n ≤ 0) : e ≤ e * g ^ n :=
  le_mul_of_one_le_right nonneg ((one_le_zpow_iff_right_of_lt_one₀ positive lt_one).mpr down)

theorem scaled_eq (positive : 0 < g) (lt_one : g < 1) (apart : 0 < e) : e * g ^ n = e ↔ n = 0 := by
  rw [mul_eq_left₀ apart.ne', zpow_eq_one_iff_right₀ positive.le lt_one.ne]

end

/-- The factor of two switches in a row is that of the switch from the first element to the last. -/
theorem Predicts.switch_trans {G H : Forest D} {m n : Leaf} {value' direct : Rat} (nonzero : o.gammaP ≠ 0)
    (first : F.Predicts fe o l error value) (second : G.Predicts fe o m value value')
    (whole : H.Predicts fe o n error direct) (flags : l.flag = .none ∧ m.flag = .none ∧ n.flag = .none)
    (switches : l.target ≠ l.element ∧ m.target ≠ m.element ∧ n.target ≠ n.element)
    (chain : m.element = l.target) (ends : n.element = l.element ∧ n.target = m.target) : value' = direct := by
  obtain ⟨flag, flag', flag''⟩ := flags
  obtain ⟨switch, switch', switch''⟩ := switches
  calc value'
    _ = value * o.gammaP ^ (fe.power m.target - fe.power m.element) := second.eq_switch flag' switch'
    _ = error * o.gammaP ^ (fe.power l.target - fe.power l.element) *
          o.gammaP ^ (fe.power m.target - fe.power l.target) := by rw [first.eq_switch flag switch, chain]
    _ = error * o.gammaP ^ (fe.power m.target - fe.power l.element) := by
      rw [mul_assoc, ← zpow_add₀ nonzero, sub_add_sub_cancel']
    _ = direct := by rw [whole.eq_switch flag'' switch'', ends.1, ends.2]

theorem Predicts.switch_back {G : Forest D} {m : Leaf} {value' : Rat} (nonzero : o.gammaP ≠ 0)
    (first : F.Predicts fe o l error value) (second : G.Predicts fe o m value value')
    (flags : l.flag = .none ∧ m.flag = .none) (switches : l.target ≠ l.element)
    (back : m.element = l.target ∧ m.target = l.element) : value' = error := by
  have switch : m.target ≠ m.element := by
    rw [back.1, back.2]
    exact switches.symm
  rw [second.eq_switch flags.2 switch, first.eq_switch flags.1 switches, back.1, back.2, mul_assoc, ← zpow_add₀ nonzero,
    sub_add_sub_cancel, sub_self, zpow_zero, mul_one]

/-! ### Splits and merges -/

theorem scale_ne_zero (gammaH : 0 < o.gammaH) (k : Int) : o.gammaH * Scalar.powi half k ≠ 0 := by
  rw [Scalar.powi_rat, half_rat]
  exact mul_ne_zero gammaH.ne' (zpow_ne_zero k (by norm_num))

theorem Predicts.split_of_merge {G : Forest D} {m : Leaf} {value' : Rat} (gammaH : 0 < o.gammaH)
    (merged : F.Predicts fe o l error value) (split : G.Predicts fe o m value value')
    (flags : l.flag = .coarsen ∧ m.flag = .refine) (degree : fe.degree m.target = fe.degree l.target) : value' = error := by
  have power : fe.power m.target = fe.power l.target :=
    (Collection.degree_eq_iff split.valid.2 merged.valid.2).mp degree
  rw [split.eq_entry, merged.eq_entry, flags.1, flags.2, PredictionOptions.entry, PredictionOptions.entry, power]
  exact div_mul_cancel₀ error (scale_ne_zero gammaH _)

/-! ### The order of predictions -/

/-- In exact arithmetic, with all degrees exponents, a prediction succeeds on every forest whose elements are in the
collection. Switching up predicts no more than the error and switching down no less, and just the error only between
elements of the same degree. Switches compose, those there and back give back the error, and so do a merge and a split
at the same degree. -/
theorem predictions_ordered (fe : Collection) (o : PredictionOptions Rat)
    (small : ∀ x ∈ fe.elements, x.degree < 0x80000000) (gammaP : 0 < o.gammaP ∧ o.gammaP < 1) (gammaH : 0 < o.gammaH)
    (gammaN : 0 < o.gammaN) :
    (∀ (F : Forest D) (errors : List Rat), F.Within fe → F.leaves.length = errors.length →
      ∃ values, (F.predictError fe errors o).answer = .ok values) ∧
    (∀ (F : Forest D) (l : Leaf) (error value : Rat), F.Predicts fe o l error value → l.flag = .none →
      l.target ≠ l.element → 0 ≤ error →
      (l.element < l.target → value ≤ error) ∧ (l.target < l.element → error ≤ value) ∧
      (0 < error → (value = error ↔ fe.degree l.target = fe.degree l.element))) ∧
    (∀ (F G H : Forest D) (l m n : Leaf) (error value value' direct : Rat), F.Predicts fe o l error value →
      G.Predicts fe o m value value' → H.Predicts fe o n error direct →
      l.flag = .none ∧ m.flag = .none ∧ n.flag = .none →
      l.target ≠ l.element ∧ m.target ≠ m.element ∧ n.target ≠ n.element →
      m.element = l.target → n.element = l.element ∧ n.target = m.target → value' = direct) ∧
    (∀ (F G : Forest D) (l m : Leaf) (error value value' : Rat), F.Predicts fe o l error value →
      G.Predicts fe o m value value' → l.flag = .none ∧ m.flag = .none → l.target ≠ l.element →
      m.element = l.target ∧ m.target = l.element → value' = error) ∧
    (∀ k : Int, o.gammaH * Scalar.powi half k ≠ 0) ∧
    ∀ (F G : Forest D) (l m : Leaf) (error value value' : Rat), F.Predicts fe o l error value →
      G.Predicts fe o m value value' → l.flag = .coarsen ∧ m.flag = .refine →
      fe.degree m.target = fe.degree l.target → value' = error := by
  obtain ⟨positive, lt_one⟩ := gammaP
  refine ⟨?succeeds, ?ordered, ?composed, ?back, scale_ne_zero gammaH, ?undone⟩
  case succeeds =>
    intro F errors within length
    exact exists_predictError small positive gammaH gammaN within length
  case ordered =>
    intro F l error value predicted flag switches nonneg
    obtain ⟨element, target⟩ := predicted.valid
    rw [predicted.eq_switch flag switches]
    refine ⟨fun up => ?_, fun down => ?_, fun apart => ?_⟩
    · exact scaled_le positive lt_one nonneg (sub_nonneg.mpr (Collection.power_mono up.le target))
    · exact le_scaled positive lt_one nonneg (sub_nonpos.mpr (Collection.power_mono down.le element))
    · rw [scaled_eq positive lt_one apart, sub_eq_zero, Collection.degree_eq_iff target element]
  case composed =>
    intro F G H l m n error value value' direct first second whole flags switches chain ends
    exact first.switch_trans positive.ne' second whole flags switches chain ends
  case back =>
    intro F G l m error value value' first second flags switches back
    exact first.switch_back positive.ne' second flags switches back
  case undone =>
    intro F G l m error value value' merged split flags degree
    exact merged.split_of_merge gammaH split flags degree

end Forest

/-- Three elements, the last two of the same degree. -/
def Collection.plateau : Collection := ⟨[⟨"FE_Q(1)", 1⟩, ⟨"FE_Q(2)", 2⟩, ⟨"FE_DGQ(2)", 2⟩], by simp, by simp⟩

/-- Roots to be switched up, on the plateau, up past it and back down, then one to be merged and one to be split. -/
def Forest.switchingRow : Forest 1 := after ([.addRoot 0, .addRoot 1, .addRoot 0, .addRoot 1, .addRoot 1, .addRoot 1,
  .setFuture ⟨0⟩ 1, .setFuture ⟨1⟩ 2, .setFuture ⟨2⟩ 2, .setFuture ⟨3⟩ 0, .setFlag ⟨4⟩ .coarsen,
  .setFlag ⟨5⟩ .refine] : List (Operation Rat Rat))

theorem Forest.switchingRow_ordered : let o : PredictionOptions Rat := ⟨1 / 2, 2, 1⟩
    let root (n element : Nat) (flag : HFlag) (future : Option Nat) : Leaf := ⟨⟨n⟩, 0, none, element, ⟨flag, future⟩⟩
    Reachable switchingRow ∧
      (∃ values, (switchingRow.predictError .plateau [(8 : Rat), 4, 8, 4, 8, 16] o).answer = .ok values) ∧
      switchingRow.Predicts .plateau o (root 0 0 .none (some 1)) 8 4 ∧ (4 : Rat) ≤ 8 ∧
      Collection.plateau.degree 2 = Collection.plateau.degree 1 ∧
      (∀ direct, switchingRow.Predicts .plateau o (root 2 0 .none (some 2)) 8 direct → 4 = direct) ∧
      (∀ error, switchingRow.Predicts .plateau o (root 3 1 .none (some 0)) 4 error → error = 8) ∧
      o.gammaH * Scalar.powi half 2 ≠ 0 ∧
      ∀ error, switchingRow.Predicts .plateau o (root 5 1 .refine none) 16 error → error = 8 := by
  intro o root
  have answer : (switchingRow.predictError .plateau [8, 4, 8, 4, 8, 16] o).answer =
      .ok [(4 : Rat), 4, 4, 8, 16, 8] := by decide +kernel
  have within : switchingRow.Within .plateau := checkElements_eq_ok.mp (by decide +kernel)
  have up : switchingRow.Predicts .plateau o (root 0 0 .none (some 1)) 8 4 := ⟨_, _, 0, answer, rfl, rfl, rfl⟩
  have level : switchingRow.Predicts .plateau o (root 1 1 .none (some 2)) 4 4 := ⟨_, _, 1, answer, rfl, rfl, rfl⟩
  have merged : switchingRow.Predicts .plateau o (root 4 1 .coarsen none) 8 16 := ⟨_, _, 4, answer, rfl, rfl, rfl⟩
  obtain ⟨succeeds, ordered, composed, back, scale, undone⟩ := predictions_ordered (D := 1) .plateau o
    (by decide +kernel) (by decide +kernel) (by decide +kernel) (by decide +kernel)
  refine ⟨.after _, succeeds _ _ within rfl, up, ?_, ?_, fun direct whole => ?_, fun error down => ?_, scale 2,
    fun error split => ?_⟩
  · exact (ordered _ _ _ _ up rfl (by decide) (by decide +kernel)).1 (by decide)
  · exact ((ordered _ _ _ _ level rfl (by decide) (by decide +kernel)).2.2 (by decide +kernel)).mp rfl
  · exact composed _ _ _ _ _ _ _ _ _ _ up level whole ⟨rfl, rfl, rfl⟩ (by decide) rfl ⟨rfl, rfl⟩
  · exact back _ _ _ _ _ _ _ up down ⟨rfl, rfl⟩ (by decide) ⟨rfl, rfl⟩
  · exact undone _ _ _ _ _ _ _ merged split ⟨rfl, rfl⟩ rfl

end HpForest
