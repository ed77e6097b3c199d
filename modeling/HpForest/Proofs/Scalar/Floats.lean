import HpForest.Proofs.Scalar.Order
import Mathlib

/-! # Floats are ordered

Every float but the one that is no number has a rank: by sign and kind, then by exponent, then by mantissa. The two
zeros share one. Floats compare as their ranks do, and a threshold between two of them does not depend on which zero
stands for an extreme, so doubles and single floats are ordered. -/

namespace HpForest
namespace Scalar
open Float.Model
open UnpackedFloat (Sign)

/-- The place of a float among all floats. -/
def rank : UnpackedFloat → Option (Int ×ₗ Int ×ₗ Int)
  | .notANumber => none
  | .infinity s => some (toLex (s.apply 2, toLex (0, 0)))
  | .zero _ => some (toLex (0, toLex (0, 0)))
  | .finite s m e _ => some (toLex (s.apply 1, toLex (s.apply e, s.apply m)))

/-! ### Comparisons -/

section
variable {a b : UnpackedFloat}

theorem compare_eq_rank : a.compare b = (rank a).bind fun x => (rank b).map (compare x) := by
  rcases a with s | _ | s | ⟨s, m, e, _⟩ <;> rcases b with t | _ | t | ⟨t, n, f, _⟩ <;> (try cases s) <;> (try cases t)
  -- Only for two finite floats of one sign do exponents and mantissas count.
  case finite.finite.negative.negative =>
    have exponents : compare (-e) (-f) = (compare e f).swap := by
      simp only [← cmp_eq_compare, cmp_swap]
      exact StrictAnti.cmp_map_eq (fun _ _ => Int.neg_lt_neg) e f
    have mantissas : compare (-m : Int) (-n) = (compare m n).swap := by
      simp only [← cmp_eq_compare, cmp_swap]
      exact StrictAnti.cmp_map_eq (f := fun k : Nat => -(k : Int))
        (fun _ _ below => Int.neg_lt_neg (Int.ofNat_lt.mpr below)) m n
    show some _ = some ((compare (-e) (-f)).then (compare (-m : Int) (-n)))
    rw [exponents, mantissas, Ordering.swap_then]
  case finite.finite.positive.positive =>
    have mantissas : compare (m : Int) n = compare m n := by
      simp only [← cmp_eq_compare]
      exact StrictMono.cmp_map_eq (f := fun k : Nat => (k : Int)) (fun _ _ => Int.ofNat_lt.mpr) m n
    show some _ = some ((compare e f).then (compare (m : Int) n))
    rw [mantissas]
  all_goals rfl

theorem lt_iff_rank : a.lt b = true ↔ ∃ x y, rank a = some x ∧ rank b = some y ∧ x < y := by
  simp [UnpackedFloat.lt, compare_eq_rank, Option.bind_eq_some_iff, compare_lt_iff_lt]

theorem le_iff_rank : a.le b = true ↔ ∃ x y, rank a = some x ∧ rank b = some y ∧ x ≤ y := by
  simp only [UnpackedFloat.le, compare_eq_rank]
  cases rank a <;> cases rank b <;> simp [Ordering.isLE_iff_ne_gt, compare_gt_iff_gt]

theorem beq_iff_rank : a.beq b = true ↔ ∃ x y, rank a = some x ∧ rank b = some y ∧ x = y := by
  simp [UnpackedFloat.beq, compare_eq_rank, Option.bind_eq_some_iff, compare_eq_iff_eq]

theorem exists_rank (finite : a.isFinite = true) : ∃ x, rank a = some x := by
  cases a with
  | zero | finite => exact ⟨_, rfl⟩
  | infinity | notANumber => cases finite

/-- Finite floats of one rank are the same, but for zeros. -/
theorem eq_or_zeros (finite : a.isFinite = true) (same : rank a = rank b) :
    a = b ∨ ∃ s t, a = .zero s ∧ b = .zero t := by
  rcases a with s | _ | s | ⟨s, m, e, _⟩ <;> rcases b with t | _ | t | ⟨t, n, f, _⟩ <;> (try cases s) <;> (try cases t) <;>
    simp_all [rank, Sign.apply, UnpackedFloat.isFinite]

end

/-! ### Interpolation -/

section
variable (format : Format)

/-- The float as the format holds it. -/
def stored (a : UnpackedFloat) : UnpackedFloat := UnpackedFloat.unpack format (UnpackedFloat.pack format a)

theorem rank_stored_zero (s : Sign) : rank (stored format (.zero s)) = some (toLex (0, toLex (0, 0))) := by
  show rank (UnpackedFloat.unpack format (UnpackedFloat.packedZero format s)) = _
  rw [UnpackedFloat.unpack_packedZero]
  rfl

theorem rank_stored_add_zero (s t : Sign) (a : UnpackedFloat) :
    rank (stored format (.add format (.zero s) a)) = rank (stored format (.add format (.zero t) a)) := by
  cases a with
  | zero u =>
    simp only [UnpackedFloat.add]
    split <;> split <;> simp only [rank_stored_zero]
  | infinity | notANumber | finite => rfl

/-- What lies at the fraction of the way from one float to another, stored after each operation. -/
def interpolated (f lo hi : UnpackedFloat) : UnpackedFloat :=
  stored format (.add format lo (stored format (.mul format f (stored format (.sub format hi lo)))))

theorem rank_interpolated {f lo hi lo' hi' : UnpackedFloat} (finite : lo.isFinite = true) (finite' : hi.isFinite = true)
    (low : rank lo = rank lo') (high : rank hi = rank hi') (apart : lo.lt hi = true) :
    rank (interpolated format f lo hi) = rank (interpolated format f lo' hi') := by
  -- The extremes are apart, so at most one of them is a zero.
  rcases eq_or_zeros finite low with rfl | ⟨s, t, rfl, rfl⟩ <;>
    rcases eq_or_zeros finite' high with rfl | ⟨u, v, rfl, rfl⟩
  · rfl
  · cases lo with
    | finite => rfl
    | zero => cases apart
    | infinity | notANumber => cases finite
  · cases hi with
    | finite => exact rank_stored_add_zero format s t _
    | zero => cases apart
    | infinity | notANumber => cases finite'
  · cases apart

end

/-! ### Doubles and single floats -/

/-- The numbers are floats of the format, and their operations are those of the format. -/
structure AreFloats {N : Type} [Scalar N] (format : Format) (view : N → UnpackedFloat) : Prop where
  lt_eq : ∀ x y : N, lt x y = (view x).lt (view y)
  le_eq : ∀ x y : N, le x y = (view x).le (view y)
  eq_eq : ∀ x y : N, eq x y = (view x).beq (view y)
  isFinite_eq : ∀ x : N, isFinite x = (view x).isFinite
  interpolate_eq : ∀ f lo hi : N, view (lo + f * (hi - lo)) = interpolated format (view f) (view lo) (view hi)

theorem AreFloats.ordered {N : Type} [Scalar N] {format : Format} {view : N → UnpackedFloat}
    (h : AreFloats format view) : Ordered N := by
  have ranked : Ranked fun x : N => rank (view x) := {
    lt_iff := by
      intro x y
      rw [h.lt_eq, lt_iff_rank]
    le_iff := by
      intro x y
      rw [h.le_eq, le_iff_rank]
    eq_iff := by
      intro x y
      rw [h.eq_eq, beq_iff_rank]
    finite := by
      intro x finite
      rw [h.isFinite_eq] at finite
      exact exists_rank finite
    interpolate := by
      intro f lo hi lo' hi' finite finite' low high apart
      rw [h.isFinite_eq] at finite finite'
      rw [h.lt_eq] at apart
      rw [h.interpolate_eq, h.interpolate_eq]
      exact rank_interpolated format finite finite' low high apart }
  exact ranked.ordered

theorem decide_decide (b : Bool) : decide (decide (b = true) = true) = b := by simp

theorem areFloats_float : AreFloats .binary64 fun x : Float => x.toModel.unpack where
  lt_eq _ _ := decide_decide _
  le_eq _ _ := decide_decide _
  eq_eq _ _ := rfl
  isFinite_eq _ := rfl
  interpolate_eq _ _ _ := rfl

theorem areFloats_float32 : AreFloats .binary32 fun x : Float32 => x.toModel.unpack where
  lt_eq _ _ := decide_decide _
  le_eq _ _ := decide_decide _
  eq_eq _ _ := rfl
  isFinite_eq _ := rfl
  interpolate_eq _ _ _ := rfl

theorem ordered_float : Ordered Float := areFloats_float.ordered

theorem ordered_float32 : Ordered Float32 := areFloats_float32.ordered

end Scalar
end HpForest
