import HpForest.Proofs.Strategy.Mask

/-! # Ordered numbers

A threshold is compared with finite indicators, but it need not be finite itself: a difference can exceed the
range of the numbers, and a fraction of nothing of an infinite difference is no number. `Scalar.Ordered` is what the
thresholds ask of comparisons. The finite numbers are totally ordered, and other values may be infinite or compare
with nothing. Equal numbers need not be the same, as a zero and its negative are not.

Numbers that compare through their ranks in a linear order are ordered. -/

namespace HpForest
namespace Scalar
variable {N : Type} [Scalar N]

/-- No comparison tells the two numbers apart. -/
def Alike (x y : N) : Prop := ∀ t, lt t x = lt t y ∧ lt x t = lt y t

/-- The finite numbers are totally ordered. Those that are equal compare alike with every value, and so does what is
interpolated between them. -/
structure Ordered (N : Type) [Scalar N] : Prop extends Strict N where
  le_iff : ∀ {x y : N}, isFinite x = true → isFinite y = true → (le x y = true ↔ lt y x = false)
  eq_iff : ∀ {x y : N}, isFinite x = true → isFinite y = true → (eq x y = true ↔ lt x y = false ∧ lt y x = false)
  alike_of_eq : ∀ {x y : N}, isFinite x = true → isFinite y = true → eq x y = true → Alike x y
  interpolate : ∀ {f lo hi lo' hi' : N}, isFinite lo = true → isFinite hi = true → isFinite lo' = true →
    isFinite hi' = true → eq lo lo' = true → eq hi hi' = true → lt lo hi = true →
    Alike (lo + f * (hi - lo)) (lo' + f * (hi' - lo'))

namespace Ordered
variable {x y t : N}

/-- Where equal finite numbers are the same, a total order is all that is asked for. -/
theorem of_total (strict : Strict N)
    (le_iff : ∀ {x y : N}, isFinite x = true → isFinite y = true → (le x y = true ↔ lt y x = false))
    (eq_iff : ∀ {x y : N}, isFinite x = true → isFinite y = true → (eq x y = true ↔ x = y))
    (total : ∀ {x y : N}, isFinite x = true → isFinite y = true → lt x y = false → lt y x = false → x = y) :
    Ordered N where
  toStrict := strict
  le_iff := le_iff
  eq_iff hx hy := by
    rw [eq_iff hx hy]
    constructor
    · rintro rfl
      exact ⟨strict.irrefl _, strict.irrefl _⟩
    · rintro ⟨below, above⟩
      exact total hx hy below above
  alike_of_eq hx hy same := by
    rw [(eq_iff hx hy).mp same]
    exact fun _ => ⟨rfl, rfl⟩
  interpolate lo hi lo' hi' low high _ := by
    rw [(eq_iff lo lo').mp low, (eq_iff hi hi').mp high]
    exact fun _ => ⟨rfl, rfl⟩

theorem eq_self (order : Ordered N) (hx : isFinite x = true) : eq x x = true :=
  (order.eq_iff hx hx).mpr ⟨order.irrefl x, order.irrefl x⟩

theorem lt_or_eq_of_le (order : Ordered N) (hx : isFinite x = true) (hy : isFinite y = true) (le : le x y = true) :
    lt x y = true ∨ eq x y = true := by
  by_cases below : lt x y = true
  · exact Or.inl below
  · exact Or.inr ((order.eq_iff hx hy).mpr ⟨Bool.eq_false_iff.mpr below, (order.le_iff hx hy).mp le⟩)

/-- What lies below a number lies below every larger one, be it finite or not. -/
theorem lt_of_lt_of_le (order : Ordered N) (hx : isFinite x = true) (hy : isFinite y = true) (below : lt t x = true)
    (le : le x y = true) : lt t y = true := by
  rcases order.lt_or_eq_of_le hx hy le with less | same
  · exact order.trans t x y below less
  · rwa [← (order.alike_of_eq hx hy same t).1]

theorem lt_of_le_of_lt (order : Ordered N) (hx : isFinite x = true) (hy : isFinite y = true) (le : le x y = true)
    (above : lt y t = true) : lt x t = true := by
  rcases order.lt_or_eq_of_le hx hy le with less | same
  · exact order.trans x y t less above
  · rwa [(order.alike_of_eq hx hy same t).2]

end Ordered

theorem ordered_rat : Ordered Rat :=
  .of_total strict_rat (fun _ _ => by simp [le, lt]) (fun _ _ => beq_iff_eq)
    fun _ _ below above => le_antisymm (not_lt.mp (of_decide_eq_false above)) (not_lt.mp (of_decide_eq_false below))

/-! ### Ranks -/

/-- Values compare as their ranks do, and what has no rank compares with nothing. Finite numbers have a rank, and the
ranks of what is interpolated are those of the numbers between which it lies. -/
structure Ranked {α : Type} [LinearOrder α] (rank : N → Option α) : Prop where
  lt_iff : ∀ {x y : N}, lt x y = true ↔ ∃ a b, rank x = some a ∧ rank y = some b ∧ a < b
  le_iff : ∀ {x y : N}, le x y = true ↔ ∃ a b, rank x = some a ∧ rank y = some b ∧ a ≤ b
  eq_iff : ∀ {x y : N}, eq x y = true ↔ ∃ a b, rank x = some a ∧ rank y = some b ∧ a = b
  finite : ∀ {x : N}, isFinite x = true → ∃ a, rank x = some a
  interpolate : ∀ {f lo hi lo' hi' : N}, isFinite lo = true → isFinite hi = true → rank lo = rank lo' →
    rank hi = rank hi' → lt lo hi = true → rank (lo + f * (hi - lo)) = rank (lo' + f * (hi' - lo'))

namespace Ranked
variable {α : Type} [LinearOrder α] {rank : N → Option α} {x y : N}

theorem rank_eq (h : Ranked rank) (same : eq x y = true) : rank x = rank y := by
  obtain ⟨a, b, hx, hy, rfl⟩ := h.eq_iff.mp same
  rw [hx, hy]

theorem alike (h : Ranked rank) (same : rank x = rank y) : Alike x y := by
  intro t
  simp only [Bool.eq_iff_iff, h.lt_iff, same, and_self]

theorem ordered (h : Ranked rank) : Ordered N where
  irrefl x := by
    refine Bool.eq_false_iff.mpr fun below => ?_
    obtain ⟨a, b, ha, hb, less⟩ := h.lt_iff.mp below
    cases ha.symm.trans hb
    exact lt_irrefl a less
  trans x y z first second := by
    obtain ⟨a, b, ha, hb, below⟩ := h.lt_iff.mp first
    obtain ⟨b', c, hb', hc, above⟩ := h.lt_iff.mp second
    cases hb.symm.trans hb'
    exact h.lt_iff.mpr ⟨a, c, ha, hc, lt_trans below above⟩
  le_iff hx hy := by
    obtain ⟨a, ha⟩ := h.finite hx
    obtain ⟨b, hb⟩ := h.finite hy
    simp [← Bool.not_eq_true, h.le_iff, h.lt_iff, ha, hb]
  eq_iff hx hy := by
    obtain ⟨a, ha⟩ := h.finite hx
    obtain ⟨b, hb⟩ := h.finite hy
    simp only [← Bool.not_eq_true, h.eq_iff, h.lt_iff, ha, hb, Option.some.injEq, exists_eq_left', exists_and_left,
      not_lt]
    exact ⟨fun same => ⟨same.ge, same.le⟩, fun ⟨above, below⟩ => le_antisymm below above⟩
  alike_of_eq _ _ same := h.alike (h.rank_eq same)
  interpolate lo hi _ _ low high apart := h.alike (h.interpolate lo hi (h.rank_eq low) (h.rank_eq high) apart)

end Ranked

end Scalar
end HpForest
