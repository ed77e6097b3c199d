import HpForest.Collection
import Mathlib.Data.List.Basic

/-! # Lists as collections

A list of elements is refused at its first descent, and a push by the last element alone. The two are the same test: an
element that is lower than the last one of a collection is the first descent of every list that goes on with it. Along a
collection the degrees ascend over all pairs of indices, not only between neighbours. -/

namespace HpForest

/-! ### Descents -/

namespace Descent

theorem first?_eq_none {start : Nat} {xs : List Element} :
    first? start xs = none ↔ xs.Pairwise (·.degree ≤ ·.degree) := by
  refine ⟨pairwise_of_first?_eq_none, fun ascends => ?_⟩
  induction xs generalizing start with
  | nil => rfl
  | cons a rest ih =>
    obtain ⟨above, tail⟩ := List.pairwise_cons.mp ascends
    cases rest with
    | nil => rfl
    | cons b rest =>
      rw [first?, if_neg (UInt32.not_lt.mpr (above b List.mem_cons_self))]
      exact ih tail

/-- An element below the last one of an ascending list is the first descent, whatever comes after it. -/
theorem first?_append {start : Nat} {xs later : List Element} {x : Element} (nonempty : xs ≠ [])
    (ascends : xs.Pairwise (·.degree ≤ ·.degree)) (lower : x.degree < (xs.getLast nonempty).degree) :
    first? start (xs ++ x :: later) = some ⟨start + xs.length, x.degree, (xs.getLast nonempty).degree⟩ := by
  induction xs generalizing start with
  | nil => exact absurd rfl nonempty
  | cons a rest ih =>
    obtain ⟨above, tail⟩ := List.pairwise_cons.mp ascends
    cases rest with
    | nil => exact if_pos lower
    | cons b rest =>
      have shift : start + 1 + (b :: rest).length = start + (a :: b :: rest).length := by
        simp only [List.length_cons]
        omega
      rw [List.cons_append, List.cons_append, first?, if_neg (UInt32.not_lt.mpr (above b List.mem_cons_self)),
        ← List.cons_append, ih (List.cons_ne_nil b rest) tail lower, List.getLast_cons_cons, shift]

end Descent

namespace Collection
variable {fe grown : Collection} {elements : List Element} {x : Element} {e : AdaptError} {i j : Nat} {k k' : UInt32}

/-! ### Lists -/

/-- A list is the collection of its elements if it is one at all. -/
theorem ofList?_eq_ok : ofList? elements = .ok fe ↔ fe.elements = elements := by
  unfold ofList?
  constructor
  · intro built
    split at built
    · cases built
    · split at built
      · cases built
      · cases built
        rfl
  · rintro rfl
    rw [dif_neg fe.nonempty]
    split
    · next d found =>
      rw [Descent.first?_eq_none.mpr fe.ordered] at found
      cases found
    · rfl

theorem ofList?_elements (fe : Collection) : ofList? fe.elements = .ok fe := ofList?_eq_ok.mpr rfl

theorem exists_ofList?_eq_ok :
    (∃ fe, ofList? elements = .ok fe) ↔ elements ≠ [] ∧ elements.Pairwise (·.degree ≤ ·.degree) := by
  constructor
  · rintro ⟨fe, built⟩
    obtain rfl := ofList?_eq_ok.mp built
    exact ⟨fe.nonempty, fe.ordered⟩
  · rintro ⟨nonempty, ascends⟩
    exact ⟨⟨elements, nonempty, ascends⟩, ofList?_eq_ok.mpr rfl⟩

theorem ofList?_eq_error {d : Descent} (nonempty : elements ≠ []) (first : Descent.first? 0 elements = some d) :
    ofList? elements = .error d.error := by
  rw [ofList?, dif_neg nonempty]
  split
  · next d' found =>
    rw [first] at found
    cases found
    rfl
  · next none =>
    rw [first] at none
    cases none

/-- A collection has none of the defects for which a list is refused. -/
theorem check_eq_ok (fe : Collection) : fe.check = .ok () := by
  rw [check, if_neg fe.nonempty, Descent.first?_eq_none.mpr fe.ordered]

/-! ### Pushes -/

theorem push_elements (pushed : fe.push x = .ok grown) : grown.elements = fe.elements ++ [x] := by
  unfold push at pushed
  split at pushed
  · cases pushed
  · cases pushed
    rfl

theorem push_size (pushed : fe.push x = .ok grown) : grown.size = fe.size + 1 := by
  rw [size, push_elements pushed]
  exact List.length_append

/-- A push that is refused gives the refusal of any list that goes on with the element. -/
theorem ofList?_of_push_eq_error (refused : fe.push x = .error e) (later : List Element) :
    ofList? (fe.elements ++ x :: later) = .error e := by
  unfold push at refused
  split at refused
  · next lower =>
    cases refused
    rw [ofList?_eq_error (by simp) (Descent.first?_append fe.nonempty fe.ordered lower), Nat.zero_add]
    rfl
  · cases refused

/-! ### Elements by index -/

theorem size_pos (fe : Collection) : 0 < fe.size := List.length_pos_iff.mpr fe.nonempty

theorem checkIndex_eq_ok (valid : i < fe.size) : fe.checkIndex i = .ok () := by
  simp [checkIndex, contains, valid]

theorem superordinate_eq_ok (valid : i < fe.size) : fe.superordinate i = .ok (min (i + 1) (fe.size - 1)) := by
  simp [superordinate, checkIndex_eq_ok valid, Except.map]

theorem subordinate_eq_ok (valid : i < fe.size) : fe.subordinate i = .ok (i - 1) := by
  simp [subordinate, checkIndex_eq_ok valid, Except.map]

theorem degree_eq_ok (valid : i < fe.size) : ∃ k, fe.degree i = .ok k := by
  refine ⟨(fe.elements.get ⟨i, valid⟩).degree, ?_⟩
  rw [degree, get, List.getElem?_eq_getElem valid]
  rfl

theorem exists_of_degree (found : fe.degree i = .ok k) :
    ∃ valid : i < fe.size, (fe.elements.get ⟨i, valid⟩).degree = k := by
  rw [degree, get] at found
  split at found
  · next x present =>
    obtain ⟨valid, rfl⟩ := List.getElem?_eq_some_iff.mp present
    cases found
    exact ⟨valid, rfl⟩
  · cases found

/-- Degrees ascend with the index, not only from one element to the next. -/
theorem degree_mono (le : i ≤ j) (found : fe.degree i = .ok k) (found' : fe.degree j = .ok k') : k ≤ k' := by
  rcases Nat.eq_or_lt_of_le le with rfl | less
  · rw [found] at found'
    cases found'
    exact UInt32.le_refl k
  · obtain ⟨valid, rfl⟩ := exists_of_degree found
    obtain ⟨valid', rfl⟩ := exists_of_degree found'
    exact List.pairwise_iff_getElem.mp fe.ordered i j valid valid' less

/-- The neighbours of an element are in the collection, one of no higher and one of no lower degree. -/
theorem degree_neighbours (valid : i < fe.size) : ∃ lower upper k₀ k k₁,
    fe.subordinate i = .ok lower ∧ fe.superordinate i = .ok upper ∧ lower < fe.size ∧ upper < fe.size ∧
    fe.degree lower = .ok k₀ ∧ fe.degree i = .ok k ∧ fe.degree upper = .ok k₁ ∧ k₀ ≤ k ∧ k ≤ k₁ := by
  have lower : i - 1 < fe.size := Nat.lt_of_le_of_lt (Nat.sub_le i 1) valid
  have upper : min (i + 1) (fe.size - 1) < fe.size :=
    Nat.lt_of_le_of_lt (Nat.min_le_right _ _) (Nat.sub_one_lt (Nat.ne_of_gt fe.size_pos))
  obtain ⟨k₀, below⟩ := degree_eq_ok lower
  obtain ⟨k, here⟩ := degree_eq_ok valid
  obtain ⟨k₁, above⟩ := degree_eq_ok upper
  have up : i ≤ min (i + 1) (fe.size - 1) := Nat.le_min.mpr ⟨Nat.le_succ i, Nat.le_sub_one_of_lt valid⟩
  exact ⟨_, _, k₀, k, k₁, subordinate_eq_ok valid, superordinate_eq_ok valid, lower, upper, below, here, above,
    degree_mono (Nat.sub_le i 1) below here, degree_mono up here above⟩

end Collection
end HpForest
