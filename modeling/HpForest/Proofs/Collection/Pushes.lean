import HpForest.Proofs.Collection

/-! # Collections built push by push

A run of pushes appends a first part of the elements it is given and ends with that part or at a refusal. What is in the
collection is then always a first part of the whole list, so building the list at once is refused at the same element
with the same refusal, and is accepted exactly when every push was. -/

namespace HpForest

namespace Collection
variable {fe : Collection}

def singleton (x : Element) : Collection := ⟨[x], by simp, by simp⟩

/-! ### Runs of pushes -/

/-- What a run of pushes comes to: the indices of the elements that were accepted, the refusal that ended the run, if
one did, and the collection as it then stands. -/
structure Pushes where
  indices : List Nat
  refusal : Option AdaptError
  collection : Collection

/-- Pushes the elements one after the other, up to the first that is refused. -/
def pushEach (fe : Collection) : List Element → Pushes
  | [] => ⟨[], none, fe⟩
  | x :: rest =>
    match fe.pushOrKeep x with
    | (.ok index, grown) =>
      let later := grown.pushEach rest
      { later with indices := index :: later.indices }
    | (.error e, kept) => ⟨[], some e, kept⟩

/-- The end of a run of pushes that left over the given elements: there are none, or the first of them is refused. -/
inductive Pushes.Ends (run : Pushes) : List Element → Prop
  | accepted : run.refusal = none → run.Ends []
  | refused {x : Element} {later : List Element} {e : AdaptError} :
    run.refusal = some e → run.collection.push x = .error e → run.Ends (x :: later)

/-- A run of pushes appends a first part of the elements, at the next indices, and ends with it. -/
theorem pushEach_ends (fe : Collection) (xs : List Element) : ∃ accepted left, xs = accepted ++ left ∧
    (fe.pushEach xs).collection.elements = fe.elements ++ accepted ∧
    (fe.pushEach xs).indices = List.range' fe.size accepted.length ∧ (fe.pushEach xs).Ends left := by
  -- For every collection, since an accepted push hands on the grown one.
  induction xs generalizing fe with
  | nil => exact ⟨[], [], rfl, (List.append_nil _).symm, rfl, .accepted rfl⟩
  | cons x rest ih =>
    cases pushed : fe.push x with
    | ok grown =>
      have run : fe.pushEach (x :: rest) =
          { grown.pushEach rest with indices := fe.size :: (grown.pushEach rest).indices } := by
        rw [pushEach, pushOrKeep, pushed]
      obtain ⟨accepted, left, rfl, elements, indices, ends⟩ := ih grown
      rw [run]
      refine ⟨x :: accepted, left, rfl, ?_, ?_, ?_⟩
      · rw [elements, push_elements pushed, List.append_assoc, List.singleton_append]
      · rw [indices, push_size pushed, List.length_cons, List.range'_succ]
      · cases ends with
        | accepted none => exact .accepted none
        | refused some last => exact .refused some last
    | error e =>
      have run : fe.pushEach (x :: rest) = ⟨[], some e, fe⟩ := by rw [pushEach, pushOrKeep, pushed]
      rw [run]
      exact ⟨[], x :: rest, rfl, (List.append_nil _).symm, rfl, .refused rfl pushed⟩

namespace Pushes.Ends
variable {run : Pushes} {left : List Element}

/-- All elements at once are accepted if the run ends with them, and refused as it was if it ends before. -/
theorem ofList?_eq (ends : run.Ends left) :
    ofList? (run.collection.elements ++ left) = run.refusal.elim (.ok run.collection) .error := by
  cases ends with
  | accepted none => rw [none, List.append_nil, ofList?_elements, Option.elim]
  | refused some last => rw [some, ofList?_of_push_eq_error last, Option.elim]

/-- No longer first part of the elements is a collection. -/
theorem longest (ends : run.Ends left) {part : List Element} (isPart : part <+: run.collection.elements ++ left)
    (built : ofList? part = .ok fe) : part <+: run.collection.elements := by
  rcases List.prefix_or_prefix_of_prefix isPart (List.prefix_append _ left) with short | ⟨more, rfl⟩
  · exact short
  · -- A part beyond the run goes on with the element at which the run was refused.
    have more_left := (List.prefix_append_right_inj _).mp isPart
    cases ends with
    | accepted _ => rwa [List.append_nil] at isPart
    | refused _ last =>
      rcases List.prefix_cons_iff.mp more_left with rfl | ⟨later, rfl, -⟩
      · simp
      · rw [ofList?_of_push_eq_error last] at built
        cases built

end Pushes.Ends

/-! ### At once and push by push -/

/-- A list is a collection if it is not empty and its degrees ascend over all pairs of indices. Pushing its elements one
after the other onto the first comes to the same. If all are accepted, they have made the collection of the list; else
the refusal is that of the list, and the pushes have made the collection of the longest first part that is one. Either
way each accepted push has told the element's position in the list. Any collection, whichever way it was built, is that
of its elements and passes its check, and the neighbours of an element are in it, one of no higher and one of no lower
degree. -/
theorem ofList?_eq_pushEach :
    (∀ elements : List Element, (∃ fe, ofList? elements = .ok fe) ↔ elements ≠ [] ∧
      ∀ (i j : Nat) (hi : i < elements.length) (hj : j < elements.length), i < j →
        elements[i].degree ≤ elements[j].degree) ∧
    (∀ (x : Element) (rest : List Element), ofList? [x] = .ok (singleton x) ∧
      let run := (singleton x).pushEach rest
      ofList? (x :: rest) = run.refusal.elim (.ok run.collection) .error ∧
      run.indices = List.range' 1 (run.collection.size - 1) ∧
      run.collection.elements <+: x :: rest ∧ ofList? run.collection.elements = .ok run.collection ∧
      ∀ part fe, part <+: x :: rest → ofList? part = .ok fe → part <+: run.collection.elements) ∧
    ∀ fe : Collection, ofList? fe.elements = .ok fe ∧ fe.check = .ok () ∧ ∀ i, i < fe.size → ∃ lower upper k₀ k k₁,
      fe.subordinate i = .ok lower ∧ fe.superordinate i = .ok upper ∧ lower < fe.size ∧ upper < fe.size ∧
      fe.degree lower = .ok k₀ ∧ fe.degree i = .ok k ∧ fe.degree upper = .ok k₁ ∧ k₀ ≤ k ∧ k ≤ k₁ := by
  refine ⟨?pairs, ?pushes, ?sound⟩
  case pairs =>
    intro elements
    rw [exists_ofList?_eq_ok, List.pairwise_iff_getElem]
  case pushes =>
    intro x rest
    refine ⟨ofList?_elements (singleton x), ?_⟩
    intro run
    obtain ⟨accepted, left, rfl, elements, indices, ends⟩ := pushEach_ends (singleton x) rest
    have elements : run.collection.elements = x :: accepted := elements
    have whole : x :: (accepted ++ left) = run.collection.elements ++ left := by rw [elements, List.cons_append]
    rw [whole]
    refine ⟨ends.ofList?_eq, ?_, List.prefix_append _ left, ofList?_elements _, fun part fe => ends.longest⟩
    rw [size, elements]
    exact indices
  case sound =>
    intro fe
    exact ⟨ofList?_elements fe, fe.check_eq_ok, fun i => degree_neighbours⟩

/-- Five elements, the fourth of a lower degree than the third. -/
def dented : List Element :=
  [⟨"FE_Q(1)", 1⟩, ⟨"FE_Q(2)", 2⟩, ⟨"FE_DGQ(2)", 2⟩, ⟨"FE_DGQ(1)", 1⟩, ⟨"FE_Q(3)", 3⟩]

theorem dented_pushed : let run := (singleton ⟨"FE_Q(1)", 1⟩).pushEach (dented.drop 1)
    ofList? dented = .error (.decreasingDegree 3 1 2) ∧ run.refusal = some (.decreasingDegree 3 1 2) ∧
      run.indices = [1, 2] ∧ run.collection.elements = dented.take 3 ∧
      (∃ fe, ofList? (dented.take 3) = .ok fe) ∧ (∀ fe, ofList? (dented.take 4) ≠ .ok fe) ∧
      run.collection.check = .ok () ∧ ∃ lower upper k₀ k k₁, run.collection.subordinate 1 = .ok lower ∧
        run.collection.superordinate 1 = .ok upper ∧ run.collection.degree lower = .ok k₀ ∧
        run.collection.degree 1 = .ok k ∧ run.collection.degree upper = .ok k₁ ∧ k₀ ≤ k ∧ k ≤ k₁ := by
  intro run
  obtain ⟨pairs, pushes, sound⟩ := ofList?_eq_pushEach
  obtain ⟨-, built, indices, -, -, longest⟩ := pushes ⟨"FE_Q(1)", 1⟩ (dented.drop 1)
  have refusal : run.refusal = some (.decreasingDegree 3 1 2) := rfl
  have elements : run.collection.elements = dented.take 3 := rfl
  have ascends : (dented.take 3).Pairwise (·.degree ≤ ·.degree) := by decide
  obtain ⟨passes, -⟩ := (sound run.collection).2
  refine ⟨?_, refusal, indices, elements, ?_, fun fe accepted => ?_, passes, ?_⟩
  · exact built.trans (by rw [refusal]; rfl)
  · exact (pairs _).mpr ⟨by simp [dented], List.pairwise_iff_getElem.mp ascends⟩
  · have short := longest (dented.take 4) fe (List.take_prefix 4 dented) accepted
    exact absurd short.length_le (by decide)
  · obtain ⟨lower, upper, k₀, k, k₁, down, up, -, -, degrees⟩ := (sound run.collection).2.2 1 (by decide)
    exact ⟨lower, upper, k₀, k, k₁, down, up, degrees⟩

end Collection
end HpForest
