import HpForest.Proofs.Cycle

/-! # The contract of a strategy

A strategy asks for fractions in the unit interval, for elements of the collection, for vectors with one entry
per leaf and for finite indicators, in this order. `Strategy.contract` lists these requirements. The first one
that is not met decides the refusal, and a strategy that is refused has not touched the forest. When all are met
nothing after them fails: neither the judging of the leaves, nor a write, nor the decision of a cycle. -/

namespace HpForest

/-! ### Requirements -/

/-- What is asked of an argument, and the refusal that reports its failure. -/
structure Requirement where
  met : Bool
  refusal : AdaptError

namespace Requirement

/-- The refusal of the first requirement that is not met. -/
def firstRefusal (rs : List Requirement) : Option AdaptError := (rs.find? (!·.met)).map (·.refusal)

/-- Accepts when all requirements are met, else refuses for the first that is not. -/
def enforce (rs : List Requirement) : Except AdaptError Unit :=
  match firstRefusal rs with
  | none => .ok ()
  | some e => .error e

variable {rs rs' : List Requirement} {e : AdaptError}

theorem enforce_eq_error : enforce rs = .error e ↔ firstRefusal rs = some e := by
  unfold enforce
  split <;> simp_all

theorem enforce_eq_ok : enforce rs = .ok () ↔ firstRefusal rs = none := by
  unfold enforce
  split <;> simp_all

theorem met_of_enforce (accepted : enforce rs = .ok ()) {r : Requirement} (hr : r ∈ rs) : r.met = true := by
  have met := List.find?_eq_none.mp (Option.map_eq_none_iff.mp (enforce_eq_ok.mp accepted)) r hr
  simpa using met

theorem firstRefusal_append : firstRefusal (rs ++ rs') = (firstRefusal rs).or (firstRefusal rs') := by
  rw [firstRefusal, List.find?_append, Option.map_or, firstRefusal, firstRefusal]

theorem enforce_append : enforce (rs ++ rs') = (enforce rs >>= fun _ => enforce rs') := by
  cases first : firstRefusal rs with
  | none =>
    rw [enforce_eq_ok.mpr first, enforce, firstRefusal_append, first]
    rfl
  | some e =>
    rw [enforce_eq_error.mpr first, enforce, firstRefusal_append, first]
    rfl

theorem mem_of_firstRefusal (h : firstRefusal rs = some e) : ∃ r ∈ rs, r.refusal = e := by
  obtain ⟨r, found, rfl⟩ := Option.map_eq_some_iff.mp h
  exact ⟨r, List.mem_of_find?_eq_some found, rfl⟩

theorem firstRefusal_map {α : Type} (xs : List α) (r : α → Requirement) :
    firstRefusal (xs.map r) = (xs.find? fun x => !(r x).met).map fun x => (r x).refusal := by
  rw [firstRefusal, List.find?_map, Option.map_map]
  rfl

theorem forM_eq_enforce {α : Type} (xs : List α) (r : α → Requirement) :
    (xs.forM fun x => if (r x).met then .ok () else .error (r x).refusal) = enforce (xs.map r) := by
  induction xs with
  | nil => rfl
  | cons x rest ih =>
    show _ = enforce ([r x] ++ rest.map r)
    rw [enforce_append, ← ih]
    show ((if (r x).met then _ else _) >>= _) = _
    cases verdict : (r x).met <;> simp [enforce, firstRefusal, verdict]

end Requirement

/-! ### What a strategy asks for -/

/-- The fraction is in the closed unit interval. -/
def Parameter.unitInterval {P : Type} [Scalar P] (p : Parameter) (x : P) : Requirement :=
  ⟨Scalar.le Scalar.zero x && Scalar.le x Scalar.one, .fractionOutOfRange p (Scalar.toFloat x)⟩

/-- The collection has an element of the index. -/
def Collection.has (fe : Collection) (i : Nat) : Requirement := ⟨i < fe.size, .invalidElement i fe.size⟩

/-- The collection has the elements of all leaves, of each the one in use before the scheduled one. -/
def Forest.elementsIn {D : Nat} (F : Forest D) (fe : Collection) : List Requirement :=
  F.leaves.flatMap fun l => fe.has l.element :: (l.future.map fe.has).toList

/-- The vector of the given length has one entry per leaf. -/
def CellVector.covers (v : CellVector) (leaves : List Leaf) (found : Nat) : Requirement :=
  ⟨leaves.length = found, .lengthMismatch v leaves.length found⟩

/-- The indicator of the leaf is finite, if the leaf is flagged. -/
def Leaf.finite {N : Type} [Scalar N] (l : Leaf) (x : N) : Requirement :=
  ⟨l.flag = .none || Scalar.isFinite x, .nonFiniteIndicator .smoothness l.id⟩

namespace Strategy
variable {D : Nat} {P N : Type} {F : Forest D} {fe : Collection}

/-- Everything that a strategy asks of its arguments, in order. -/
def contract [Scalar P] [Scalar N] (F : Forest D) (fe : Collection) :
    Strategy P N → List Requirement
  | full => F.elementsIn fe
  | flags selected => F.elementsIn fe ++ [CellVector.pFlags.covers F.leaves selected.length]
  | threshold smoothness options =>
    [Parameter.refineFraction.unitInterval options.refineFraction,
        Parameter.coarsenFraction.unitInterval options.coarsenFraction] ++
      F.elementsIn fe ++ [CellVector.smoothness.covers F.leaves smoothness.length] ++
      (F.leaves.zip smoothness).map fun (l, x) => l.finite x
  | regularity sobolev => F.elementsIn fe ++ [CellVector.sobolev.covers F.leaves sobolev.length]
  | prediction errors predictions =>
    F.elementsIn fe ++ [CellVector.errors.covers F.leaves errors.length,
      CellVector.predictions.covers F.leaves predictions.length]

open Requirement

/-! Each part of the check enforces its part of the contract. -/

section
variable {s : Strategy P N} {leaves : List Leaf} {smoothness : List N} {o : ThresholdOptions P}

theorem checkElements_eq_enforce : F.checkElements fe = enforce (F.elementsIn fe) := by
  have indices : F.elementsIn fe = (F.leaves.flatMap Leaf.indices).map fe.has := by
    rw [List.map_flatMap]
    refine List.flatMap_congr fun l _ => ?_
    cases scheduled : l.future with
    | none => simp [Leaf.indices, show l.markers.future = none from scheduled]
    | some i => simp [Leaf.indices, show l.markers.future = some i from scheduled]
  rw [enforce, indices, firstRefusal_map]
  show F.checkElements fe = match Option.map _ ((F.leaves.flatMap Leaf.indices).find? fun i => !fe.contains i) with
    | none => .ok ()
    | some e => .error e
  unfold Forest.checkElements
  cases (F.leaves.flatMap Leaf.indices).find? fun i => !fe.contains i <;> rfl

theorem checkLengths_eq_enforce : (s.lengths.forM fun (v, found) => v.checkLength leaves.length found) =
    enforce (s.lengths.map fun (v, found) => v.covers leaves found) := by
  rw [← forM_eq_enforce]
  refine congrArg s.lengths.forM (funext fun (v, found) => ?_)
  by_cases same : leaves.length = found <;> simp [CellVector.checkLength, CellVector.covers, same]

theorem checkOptions_eq_enforce [Scalar P] : (threshold smoothness o).checkOptions = enforce
    [Parameter.refineFraction.unitInterval o.refineFraction, Parameter.coarsenFraction.unitInterval o.coarsenFraction] :=
  forM_eq_enforce o.entries fun x => x.1.unitInterval x.2

theorem checkFinite_eq_enforce [Scalar N] :
    checkFinite leaves smoothness = enforce ((leaves.zip smoothness).map fun x => x.1.finite x.2) := by
  have offends : (fun (l, x) => l.flag ≠ .none && !Scalar.isFinite x : Leaf × N → Bool) =
      fun x => !(x.1.finite x.2).met := by
    funext x
    simp [Leaf.finite]
  rw [enforce, firstRefusal_map, checkFinite, offends]
  cases (leaves.zip smoothness).find? fun x => !(x.1.finite x.2).met <;> rfl

end

section
variable {s : Strategy P N} {e : AdaptError} [Scalar P] [Scalar N]

theorem check_eq_enforce_append {options indicators : List Requirement} (first : s.checkOptions = enforce options)
    (last : s.checkIndicators F.leaves = enforce indicators) : s.check F fe = enforce
      (options ++ (F.elementsIn fe ++ (s.lengths.map (fun (v, found) => v.covers F.leaves found) ++ indicators))) := by
  rw [enforce_append, enforce_append, enforce_append, ← first, ← last, ← checkElements_eq_enforce,
    ← checkLengths_eq_enforce]
  rfl

/-- The check of a strategy enforces its contract. -/
theorem check_eq_enforce : s.check F fe = enforce (s.contract F fe) := by
  cases s with
  | threshold smoothness o =>
    rw [check_eq_enforce_append checkOptions_eq_enforce checkFinite_eq_enforce]
    simp [contract, lengths]
  | _ =>
    refine (check_eq_enforce_append (?_ : _ = enforce []) (?_ : _ = enforce [])).trans ?_
    · rfl
    · rfl
    · simp [contract, lengths]

theorem length_of_check {v : CellVector} {n : Nat} (passed : s.check F fe = .ok ()) (input : (v, n) ∈ s.lengths) :
    F.leaves.length = n := by
  obtain ⟨_, -, passed⟩ := bind_eq_ok.mp passed
  obtain ⟨_, -, passed⟩ := bind_eq_ok.mp passed
  obtain ⟨_, lengths, -⟩ := bind_eq_ok.mp passed
  rw [checkLengths_eq_enforce] at lengths
  have covers : v.covers F.leaves n ∈ s.lengths.map fun (v, found) => v.covers F.leaves found :=
    List.mem_map.mpr ⟨_, input, rfl⟩
  exact of_decide_eq_true (met_of_enforce lengths covers)

theorem check_flags {m : List Bool} (within : F.Within fe) (same : m.length = F.leaves.length) :
    (flags m : Strategy P N).check F fe = .ok () := by
  simp [check, checkOptions, Forest.checkElements_eq_ok.mpr within, lengths, CellVector.checkLength, same,
    checkIndicators, bind, Except.bind, pure, Except.pure]

/-! ### Refusals -/

theorem refusal_of_mem_contract {r : Requirement} (h : r ∈ s.contract F fe) :
    (∃ p x, r.refusal = .fractionOutOfRange p x) ∨ (∃ i, r.refusal = .invalidElement i fe.size) ∨
    (∃ v found, r.refusal = .lengthMismatch v F.leaves.length found) ∨
    ∃ id, r.refusal = .nonFiniteIndicator .smoothness id := by
  have element : r ∈ F.elementsIn fe → ∃ i, r.refusal = .invalidElement i fe.size := fun hr => by
    obtain ⟨l, -, hr⟩ := List.mem_flatMap.mp hr
    rcases List.mem_cons.mp hr with rfl | hr
    · exact ⟨l.element, rfl⟩
    · obtain ⟨i, -, rfl⟩ := Option.map_eq_some_iff.mp (Option.mem_toList.mp hr)
      exact ⟨i, rfl⟩
  cases s <;> simp only [contract, List.mem_append, List.mem_cons, List.not_mem_nil, or_false, List.mem_map] at h
  case full => exact Or.inr (Or.inl (element h))
  case threshold =>
    rcases h with (((rfl | rfl) | h) | rfl) | ⟨⟨l, x⟩, -, rfl⟩
    · exact Or.inl ⟨_, _, rfl⟩
    · exact Or.inl ⟨_, _, rfl⟩
    · exact Or.inr (Or.inl (element h))
    · exact Or.inr (Or.inr (Or.inl ⟨_, _, rfl⟩))
    · exact Or.inr (Or.inr (Or.inr ⟨l.id, rfl⟩))
  case prediction =>
    rcases h with h | rfl | rfl
    · exact Or.inr (Or.inl (element h))
    · exact Or.inr (Or.inr (Or.inl ⟨_, _, rfl⟩))
    · exact Or.inr (Or.inr (Or.inl ⟨_, _, rfl⟩))
  all_goals
    rcases h with h | rfl
    · exact Or.inr (Or.inl (element h))
    · exact Or.inr (Or.inr (Or.inl ⟨_, _, rfl⟩))

variable [RoundsTo P N]

theorem hpAdapt_eq_error (h : F.Linked) (d : Decision) :
    (F.hpAdapt fe s d).answer = .error e ↔ (s.apply F fe).answer = .error e := by
  cases applied : (s.apply F fe).answer with
  | error e' => simp [Forest.hpAdapt, Outcome.andThen, applied, Outcome.refuse]
  | ok report =>
    obtain ⟨summary, done⟩ := Forest.hpAdapt_accepts (d := d) h applied
    simp [done]

/-- A strategy refuses exactly for the first requirement of its contract that is not met, and has not touched
the forest then. Decisions refuse nothing, so a cycle refuses what its strategy refuses, with the forest untouched. -/
theorem apply_refuses_iff [RoundsTo.Total P N] (reached : Reachable F) (s : Strategy P N) (fe : Collection) :
    (∀ e, (s.apply F fe).answer = .error e ↔ firstRefusal (s.contract F fe) = some e) ∧
    (∀ e, (s.apply F fe).answer = .error e → (s.apply F fe).forest = F ∧
      ((∃ p x, e = .fractionOutOfRange p x) ∨ (∃ i, e = .invalidElement i fe.size) ∨
        (∃ v found, e = .lengthMismatch v F.leaves.length found) ∨ ∃ id, e = .nonFiniteIndicator .smoothness id)) ∧
    ∀ d : Decision, (∃ n, (d.apply F).answer = .ok n) ∧
      ∀ e, ((F.hpAdapt fe s d).answer = .error e ↔ (s.apply F fe).answer = .error e) ∧
        ((F.hpAdapt fe s d).answer = .error e → (F.hpAdapt fe s d).forest = F) := by
  have refuses : ∀ e, (s.apply F fe).answer = .error e ↔ firstRefusal (s.contract F fe) = some e := fun e => by
    rw [apply_eq_error, check_eq_enforce, enforce_eq_error]
  have untouched : ∀ e, (s.apply F fe).answer = .error e → (s.apply F fe).forest = F := fun e refused => by
    rw [apply_of_plan_error (plan_eq_error.mpr (apply_eq_error.mp refused))]
    rfl
  refine ⟨refuses, fun e refused => ⟨untouched e refused, ?_⟩, fun d => ⟨?_, fun e => ?_⟩⟩
  · obtain ⟨r, hr, rfl⟩ := mem_of_firstRefusal ((refuses e).mp refused)
    exact refusal_of_mem_contract hr
  · obtain ⟨n, accepted, -⟩ := Forest.decision_accepts reached.linked d
    exact ⟨n, accepted⟩
  · have same : (F.hpAdapt fe s d).answer = .error e ↔ (s.apply F fe).answer = .error e :=
      hpAdapt_eq_error reached.linked d
    refine ⟨same, fun refused => ?_⟩
    have applied := same.mp refused
    rw [Forest.hpAdapt, Outcome.andThen, applied]
    exact untouched e applied

end

end Strategy

/-- A split root with an element scheduled that a collection of two does not have. -/
def Forest.foreignPair : Forest 1 := after ([.addRoot 0, .refineCell ⟨0⟩, .setFuture ⟨2⟩ 7] : List (Operation Rat Rat))

theorem Forest.foreignPair_refused : let s : Strategy Rat Rat := .flags []
    Reachable foreignPair ∧ (s.contract foreignPair .twoElements).map (·.met) = [true, true, false, false] ∧
      (s.apply foreignPair .twoElements).answer = .error (.invalidElement 7 2) ∧
      (s.apply foreignPair .twoElements).forest = foreignPair ∧
      (foreignPair.hpAdapt .twoElements s .chooseP).answer = .error (.invalidElement 7 2) ∧
      (foreignPair.hpAdapt .twoElements s .chooseP).forest = foreignPair := by
  intro s
  have reached : Reachable foreignPair := .after _
  obtain ⟨refuses, untouched, cycle⟩ := Strategy.apply_refuses_iff reached s .twoElements
  have refused : (s.apply foreignPair .twoElements).answer = .error (.invalidElement 7 2) := (refuses _).mpr rfl
  have adapted := ((cycle .chooseP).2 _).1.mpr refused
  exact ⟨reached, rfl, refused, (untouched _ refused).1, adapted, ((cycle .chooseP).2 _).2 adapted⟩

end HpForest
