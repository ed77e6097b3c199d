import HpForest.Proofs.Prediction
import HpForest.Proofs.Strategy.Contract

/-! # The contract of the prediction

A prediction asks for factors that are positive and finite, for elements of the collection, for one error per leaf,
and for degrees that are exponents. `PredictionOptions.contract` lists these requirements in order, and the prediction
is nothing but enforcing them and then evaluating one formula per leaf. In the formula only degrees that have been
accepted as exponents are subtracted, and their difference is an exponent again. -/

namespace HpForest

/-! ### What a prediction asks for -/

def Parameter.positiveFinite {P : Type} [Scalar P] (p : Parameter) (x : P) : Requirement :=
  ⟨Scalar.isFinite x && Scalar.lt Scalar.zero x, .invalidFactor p (Scalar.toFloat x)⟩

/-- The degree of the element with the index is an exponent, if there is such an element. -/
def Collection.exponent (fe : Collection) (i : Nat) : List Requirement :=
  fe.elements[i]?.toList.map fun x => ⟨x.degree < 0x80000000, .degreeTooLarge x.degree⟩

/-- What the prediction asks of the degrees of a leaf: always of that after the execution, of the present one only if
the two are compared. -/
def Leaf.exponents (fe : Collection) (l : Leaf) : List Requirement :=
  fe.exponent l.target ++ if l.flag = .none ∧ l.target ≠ l.element then fe.exponent l.element else []

/-- Everything that a prediction from the given number of errors asks of its arguments, in order. -/
def PredictionOptions.contract {D : Nat} {P : Type} [Scalar P] (o : PredictionOptions P)
    (F : Forest D) (fe : Collection) (found : Nat) : List Requirement :=
  [Parameter.gammaP.positiveFinite o.gammaP, Parameter.gammaH.positiveFinite o.gammaH,
      Parameter.gammaN.positiveFinite o.gammaN] ++
    (F.elementsIn fe ++ ([CellVector.errors.covers F.leaves found] ++ F.leaves.flatMap (Leaf.exponents fe)))

/-- The degree of the element with the index as an exponent. -/
def Collection.power (fe : Collection) (i : Nat) : Int := fe.elements[i]?.elim 0 fun x => x.degree.toNat

/-- The predicted error of a cell with the given flag, element in use and element after the execution. -/
def PredictionOptions.entry {N : Type} [Scalar N] (o : PredictionOptions N) (fe : Collection) (flag : HFlag)
    (element target : Nat) (error : N) : N :=
  match flag with
  | .refine => error * (o.gammaH * Scalar.powi half (fe.power target))
  | .coarsen => error / (o.gammaH * Scalar.powi half (fe.power target))
  | .none =>
    if target = element then error * o.gammaN
    else error * Scalar.powi o.gammaP (fe.power target - fe.power element)

/-! ### Enforcing requirements -/

namespace Requirement
variable {α β : Type}

theorem firstRefusal_eq_none {rs : List Requirement} : firstRefusal rs = none ↔ ∀ r ∈ rs, r.met = true := by
  simp [firstRefusal]

/-- The computation comes to enforcing the requirements, and gives the value when they are met. -/
def Enforces (x : Except AdaptError α) (rs : List Requirement) (a : α) : Prop := x = (enforce rs).map fun _ => a

namespace Enforces
variable {x : Except AdaptError α} {f : α → Except AdaptError β} {rs rs' : List Requirement} {a : α} {b : β}

theorem ok (a : α) : Enforces (.ok a) [] a := rfl

theorem enforce (rs : List Requirement) : Enforces (enforce rs) rs () := by
  unfold Enforces
  cases Requirement.enforce rs <;> rfl

theorem bind (first : Enforces x rs a) (next : Requirement.enforce rs = .ok () → Enforces (f a) rs' b) :
    Enforces (x >>= f) (rs ++ rs') b := by
  unfold Enforces at *
  rw [first, enforce_append]
  cases met : Requirement.enforce rs with
  | error e => rfl
  | ok _ => exact next met

/-- A traversal whose steps enforce their requirements enforces those of all steps in order. -/
theorem mapM {r : α → List Requirement} {g : α → β} {xs : List α} (each : ∀ x ∈ xs, Enforces (f x) (r x) (g x)) :
    Enforces (xs.mapM f) (xs.flatMap r) (xs.map g) := by
  induction xs with
  | nil => exact ok []
  | cons x rest ih =>
    have tail := ih fun y hy => each y (List.mem_cons_of_mem x hy)
    rw [List.mapM_cons, List.flatMap_cons, List.map_cons, ← List.append_nil (rest.flatMap r)]
    exact (each x List.mem_cons_self).bind fun _ => tail.bind fun _ => ok _

theorem eq_error (h : Enforces x rs a) {e : AdaptError} : x = .error e ↔ firstRefusal rs = some e := by
  rw [h, ← enforce_eq_error]
  cases Requirement.enforce rs <;> simp [Except.map]

theorem eq_ok (h : Enforces x rs a) {a' : α} : x = .ok a' ↔ firstRefusal rs = none ∧ a' = a := by
  rw [h, ← enforce_eq_ok]
  cases Requirement.enforce rs <;> simp [Except.map, eq_comm]

end Enforces

end Requirement

open Requirement

/-! ### The prediction of a leaf -/

theorem degreeExponent_enforces (k : UInt32) :
    Enforces (degreeExponent k) [⟨k < 0x80000000, .degreeTooLarge k⟩] k.toNat := by
  unfold degreeExponent Enforces enforce firstRefusal
  by_cases small : k < 0x80000000
  · simp [small, Except.map]
  · simp [small, Except.map]

theorem degreeExponent_range {k : UInt32} {n : Int} (accepted : degreeExponent k = .ok n) : 0 ≤ n ∧ n < 2 ^ 31 := by
  obtain ⟨met, rfl⟩ := (degreeExponent_enforces k).eq_ok.mp accepted
  have small : k < 0x80000000 := of_decide_eq_true (met_of_enforce (enforce_eq_ok.mpr met) (List.mem_singleton.mpr rfl))
  have bound : k.toNat < 2 ^ 31 := UInt32.lt_iff_toNat_lt.mp small
  omega

/-- The difference of two exponents is the same in words of 32 bits as in the integers. -/
theorem degreeExponent_sub {j k : UInt32} {m n : Int} (accepted : degreeExponent j = .ok m)
    (accepted' : degreeExponent k = .ok n) : (Int32.ofInt m - Int32.ofInt n).toInt = m - n := by
  obtain ⟨nonneg, bound⟩ := degreeExponent_range accepted
  obtain ⟨nonneg', bound'⟩ := degreeExponent_range accepted'
  have size : Int32.size = 2 ^ 32 := rfl
  rw [Int32.toInt_sub, Int32.toInt_ofInt, Int32.toInt_ofInt, Int.bmod_sub_bmod, Int.sub_bmod_bmod]
  exact Int.bmod_eq_of_le (by omega) (by omega)

section
variable {N : Type} [Scalar N] {fe : Collection} {o : PredictionOptions N} {l : Leaf} {i : Nat} {error : N}

theorem Collection.exists_element (valid : i < fe.size) : ∃ k, fe.degree i = .ok k ∧ fe.power i = k.toNat ∧
    fe.exponent i = [⟨k < 0x80000000, .degreeTooLarge k⟩] := by
  have found : fe.elements[i]? = some (fe.elements.get ⟨i, valid⟩) := List.getElem?_eq_getElem valid
  refine ⟨(fe.elements.get ⟨i, valid⟩).degree, ?_, ?_, ?_⟩
  · rw [degree, Collection.get, found]
    rfl
  · rw [power, found]
    rfl
  · rw [exponent, found]
    rfl

theorem Leaf.predict_enforces (element : l.element < fe.size) (target : l.target < fe.size) :
    Enforces (l.predict fe o error) (l.exponents fe) (o.entry fe l.flag l.element l.target error) := by
  obtain ⟨k, after, power, exponent⟩ := Collection.exists_element target
  obtain ⟨p, used, power', exponent'⟩ := Collection.exists_element element
  rw [predict, after]
  show Enforces (degreeExponent k >>= _) _ _
  rw [exponents, exponent]
  refine (degreeExponent_enforces k).bind fun _ => ?_
  cases flag : l.flag with
  | refine =>
    simp only [PredictionOptions.entry, power, reduceCtorEq, false_and, if_false]
    exact .ok _
  | coarsen =>
    simp only [PredictionOptions.entry, power, reduceCtorEq, false_and, if_false]
    exact .ok _
  | none =>
    by_cases same : l.target = l.element
    · simp only [PredictionOptions.entry, switches, same, ne_eq, not_true_eq_false, and_false, decide_false, if_true,
        if_false, Bool.false_eq_true]
      exact .ok _
    · simp only [PredictionOptions.entry, switches, same, ne_eq, not_false_eq_true, and_true, decide_true, if_true,
        if_false, used, power, power', exponent']
      rw [← List.append_nil [_]]
      exact (degreeExponent_enforces p).bind fun _ => .ok _

end

/-! ### The prediction of a forest -/

section
variable {D : Nat} {P N : Type} {F : Forest D} {fe : Collection} {errors : List N} {o : PredictionOptions P}
  [Scalar P]

theorem PredictionOptions.check_enforces : Enforces o.check [Parameter.gammaP.positiveFinite o.gammaP,
    Parameter.gammaH.positiveFinite o.gammaH, Parameter.gammaN.positiveFinite o.gammaN] () := by
  have check : o.check = enforce [Parameter.gammaP.positiveFinite o.gammaP, Parameter.gammaH.positiveFinite o.gammaH,
      Parameter.gammaN.positiveFinite o.gammaN] := forM_eq_enforce o.entries fun x => x.1.positiveFinite x.2
  rw [check]
  exact .enforce _

theorem Forest.elements_of_within (within : F.Within fe) {l : Leaf} (hl : l ∈ F.leaves) :
    l.element < fe.size ∧ l.target < fe.size := by
  refine ⟨within.element hl, ?_⟩
  cases future : l.future with
  | none =>
    rw [Leaf.target, future]
    exact within.element hl
  | some i =>
    rw [Leaf.target, future]
    exact within l hl i (List.mem_cons_of_mem _ (Option.mem_toList.mpr future))

variable [Scalar N] [RoundsTo P N]

/-- Where no conversion fails, the factors have values in the type of the errors. -/
theorem PredictionOptions.exists_rounded [RoundsTo.Total P N] (o : PredictionOptions P) :
    ∃ r : PredictionOptions N, o.rounded = .ok r := by
  have value (x : P) : ∃ y : N, RoundsTo.round? x = some y :=
    Option.isSome_iff_exists.mp (RoundsTo.Total.round?_isSome x)
  obtain ⟨p, gammaP⟩ := value o.gammaP
  obtain ⟨h, gammaH⟩ := value o.gammaH
  obtain ⟨n, gammaN⟩ := value o.gammaN
  refine ⟨⟨p, h, n⟩, ?_⟩
  simp only [rounded, gammaP, gammaH, gammaN]
  rfl

/-- A prediction enforces its contract and evaluates one entry per leaf. -/
theorem Forest.predictError_enforces {r : PredictionOptions N} (rounded : o.rounded = .ok r) :
    Enforces (F.predictError fe errors o).answer (o.contract F fe errors.length)
      ((F.leaves.zip errors).map fun x => r.entry fe x.1.flag x.1.element x.1.target x.2) := by
  have elements : Enforces (F.checkElements fe) (F.elementsIn fe) () := by
    rw [Strategy.checkElements_eq_enforce]
    exact .enforce _
  have length : Enforces (CellVector.errors.checkLength F.leaves.length errors.length)
      [CellVector.errors.covers F.leaves errors.length] () := by
    unfold Enforces enforce firstRefusal
    by_cases same : F.leaves.length = errors.length <;>
      simp [CellVector.checkLength, CellVector.covers, same, Except.map]
  refine PredictionOptions.check_enforces.bind fun _ => elements.bind fun present => length.bind fun covered => ?_
  have within : F.Within fe := by
    rwa [← checkElements_eq_ok, Strategy.checkElements_eq_enforce]
  have same : F.leaves.length = errors.length := of_decide_eq_true (met_of_enforce covered (List.mem_singleton.mpr rfl))
  have leaves : (F.leaves.zip errors).map Prod.fst = F.leaves := List.map_fst_zip same.le
  have exponents : F.leaves.flatMap (Leaf.exponents fe) = (F.leaves.zip errors).flatMap fun x => x.1.exponents fe := by
    rw [← List.flatMap_map Prod.fst (Leaf.exponents fe), leaves]
  rw [exponents, rounded]
  refine .mapM fun x hx => ?_
  have valid := elements_of_within within (List.of_mem_zip hx).1
  exact Leaf.predict_enforces valid.1 valid.2

/-- A prediction refuses exactly for the first requirement of its contract that is not met. Otherwise it gives one
entry per leaf, which depends on the flag and the elements of the leaf and on its error. The exponents that are
subtracted have a difference in the range of words of 32 bits, in which nothing wraps around. -/
theorem Forest.predictError_refuses_iff [RoundsTo.Total P N] (F : Forest D) (fe : Collection) (errors : List N)
    (o : PredictionOptions P) : ∃ r : PredictionOptions N, o.rounded = .ok r ∧
    (∀ e, (F.predictError fe errors o).answer = .error e ↔ firstRefusal (o.contract F fe errors.length) = some e) ∧
    (∀ values, (F.predictError fe errors o).answer = .ok values ↔
      firstRefusal (o.contract F fe errors.length) = none ∧
        values = (F.leaves.zip errors).map fun x => r.entry fe x.1.flag x.1.element x.1.target x.2) ∧
    (∀ values, (F.predictError fe errors o).answer = .ok values → values.length = F.leaves.length ∧
      ∀ (i : Nat) (l : Leaf) (error : N), F.leaves[i]? = some l → errors[i]? = some error →
        values[i]? = some (r.entry fe l.flag l.element l.target error)) ∧
    ∀ (j k : UInt32) (m n : Int), degreeExponent j = .ok m → degreeExponent k = .ok n →
      (Int32.ofInt m - Int32.ofInt n).toInt = m - n := by
  obtain ⟨r, rounded⟩ := o.exists_rounded (N := N)
  have enforces : Enforces (F.predictError fe errors o).answer _ _ := predictError_enforces rounded
  refine ⟨r, rounded, fun e => enforces.eq_error, fun values => enforces.eq_ok,
    fun values accepted => ⟨?length, ?entry⟩, ?exact⟩
  case length =>
    obtain ⟨lengths, _, -, each⟩ := predictError_eq_ok accepted
    rw [← each.length_eq, List.length_zip, ← lengths, Nat.min_self]
  case entry =>
    intro i l error hl he
    have pair : (F.leaves.zip errors)[i]? = some (l, error) := List.getElem?_zip_eq_some.mpr ⟨hl, he⟩
    rw [(enforces.eq_ok.mp accepted).2, List.getElem?_map, pair]
    rfl
  case exact =>
    intro j k m n accepted accepted'
    exact degreeExponent_sub accepted accepted'

end

/-- Two elements, the second of a degree that is no exponent. -/
def Collection.steep : Collection := ⟨[⟨"FE_Q(1)", 1⟩, ⟨"FE_Q(2147483648)", 0x80000000⟩], by simp, by simp⟩

/-- A root to be switched down from the second element, behind one without markers. -/
def Forest.descending : Forest 1 := after ([.addRoot 0, .addRoot 1, .setFuture ⟨1⟩ 0] : List (Operation Float Float))

theorem Forest.descending_refused : let o : PredictionOptions Float := ⟨0.5, 2, 1⟩
    Reachable descending ∧ (o.contract descending .steep 2).map (·.met) =
        [true, true, true, true, true, true, true, true, true, false] ∧
      (descending.predictError .steep [(8 : Float), 8] o).answer = .error (.degreeTooLarge 0x80000000) ∧
      (descending.predictError .twoElements [(8 : Float), 8] o).answer = .ok [8, 16] ∧
      (Int32.ofInt 1 - Int32.ofInt 2).toInt = -1 := by
  intro o
  obtain ⟨_, -, refuses, -, -, -⟩ := predictError_refuses_iff descending .steep [(8 : Float), 8] o
  obtain ⟨r, rounded, -, accepts, -, wraps⟩ := predictError_refuses_iff descending .twoElements [(8 : Float), 8] o
  obtain rfl : o = r := Except.ok.inj rounded
  refine ⟨.after _, ?_, ?_, ?_, ?_⟩
  · decide +kernel
  · exact (refuses _).mpr (by decide +kernel)
  · exact (accepts _).mpr (by decide +kernel)
  · exact wraps 1 2 1 2 (by decide) (by decide)

end HpForest
