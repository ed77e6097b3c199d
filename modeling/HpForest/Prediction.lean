import HpForest.Forest.Execution
import HpForest.Strategy.Basic

/-!
# Error prediction

For a smooth solution the error of a cell decays by a known factor under each kind of adaptation.
With `k` the degree of the element after the next execution and `p` the degree of the one in use,
the predicted error is

* `error * gammaH * (1/2) ^ k` for a cell flagged for refinement,
* `error / (gammaH * (1/2) ^ k)` for a cell flagged for coarsening,
* `error * gammaP ^ (k - p)` for a cell that only changes its element,
* `error * gammaN` for any other cell.

Errors are squared norms. The prediction reads the markers as they stand, so it belongs between the
decision and the execution.
-/

namespace HpForest

/-- The factors of the prediction. -/
structure PredictionOptions (P : Type) where
  /-- Reduction per degree gained by p adaptation. -/
  gammaP : P
  /-- Scale under h adaptation. -/
  gammaH : P
  /-- Scale of cells that are not adapted. -/
  gammaN : P
deriving DecidableEq, Repr

namespace PredictionOptions

/-- A reduction by the square root of two fifths per degree, and a scale of two under h
adaptation. -/
def standard : PredictionOptions Float := ⟨Float.sqrt 0.4, 2, 1⟩

variable {P : Type}

/-- The parameters by name, in the order in which they are checked. -/
def entries (o : PredictionOptions P) : List (Parameter × P) :=
  [(.gammaP, o.gammaP), (.gammaH, o.gammaH), (.gammaN, o.gammaN)]

/-- Refuses the first factor that is not positive and finite. -/
def check [Scalar P] (o : PredictionOptions P) : Except AdaptError Unit :=
  o.entries.forM fun (parameter, value) =>
    if Scalar.isFinite value && Scalar.lt Scalar.zero value then .ok ()
    else .error (.invalidFactor parameter (Scalar.toFloat value))

/-- The same factors in another number type; refuses the first that has no value there. -/
def rounded {N : Type} [Scalar P] [RoundsTo P N] (o : PredictionOptions P) :
    Except AdaptError (PredictionOptions N) := do
  let factor (parameter : Parameter) (value : P) : Except AdaptError N :=
    orRefuse (RoundsTo.round? value) (.invalidFactor parameter (Scalar.toFloat value))
  return ⟨← factor .gammaP o.gammaP, ← factor .gammaH o.gammaH, ← factor .gammaN o.gammaN⟩

end PredictionOptions

/-- A degree as an exponent; degrees from `2 ^ 31` on are refused. -/
def degreeExponent (degree : UInt32) : Except AdaptError Int :=
  if degree < 0x80000000 then .ok degree.toNat else .error (.degreeTooLarge degree)

section

variable {N : Type} [Scalar N]

/-- The base of the powers that h adaptation scales by. -/
def half : N := Scalar.one / (Scalar.one + Scalar.one)

/-- The predicted error of one leaf. -/
def Leaf.predict (fe : Collection) (o : PredictionOptions N) (l : Leaf) (error : N) :
    Except AdaptError N := do
  let k ← degreeExponent (← fe.degree l.target)
  let scale := o.gammaH * Scalar.powi half k
  match l.flag with
  | .refine => return error * scale
  | .coarsen => return error / scale
  | .none =>
    if l.switches then
      let p ← degreeExponent (← fe.degree l.element)
      return error * Scalar.powi o.gammaP (k - p)
    else return error * o.gammaN

variable {D : Nat} {P : Type} [Scalar P] [RoundsTo P N]

/-- Predicts the error of every active cell under the next execution, in the order of the leaves. -/
def Forest.predictError (F : Forest D) (fe : Collection) (errors : List N)
    (options : PredictionOptions P) : Reply (List N) :=
  let answer := do
    options.check
    F.checkElements fe
    CellVector.errors.checkLength F.leaves.length errors.length
    let factors ← options.rounded
    (F.leaves.zip errors).mapM fun (l, error) => l.predict fe factors error
  let log := match answer with
    | .ok predicted => [⟨.debug, s!"predicted errors for {predicted.length} active cells"⟩]
    | .error _ => []
  { answer, log }

end

end HpForest
