import HpForest.CellId
import HpForest.Decimal.Plain

/-!
# Refusals

Every way in which an operation can refuse its arguments, with the values that its text reports.
-/

namespace HpForest

/-- The vectors that hold one entry per active cell. -/
inductive CellVector
  | pFlags
  | smoothness
  | sobolev
  | errors
  | predictions
deriving DecidableEq, Repr

def CellVector.name : CellVector → String
  | .pFlags => "p_flags"
  | .smoothness => "smoothness_indicators"
  | .sobolev => "sobolev_indices"
  | .errors => "error_indicators"
  | .predictions => "predicted_errors"

/-- The parameters of the threshold strategy and of the error prediction. -/
inductive Parameter
  | refineFraction
  | coarsenFraction
  | gammaP
  | gammaH
  | gammaN
deriving DecidableEq, Repr

def Parameter.name : Parameter → String
  | .refineFraction => "p_refine_fraction"
  | .coarsenFraction => "p_coarsen_fraction"
  | .gammaP => "gamma_p"
  | .gammaH => "gamma_h"
  | .gammaN => "gamma_n"

/-- Where the links or levels of a forest disagree, or leave no room for another level. -/
inductive TopologyDefect
  | missingParent (cell parent : CellId)
  | unlistedChild (cell parent : CellId)
  | childCount (cell : CellId) (found expected : Nat)
  | detachedChild (cell child : CellId)
  | levelExhausted (cell : CellId)
deriving DecidableEq, Repr

namespace TopologyDefect

def message : TopologyDefect → String
  | missingParent cell parent => s!"cell `{cell}` points to missing parent `{parent}`"
  | unlistedChild cell parent => s!"parent `{parent}` does not list child `{cell}`"
  | childCount cell found expected => s!"cell `{cell}` has {found} children, expected {expected}"
  | detachedChild cell child => s!"child `{child}` does not point back to `{cell}`"
  | levelExhausted cell => s!"cell `{cell}` is already at the maximum refinement level"

end TopologyDefect

/-- Why an operation refuses its arguments. -/
inductive AdaptError
  /-- No live cell has this id. -/
  | unknownCell (cell : CellId)
  /-- The cell is live, but split, and so has no markers. -/
  | cellNotActive (cell : CellId)
  | lengthMismatch (vector : CellVector) (expected found : Nat)
  /-- A fraction outside the closed unit interval. -/
  | fractionOutOfRange (parameter : Parameter) (value : Float)
  /-- A factor that is not a positive finite number. -/
  | invalidFactor (parameter : Parameter) (value : Float)
  /-- The indicator of a flagged cell is no finite number. -/
  | nonFiniteIndicator (vector : CellVector) (cell : CellId)
  /-- No element of the collection has this index. -/
  | invalidElement (index size : Nat)
  | emptyCollection
  /-- An element's degree is lower than that of the element before it. -/
  | decreasingDegree (index : Nat) (degree previous : UInt32)
  /-- A degree beyond the range of exponents. -/
  | degreeTooLarge (degree : UInt32)
  | topology (defect : TopologyDefect)
deriving DecidableEq, Repr

namespace AdaptError

def message : AdaptError → String
  | unknownCell cell => s!"unknown cell `{cell}`"
  | cellNotActive cell => s!"cell `{cell}` is not active"
  | lengthMismatch vector expected found =>
    s!"`{vector.name}` has {found} entries, expected one per active cell ({expected})"
  | fractionOutOfRange parameter value =>
    s!"`{parameter.name}` must lie in [0, 1], got {plainText value}"
  | invalidFactor parameter value =>
    s!"prediction parameter `{parameter.name}` must be positive and finite, got {plainText value}"
  | nonFiniteIndicator vector cell => s!"indicator `{vector.name}` of cell `{cell}` is not finite"
  | invalidElement index size =>
    s!"fe index {index} out of range for a collection of {size} elements"
  | emptyCollection => "finite element collection is empty"
  | decreasingDegree index degree previous =>
    s!"degree {degree} of element {index} is lower than its predecessor's {previous}"
  | degreeTooLarge degree =>
    s!"degree {degree} cannot be represented in the indicator number type"
  | topology defect => s!"Topology error: {defect.message}"

end AdaptError

/-- The value, or the refusal that reports that there is none. -/
def orRefuse {α : Type} (x : Option α) (e : AdaptError) : Except AdaptError α :=
  match x with
  | some a => .ok a
  | none => .error e

theorem orRefuse_eq_ok {α : Type} {x : Option α} {e : AdaptError} {a : α} :
    orRefuse x e = .ok a ↔ x = some a := by
  cases x <;> simp [orRefuse]

end HpForest
