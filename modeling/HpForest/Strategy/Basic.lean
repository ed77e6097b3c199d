import HpForest.Collection
import HpForest.Forest.Basic
import HpForest.Scalar

/-!
# Strategies for p adaptation

A strategy says which of the cells flagged for h adaptation are to change their element as well. It
judges each flagged cell by the entries that its input vectors have for it.

Indicators are given in a number type `N`, the parameters of the threshold in a type `P` of their
own.
-/

namespace HpForest

/-- How far the thresholds lie between the smallest and the largest indicator of a class. -/
structure ThresholdOptions (P : Type) where
  refineFraction : P
  coarsenFraction : P
deriving DecidableEq, Repr

namespace ThresholdOptions

/-- Both thresholds are the mean of the two extremes. -/
def standard : ThresholdOptions Float := ⟨0.5, 0.5⟩

variable {P : Type}

/-- The parameters by name, in the order in which they are checked. -/
def entries (o : ThresholdOptions P) : List (Parameter × P) :=
  [(.refineFraction, o.refineFraction), (.coarsenFraction, o.coarsenFraction)]

/-- Refuses the first fraction outside the closed unit interval. -/
def check [Scalar P] (o : ThresholdOptions P) : Except AdaptError Unit :=
  o.entries.forM fun (parameter, value) =>
    if Scalar.le Scalar.zero value && Scalar.le value Scalar.one then .ok ()
    else .error (.fractionOutOfRange parameter (Scalar.toFloat value))

end ThresholdOptions

/-- Which flagged cells change their element, with the inputs that decide it. -/
inductive Strategy (P N : Type)
  /-- Every flagged cell changes its element. -/
  | full
  /-- The flagged cells that are selected. -/
  | flags (selected : List Bool)
  /-- The flagged cells whose smoothness passes the threshold of their class. -/
  | threshold (smoothness : List N) (options : ThresholdOptions P)
  /-- The flagged cells whose regularity supports the degree of the new element. -/
  | regularity (sobolev : List N)
  /-- The flagged cells whose error stayed below its prediction. -/
  | prediction (errors predictions : List N)

namespace Strategy

variable {P N : Type}

def title : Strategy P N → String
  | full => "full p adaptivity"
  | flags _ => "p adaptivity from flags"
  | threshold _ _ => "p adaptivity from threshold"
  | regularity _ => "p adaptivity from regularity"
  | prediction _ _ => "p adaptivity from prediction"

/-- The input vectors with their lengths, in the order in which they are checked. -/
def lengths : Strategy P N → List (CellVector × Nat)
  | full => []
  | flags selected => [(.pFlags, selected.length)]
  | threshold smoothness _ => [(.smoothness, smoothness.length)]
  | regularity sobolev => [(.sobolev, sobolev.length)]
  | prediction errors predictions =>
    [(.errors, errors.length), (.predictions, predictions.length)]

end Strategy

def CellVector.checkLength (v : CellVector) (expected found : Nat) : Except AdaptError Unit :=
  if expected = found then .ok () else .error (.lengthMismatch v expected found)

end HpForest
