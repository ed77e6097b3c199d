import HpForest.Strategy.Basic

/-!
# Thresholds

The cells flagged for refinement and those flagged for coarsening form two classes, each with a
threshold between the smallest and the largest indicator of its cells. A class whose indicators
coincide has no threshold, and all its cells qualify.
-/

namespace HpForest

/-- What a class asks of the indicators of its cells. -/
inductive Cutoff (N : Type)
  /-- No cell is in the class. -/
  | vacant
  /-- All indicators of the class coincide. -/
  | degenerate
  | value (t : N)
deriving DecidableEq, Repr

section

variable {P N : Type} [Scalar N]

def extremes (first : N) (rest : List N) : N × N :=
  (rest.foldl (fun m x => if Scalar.lt x m then x else m) first,
    rest.foldl (fun m x => if Scalar.lt m x then x else m) first)

/-- The cutoff at the given fraction of the way from the smallest value to the largest. Only there
is the fraction needed as a number of the indicators' type, and refused if it has no value there. -/
def Cutoff.ofValues [Scalar P] [RoundsTo P N] (parameter : Parameter) (fraction : P) :
    List N → Except AdaptError (Cutoff N)
  | [] => .ok .vacant
  | [_] => .ok .degenerate
  | first :: rest => do
    let (lo, hi) := extremes first rest
    if Scalar.eq lo hi then return .degenerate
    let f ← orRefuse (RoundsTo.round? fraction)
      (.fractionOutOfRange parameter (Scalar.toFloat fraction))
    return .value (lo + f * (hi - lo))

/-- Whether an indicator lies on the qualifying side: above the cutoff to be refined, below it to be
coarsened. -/
def Cutoff.passes (c : Cutoff N) (flag : HFlag) (x : N) : Bool :=
  match c, flag with
  | vacant, _ => false
  | degenerate, _ => true
  | value t, .refine => Scalar.lt t x
  | value t, _ => Scalar.lt x t

def classValues (flag : HFlag) (leaves : List Leaf) (xs : List N) : List N :=
  ((leaves.zip xs).filter fun (l, _) => l.flag = flag).map Prod.snd

structure Cutoffs (N : Type) where
  refine : Cutoff N
  coarsen : Cutoff N

namespace Cutoffs

/-- Each class has the fraction and the indicators of its own flag. -/
def ofLeaves [Scalar P] [RoundsTo P N] (o : ThresholdOptions P) (leaves : List Leaf) (xs : List N) :
    Except AdaptError (Cutoffs N) := do
  let refine ← Cutoff.ofValues .refineFraction o.refineFraction (classValues .refine leaves xs)
  let coarsen ← Cutoff.ofValues .coarsenFraction o.coarsenFraction (classValues .coarsen leaves xs)
  return ⟨refine, coarsen⟩

/-- Whether a flagged cell with the given indicator qualifies. -/
def passes (c : Cutoffs N) (flag : HFlag) (x : N) : Bool :=
  match flag with
  | .refine => c.refine.passes flag x
  | _ => c.coarsen.passes flag x

/-- The classes whose indicators coincide, by name. -/
def degenerateClasses (c : Cutoffs N) : List String :=
  [("refine", c.refine), ("coarsen", c.coarsen)].filterMap fun (name, cutoff) =>
    match cutoff with
    | .degenerate => some name
    | _ => none

end Cutoffs

/-- Refuses the first flagged leaf whose indicator is no finite number. -/
def checkFinite (leaves : List Leaf) (xs : List N) : Except AdaptError Unit :=
  match (leaves.zip xs).find? fun (l, x) => l.flag ≠ .none && !Scalar.isFinite x with
  | some (l, _) => .error (.nonFiniteIndicator .smoothness l.id)
  | none => .ok ()

end

end HpForest
