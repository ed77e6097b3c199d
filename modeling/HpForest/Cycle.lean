import HpForest.Decision
import HpForest.Intent
import HpForest.Strategy.Assignment

/-!
# One adaptation cycle

`Forest.hpAdapt` lets a strategy schedule elements and a decision resolve what is then scheduled
twice. Afterwards every active cell is scheduled for at most one kind of adaptation.
-/

namespace HpForest

structure HpSummary where
  assigned : AssignmentReport
  /-- Cells whose markers the decision changed. -/
  resolved : Nat
  intents : IntentCounts
deriving DecidableEq, Repr

def HpSummary.message (s : HpSummary) : Message :=
  ⟨.debug, s!"hp adaptation: {s.assigned.text}, {s.resolved} resolved, intents {s.intents.text}"⟩

variable {D : Nat} {P N : Type} [Scalar P] [Scalar N] [RoundsTo P N]

/-- Lets the strategy schedule elements, then the decision resolve the conflicts. -/
def Forest.hpAdapt (F : Forest D) (fe : Collection) (s : Strategy P N) (d : Decision) :
    Outcome D HpSummary :=
  (s.apply F fe).andThen fun assigned G => (d.apply G).andThen fun resolved H =>
    let summary : HpSummary := ⟨assigned, resolved, .ofList H.intents⟩
    .accept H summary [summary.message]

end HpForest
