import HpForest.Cycle
import HpForest.Forest.Marking

/-!
# Operations and histories

The operations through which a forest is changed, as values, each with its answer. A forest is
reachable if operations lead to it from the empty forest, whether they are accepted or refused.
-/

namespace HpForest

/-- An operation; the number types are those of the strategy it applies, if any. -/
inductive Operation (P N : Type)
  | addRoot (index : Nat)
  | refineCell (id : CellId)
  | setFlag (id : CellId) (flag : HFlag)
  | clearFlag (id : CellId)
  | setFuture (id : CellId) (index : Nat)
  | clearFuture (id : CellId)
  | setElement (id : CellId) (index : Nat)
  | clean
  | execute (fe : Collection)
  | resolve (decision : Decision)
  /-- The choosing decision with its full report. -/
  | choose
  | assign (fe : Collection) (strategy : Strategy P N)
  | hpAdapt (fe : Collection) (strategy : Strategy P N) (decision : Decision)

/-- What an accepted operation answers. -/
inductive Answer
  | done
  | cell (id : CellId)
  | cells (ids : List CellId)
  | count (n : Nat)
  | executed (summary : ExecutionSummary)
  | chosen (report : ChoiceReport)
  | assigned (report : AssignmentReport)
  | adapted (summary : HpSummary)
deriving DecidableEq, Repr

namespace Outcome

variable {D : Nat} {α β : Type}

def map (f : α → β) (o : Outcome D α) : Outcome D β :=
  { forest := o.forest, answer := o.answer.map f, log := o.log }

/-- A marking, which leaves the forest alone when it refuses. -/
def ofMarking (F : Forest D) (r : Except AdaptError (Forest D)) : Outcome D Answer :=
  .ofExcept F (r.map fun G => (G, .done))

end Outcome

namespace Operation

variable {D : Nat} {P N : Type} [Scalar P] [Scalar N] [RoundsTo P N]

def run (F : Forest D) : Operation P N → Outcome D Answer
  | addRoot index =>
    let (G, id) := F.addRoot index
    .accept G (.cell id) []
  | refineCell id => (Outcome.ofExcept F (F.refineCell id)).map .cells
  | setFlag id flag => .ofMarking F (F.setFlag id flag)
  | clearFlag id => .ofMarking F (F.clearFlag id)
  | setFuture id index => .ofMarking F (F.setFuture id index)
  | clearFuture id => .ofMarking F (F.clearFuture id)
  | setElement id index => .ofMarking F (F.setElement id index)
  | clean =>
    let (G, dropped) := F.clean
    .accept G (.count dropped) (droppedFlagsLog dropped)
  | execute fe => (F.execute fe).map .executed
  | resolve decision => (decision.apply F).map .count
  | choose => F.chooseP.map .chosen
  | assign fe strategy => (strategy.apply F fe).map .assigned
  | hpAdapt fe strategy decision => (F.hpAdapt fe strategy decision).map .adapted

end Operation

/-- The forests that operations lead to from the empty one. -/
inductive Reachable {D : Nat} : Forest D → Prop
  | empty : Reachable .empty
  | step {P N : Type} [Scalar P] [Scalar N] [RoundsTo P N] {F : Forest D}
      (op : Operation P N) : Reachable F → Reachable (op.run F).forest

/-- An operation with the number types of its strategy, so that a history can mix them. -/
structure Call where
  {P N : Type}
  [scalarP : Scalar P]
  [scalarN : Scalar N]
  [rounds : RoundsTo P N]
  op : Operation P N

namespace Call

attribute [instance] scalarP scalarN rounds

variable {D : Nat}

def run (F : Forest D) (call : Call) : Outcome D Answer := call.op.run F

end Call

/-- The forest after the calls, one after the other, accepted or refused. -/
def Forest.replay {D : Nat} (F : Forest D) (calls : List Call) : Forest D :=
  calls.foldl (fun F call => (call.run F).forest) F

end HpForest
