import HpForest.Collection
import HpForest.Forest.Coarsening
import HpForest.Forest.Growth
import HpForest.Forest.Outcome

/-!
# Execution of markers

`Forest.execute` drops the coarsen flags of incomplete groups, switches scheduled elements, splits
the cells flagged for refinement and merges the groups flagged for coarsening. Element indices are
checked first; a cell that can be split no further ends the run half-way, with the work before it
done.
-/

namespace HpForest

structure ExecutionSummary where
  /-- Active cells whose element changed. -/
  pAdapted : Nat
  refined : Nat
  coarsenedGroups : Nat
  /-- Coarsen flags dropped because the group did not coarsen as a whole. -/
  droppedFlags : Nat
deriving DecidableEq, Repr

namespace ExecutionSummary

def message (s : ExecutionSummary) : Message :=
  ⟨.debug, s!"executed adaptation: {s.pAdapted} p-adapted, {s.refined} refined, " ++
    s!"{s.coarsenedGroups} groups coarsened"⟩

end ExecutionSummary

/-- The message of a clean-up that dropped `n` flags; none when it dropped nothing. -/
def droppedFlagsLog (n : Nat) : List Message :=
  if n = 0 then [] else [⟨.debug, s!"dropped {n} coarsen flags on incomplete sibling groups"⟩]

/-- Puts the scheduled element in use. -/
def Cell.switchElement (c : Cell) : Cell :=
  { c.mapMarkers Markers.clearFuture with element := c.target }

/-- Whether execution changes the element of the leaf. -/
def Leaf.switches (l : Leaf) : Bool := l.target ≠ l.element

namespace Forest

variable {D : Nat}

/-- Refuses the first index of an active cell that the collection does not have; the element in use
comes before the scheduled one. -/
def checkElements (F : Forest D) (fe : Collection) : Except AdaptError Unit :=
  match (F.leaves.flatMap Leaf.indices).find? fun i => !fe.contains i with
  | some i => .error (.invalidElement i fe.size)
  | none => .ok ()

/-- Takes a step for each item until one refuses. What the steps before it did stays. -/
def stepEach {α : Type} (step : Forest D → α → Except AdaptError (Forest D)) :
    List α → Forest D → Outcome D Unit
  | [], F => .accept F () []
  | x :: rest, F =>
    match step F x with
    | .ok G => stepEach step rest G
    | .error e => .refuse F e []

def refineEach (ids : List CellId) (F : Forest D) : Outcome D Unit :=
  stepEach (fun F id => (F.refineCell id).map Prod.fst) ids F

def mergeEach (ids : List CellId) (F : Forest D) : Outcome D Unit :=
  stepEach mergeChildren ids F

/-- Carries out all markers; none are left afterwards. -/
def execute (F : Forest D) (fe : Collection) : Outcome D ExecutionSummary :=
  match F.checkElements fe with
  | .error e => .refuse F e []
  | .ok () =>
    let cleaned := F.clean.1
    let dropped := F.clean.2
    let leaves := cleaned.leaves
    let refining := (leaves.filter fun l => l.flag = .refine).map (·.id)
    let merging := coarsenParents leaves
    let summary : ExecutionSummary :=
      ⟨leaves.countP Leaf.switches, refining.length, merging.length, dropped⟩
    let switched := cleaned.mapCells fun _ => Cell.switchElement
    (Outcome.accept switched () (droppedFlagsLog dropped)).andThen fun _ switched =>
      (switched.refineEach refining).andThen fun _ refined =>
      (refined.mergeEach merging).andThen fun _ merged =>
      .accept merged summary [summary.message]

end Forest

end HpForest
