import HpForest.Forest.Coarsening
import HpForest.Forest.Outcome

/-!
# Decisions between h and p

A decision removes the ambiguity on cells scheduled for both kinds of adaptation. Forcing p drops
the h flag of every such cell. Choosing p does the same for refinement, but decides coarsening for a
whole sibling group, since only whole groups are merged.
-/

namespace HpForest

namespace Markers

def conflicted (m : Markers) : Bool := m.flag ≠ .none ∧ m.future.isSome

end Markers

/-- What becomes of the coarsen flags of a sibling group. -/
inductive SiblingResolution
  /-- Not every sibling is flagged, so the group is not merged: siblings scheduled for another
  element lose their coarsen flag. -/
  | partialGroup
  /-- Every sibling is flagged, but not all are scheduled for another element: the group is merged
  and the schedules are dropped. -/
  | hCoarsening
  /-- Every sibling is flagged and scheduled for another element: the coarsen flags are dropped. -/
  | pCoarsening
deriving DecidableEq, Repr

namespace SiblingResolution

def name : SiblingResolution → String
  | partialGroup => "PartialGroup"
  | hCoarsening => "HCoarsening"
  | pCoarsening => "PCoarsening"

/-- The markers of an active sibling under the resolution. -/
def resolve (r : SiblingResolution) (m : Markers) : Markers :=
  match r with
  | hCoarsening => m.clearFuture
  | partialGroup | pCoarsening =>
    if m.flag = .coarsen ∧ m.future.isSome then m.clearFlag else m

end SiblingResolution

structure ChoiceReport where
  /-- Refine flags that gave way to a scheduled element. -/
  refineFlagsCleared : Nat
  partialGroups : Nat
  hCoarsenedGroups : Nat
  pCoarsenedGroups : Nat
  /-- Coarsen flags cleared on roots, which have no siblings to be merged with. -/
  rootCoarsenFlagsCleared : Nat
  /-- Cells whose markers changed. -/
  changedCells : Nat
deriving DecidableEq, Repr

namespace ChoiceReport

def message (r : ChoiceReport) : Message :=
  ⟨.debug, s!"choose p over h: {r.refineFlagsCleared} refine flags cleared, groups " ++
    s!"partial/h/p = {r.partialGroups}/{r.hCoarsenedGroups}/{r.pCoarsenedGroups}"⟩

end ChoiceReport

/-- A resolved sibling group and the number of its cells whose markers changed. -/
structure ResolvedGroup where
  parent : CellId
  resolution : SiblingResolution
  changed : Nat
deriving DecidableEq, Repr

namespace ResolvedGroup

def message (g : ResolvedGroup) : Message :=
  ⟨.trace, s!"sibling group of {g.parent}: {g.resolution.name}, {g.changed} cells changed"⟩

def changedCells : List ResolvedGroup → Nat
  | [] => 0
  | g :: rest => g.changed + changedCells rest

end ResolvedGroup

namespace Leaf

/-- A refinement that gives way to p. -/
def yieldsRefine (l : Leaf) : Bool := l.flag = .refine ∧ l.future.isSome

/-- A root's coarsening that gives way to p. -/
def yieldsRootCoarsen (l : Leaf) : Bool := l.flag = .coarsen ∧ l.parent = none ∧ l.future.isSome

end Leaf

namespace Forest

variable {D : Nat}

def forceP (F : Forest D) : Outcome D Nat :=
  let cleared := F.leaves.countP fun l => l.markers.conflicted
  .accept
    (F.remark fun l => if l.markers.conflicted then l.markers.clearFlag else l.markers)
    cleared
    [⟨.debug, s!"force p over h: cleared {cleared} h flags"⟩]

def siblingResolution (F : Forest D) (parent : CellId) : Except AdaptError SiblingResolution := do
  let c ← F.cell parent
  let siblings ← c.children.mapM F.cell
  let coarsen := siblings.all fun s => s.markers?.any fun m => m.flag = .coarsen
  let future := siblings.all fun s => s.markers?.any fun m => m.future.isSome
  return match coarsen, future with
    | false, _ => .partialGroup
    | true, false => .hCoarsening
    | true, true => .pCoarsening

/-- Resolves the active children of a cell, and counts those whose markers change. -/
def applyResolution (F : Forest D) (parent : CellId) (r : SiblingResolution) :
    Except AdaptError (Forest D × Nat) := do
  let c ← F.cell parent
  let changing := c.children.filter fun id => (F.markers? id).any fun m => r.resolve m ≠ m
  return (F.modifyEach changing (Cell.mapMarkers r.resolve), changing.length)

/-- Clears the h flags that give way to p without regard to siblings: those of refined cells and of
coarsened roots. -/
def yieldSingles (F : Forest D) : Forest D :=
  F.remark fun l =>
    if l.yieldsRefine ∨ l.yieldsRootCoarsen then l.markers.clearFlag else l.markers

def resolveGroups (F : Forest D) :
    List (CellId × SiblingResolution) → Except AdaptError (Forest D × List ResolvedGroup)
  | [] => .ok (F, [])
  | (parent, r) :: rest => do
    let (G, changed) ← F.applyResolution parent r
    let (H, groups) ← G.resolveGroups rest
    return (H, ⟨parent, r, changed⟩ :: groups)

/-- Prefers p wherever all related cells ask for it. Every group is judged before any is resolved;
groups are resolved in the order of their parents. -/
def chooseP (F : Forest D) : Outcome D ChoiceReport :=
  let leaves := F.leaves
  let single := F.yieldSingles
  let refine := leaves.countP Leaf.yieldsRefine
  let root := leaves.countP Leaf.yieldsRootCoarsen
  let outcome := do
    let judged ← (coarsenParents leaves).mapM fun p => return (p, ← single.siblingResolution p)
    single.resolveGroups judged
  match outcome with
  | .error e => .refuse single e []
  | .ok (resolved, groups) =>
    let count r := groups.countP fun g => g.resolution = r
    let report : ChoiceReport :=
      ⟨refine, count .partialGroup, count .hCoarsening, count .pCoarsening, root,
        refine + root + ResolvedGroup.changedCells groups⟩
    .accept resolved report (groups.map (·.message) ++ [report.message])

end Forest

/-- The ways to resolve the cells scheduled for both kinds of adaptation. -/
inductive Decision
  /-- Drop the h flag of every cell scheduled for another element. -/
  | forceP
  /-- The same for refinement, while coarsening is decided by sibling group. -/
  | chooseP
deriving DecidableEq, Repr

/-- Without a choice p is forced. -/
instance : Inhabited Decision := ⟨.forceP⟩

def Decision.apply {D : Nat} (d : Decision) (F : Forest D) : Outcome D Nat :=
  match d with
  | .forceP => F.forceP
  | .chooseP => F.chooseP.andThen fun r G => .accept G r.changedCells []

end HpForest
