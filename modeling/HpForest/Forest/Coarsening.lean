import HpForest.Forest.Basic

/-!
# Sibling groups

Geometric coarsening merges a whole sibling group into its parent, and only when every sibling is
active and flagged for it. `Forest.clean` drops the coarsen flags that cannot lead to a merge.
-/

namespace HpForest

namespace Forest

variable {D : Nat}

/-- The markers of an active cell. -/
def markers? (F : Forest D) (id : CellId) : Option Markers := (F.cell? id).bind Cell.markers?

/-- Whether the id names an active cell. -/
def isActive (F : Forest D) (id : CellId) : Bool := (F.markers? id).isSome

/-- Whether the cell is active and flagged for coarsening. -/
def coarsens (F : Forest D) (id : CellId) : Bool :=
  (F.markers? id).any fun m => m.flag = .coarsen

/-- Whether all children of the cell are active and flagged for coarsening. -/
def groupCoarsens (F : Forest D) (parent : CellId) : Bool :=
  (F.cell? parent).any fun c => c.children.all F.coarsens

/-- Split cells whose children are all active, with those children. -/
def siblingGroups (F : Forest D) : List (CellId × List CellId) :=
  F.cells.filterMap fun (id, c) =>
    if ¬c.isActive ∧ c.children.all F.isActive then some (id, c.children) else none

/-- Parents of the leaves flagged for coarsening, each once and in ascending order. -/
def coarsenParents (leaves : List Leaf) : List CellId :=
  CellId.sortDistinct (leaves.filterMap fun l => if l.flag = .coarsen then l.parent else none)

/-- Whether the leaf is flagged for coarsening and has no group to be merged with. -/
def strayCoarsen (F : Forest D) (l : Leaf) : Bool :=
  l.flag = .coarsen ∧ ¬l.parent.any F.groupCoarsens

/-- Clears the coarsen flags of roots and of groups that do not coarsen as a whole, and counts them.
Every group is judged as it stood before. -/
def clean (F : Forest D) : Forest D × Nat :=
  (F.remark fun l => if F.strayCoarsen l then l.markers.clearFlag else l.markers,
    F.leaves.countP F.strayCoarsen)

/-- Removes the children of a cell and makes it active again, without markers and with the highest
element index among them. -/
def mergeChildren (F : Forest D) (parent : CellId) : Except AdaptError (Forest D) := do
  let c ← F.cell parent
  let merged ← c.children.mapM F.cell
  let element := (merged.map (·.element)).max?.getD c.element
  return (F.vacate c.children).modify parent fun c => { c with element, role := .active {} }

end Forest

end HpForest
