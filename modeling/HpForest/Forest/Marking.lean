import HpForest.Forest.Basic

/-!
# Marking cells

Setting a marker or the element in use asks for an active cell. Clearing a marker asks only for a
live one, since a split cell has no marker to lose.
-/

namespace HpForest

namespace Forest

variable {D : Nat}

/-- Replaces the h flag. -/
def setFlag (F : Forest D) (id : CellId) (flag : HFlag) : Except AdaptError (Forest D) := do
  let _ ← F.leaf id
  return F.modify id (Cell.mapMarkers fun m => { m with flag })

/-- Drops the h flag. -/
def clearFlag (F : Forest D) (id : CellId) : Except AdaptError (Forest D) := do
  let _ ← F.cell id
  return F.modify id (Cell.mapMarkers Markers.clearFlag)

/-- Schedules a switch to the element with the given index. -/
def setFuture (F : Forest D) (id : CellId) (index : Nat) : Except AdaptError (Forest D) := do
  let _ ← F.leaf id
  return F.modify id (Cell.mapMarkers fun m => { m with future := some index })

/-- Drops the scheduled element. -/
def clearFuture (F : Forest D) (id : CellId) : Except AdaptError (Forest D) := do
  let _ ← F.cell id
  return F.modify id (Cell.mapMarkers Markers.clearFuture)

/-- Replaces the element in use. -/
def setElement (F : Forest D) (id : CellId) (index : Nat) : Except AdaptError (Forest D) := do
  let _ ← F.leaf id
  return F.modify id fun c => { c with element := index }

end Forest

end HpForest
