import HpForest.Forest.Basic

/-!
# Roots and refinement

New cells take the slots after the last one, so an id is never given out twice.
-/

namespace HpForest

namespace Forest

variable {D : Nat}

/-- Appends `n` copies of a cell and returns their ids. -/
def append (F : Forest D) (n : Nat) (c : Cell) : Forest D × List CellId :=
  (⟨F.slots ++ Array.replicate n (some c)⟩, CellId.block F.slots.size n)

theorem cell?_append (F : Forest D) (n : Nat) (c : Cell) (j : CellId) :
    (F.append n c).1.cell? j =
      if j.slot < F.slots.size then F.cell? j
      else if j.slot < F.slots.size + n then some c else none := by
  simp only [cell?, append, Array.getElem?_append, Array.getElem?_replicate]
  split
  · rfl
  · by_cases h : j.slot < F.slots.size + n
    · simp [h, show j.slot - F.slots.size < n by omega]
    · simp [h, show ¬j.slot - F.slots.size < n by omega]

/-- Adds an active root that uses the element with the given index. -/
def addRoot (F : Forest D) (index : Nat) : Forest D × CellId :=
  ((F.append 1 { level := 0, parent := none, element := index }).1, ⟨F.slots.size⟩)

/-- Splits an active cell below the maximum level. The children use the cell's element, and its
markers are dropped. -/
def refineCell (F : Forest D) (id : CellId) : Except AdaptError (Forest D × List CellId) := do
  let l ← F.leaf id
  if l.level < maxLevel then
    let child : Cell := { level := l.level + 1, parent := some id, element := l.element }
    let grown := F.append (fanout D) child
    return (grown.1.modify id fun c => { c with role := .split grown.2 }, grown.2)
  else
    throw (.topology (.levelExhausted id))

end Forest

end HpForest
