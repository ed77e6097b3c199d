import HpForest.Forest.Basic

/-!
# Checking the links

`Forest.check` looks for the first cell, by slot, whose links or level disagree with those of its
parent or children.
-/

namespace HpForest

namespace Forest

variable {D : Nat}

/-- The parent is live and lists the cell. -/
def checkParent (F : Forest D) (id : CellId) (c : Cell) : Except AdaptError Unit :=
  match c.parent with
  | none => .ok ()
  | some parent =>
    match F.cell? parent with
    | none => .error (.topology (.missingParent id parent))
    | some p =>
      if p.children.contains id then .ok () else .error (.topology (.unlistedChild id parent))

/-- The child is live, names the cell as its parent and stands one level below it. -/
def checkChild (F : Forest D) (id : CellId) (c : Cell) (child : CellId) :
    Except AdaptError Unit := do
  let k ← F.cell child
  if k.parent = some id ∧ k.level = c.level + 1 then return ()
  else throw (.topology (.detachedChild id child))

/-- A split cell has the right number of children, each of them linked to it. -/
def checkChildren (F : Forest D) (id : CellId) (c : Cell) : Except AdaptError Unit :=
  match c.role with
  | .active _ => .ok ()
  | .split children =>
    if children.length = fanout D then children.forM (F.checkChild id c)
    else .error (.topology (.childCount id children.length (fanout D)))

/-- Refuses the first defect, a cell's parent being checked before its children. There is no test
for markers on a cell with children: its `Role` cannot hold any. -/
def check (F : Forest D) : Except AdaptError Unit :=
  F.cells.forM fun (id, c) => do
    F.checkParent id c
    F.checkChildren id c

end Forest

end HpForest
