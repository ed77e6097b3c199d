import HpForest.Error

/-!
# Forests of cells

A forest of `2 ^ D`-trees lives in an arena of slots. A slot holds a cell, or nothing once the cell
has been merged into its parent; a cell refers to its parent and children by slot. An active cell is
a leaf and carries markers, which say what the next execution does to it. A split cell has children
and no markers.

`Forest.cell?` is the view through which every operation is described, and `Forest.leaves` lists the
active cells in the order of their slots, the order of every vector with one entry per active cell.
-/

namespace HpForest

/-- What is asked of a cell's geometry. Refinement and coarsening exclude each other. -/
inductive HFlag
  | none
  | refine
  | coarsen
deriving DecidableEq, Repr, Inhabited

/-- The markers of an active cell: an h flag, and the element to switch to if one is scheduled. -/
structure Markers where
  flag : HFlag := .none
  future : Option Nat := .none
deriving DecidableEq, Repr, Inhabited

namespace Markers

def clearFlag (m : Markers) : Markers := { m with flag := .none }

def clearFuture (m : Markers) : Markers := { m with future := .none }

end Markers

/-- What a cell is in its tree: a leaf with markers, or an inner node with children. -/
inductive Role
  | active (markers : Markers)
  | split (children : List CellId)
deriving DecidableEq, Repr

/-- What a slot holds of a live cell. -/
structure Cell where
  level : Nat
  parent : Option CellId
  /-- The element in use; a split cell keeps the one it had when it was split. -/
  element : Nat
  role : Role := .active {}
deriving DecidableEq, Repr

namespace Cell

def isActive (c : Cell) : Bool :=
  match c.role with
  | .active _ => true
  | .split _ => false

def markers? (c : Cell) : Option Markers :=
  match c.role with
  | .active m => some m
  | .split _ => none

/-- The markers; a split cell has none set. -/
def markers (c : Cell) : Markers := c.markers?.getD {}

/-- The children in order of creation; an active cell has none. -/
def children (c : Cell) : List CellId :=
  match c.role with
  | .active _ => []
  | .split children => children

def flag (c : Cell) : HFlag := c.markers.flag

def future (c : Cell) : Option Nat := c.markers.future

/-- The element after the next execution: the scheduled one, else the one in use. -/
def target (c : Cell) : Nat := c.future.getD c.element

def mapMarkers (f : Markers → Markers) (c : Cell) : Cell :=
  match c.role with
  | .active m => { c with role := .active (f m) }
  | .split _ => c

end Cell

/-- An active cell as it stands in its forest. -/
structure Leaf where
  id : CellId
  level : Nat
  parent : Option CellId
  element : Nat
  markers : Markers
deriving DecidableEq, Repr

namespace Leaf

/-- The element indices that the leaf refers to: the one in use, then the scheduled one. -/
def indices (l : Leaf) : List Nat := l.element :: l.markers.future.toList

def flag (l : Leaf) : HFlag := l.markers.flag

def future (l : Leaf) : Option Nat := l.markers.future

/-- The element after the next execution: the scheduled one, else the one in use. -/
def target (l : Leaf) : Nat := l.future.getD l.element

end Leaf

/-- The cell with the given id as a leaf, if it is active. -/
def Cell.leaf? (id : CellId) (c : Cell) : Option Leaf :=
  c.markers?.map fun m => ⟨id, c.level, c.parent, c.element, m⟩

theorem Cell.id_of_leaf? {id : CellId} {c : Cell} {l : Leaf} (h : c.leaf? id = some l) :
    l.id = id := by
  obtain ⟨_, -, rfl⟩ := Option.map_eq_some_iff.mp h
  rfl

/-- The slots in the order in which they were given out. -/
structure Forest (D : Nat) where
  slots : Array (Option Cell) := #[]
deriving DecidableEq, Repr

namespace Forest

variable {D : Nat}

def empty : Forest D := {}

/-- The number of children of a split cell. -/
def fanout (D : Nat) : Nat := Nat.pow 2 D

/-- The level beyond which no cell is split. -/
def maxLevel : Nat := 255

def cell? (F : Forest D) (id : CellId) : Option Cell := F.slots[id.slot]?.join

def contains (F : Forest D) (id : CellId) : Bool := (F.cell? id).isSome

/-- The live cell, or the refusal of an id that names none. -/
def cell (F : Forest D) (id : CellId) : Except AdaptError Cell :=
  match F.cell? id with
  | some c => .ok c
  | none => .error (.unknownCell id)

/-- The cell as a leaf; only active cells can be marked. -/
def leaf (F : Forest D) (id : CellId) : Except AdaptError Leaf := do
  let c ← F.cell id
  match c.leaf? id with
  | some l => .ok l
  | none => .error (.cellNotActive id)

/-- Live cells in the order of their slots. -/
def cells (F : Forest D) : List (CellId × Cell) :=
  (CellId.block 0 F.slots.size).filterMap fun id => (F.cell? id).map (id, ·)

/-- Active cells in the order of their slots. -/
def leaves (F : Forest D) : List Leaf :=
  F.cells.filterMap fun (id, c) => c.leaf? id

def size (F : Forest D) : Nat := F.cells.length

/-- The children of the cell's parent, the cell among them; a root is its own only sibling. -/
def siblings (F : Forest D) (id : CellId) : Except AdaptError (List CellId) := do
  match (← F.cell id).parent with
  | some parent => return (← F.cell parent).children
  | none => return [id]

def modify (F : Forest D) (id : CellId) (f : Cell → Cell) : Forest D :=
  ⟨F.slots.modify id.slot (Option.map f)⟩

def mapCells (F : Forest D) (f : CellId → Cell → Cell) : Forest D :=
  ⟨F.slots.mapIdx fun slot => Option.map (f ⟨slot⟩)⟩

/-- Gives every active cell the markers that `f` chooses for it. -/
def remark (F : Forest D) (f : Leaf → Markers) : Forest D :=
  F.mapCells fun id c =>
    match c.leaf? id with
    | some l => c.mapMarkers fun _ => f l
    | none => c

def modifyEach (F : Forest D) (ids : List CellId) (f : Cell → Cell) : Forest D :=
  ids.foldl (fun F id => F.modify id f) F

def vacate (F : Forest D) (ids : List CellId) : Forest D :=
  ids.foldl (fun F id => ⟨F.slots.setIfInBounds id.slot none⟩) F

/-! ### The view after each change -/

theorem cell?_modify (F : Forest D) (id j : CellId) (f : Cell → Cell) :
    (F.modify id f).cell? j = if id = j then (F.cell? j).map f else F.cell? j := by
  simp only [cell?, modify, Array.getElem?_modify, CellId.ext_iff]
  split
  · cases F.slots[j.slot]? <;> simp
  · rfl

theorem cell?_mapCells (F : Forest D) (f : CellId → Cell → Cell) (j : CellId) :
    (F.mapCells f).cell? j = (F.cell? j).map (f j) := by
  simp only [cell?, mapCells, Array.getElem?_mapIdx]
  cases F.slots[j.slot]? <;> simp

theorem cell?_modifyEach {ids : List CellId} (distinct : ids.Nodup) (F : Forest D) (j : CellId)
    (f : Cell → Cell) :
    (F.modifyEach ids f).cell? j = if j ∈ ids then (F.cell? j).map f else F.cell? j := by
  induction ids generalizing F with
  | nil => simp [modifyEach]
  | cons id rest ih =>
    obtain ⟨fresh, distinct⟩ := List.nodup_cons.mp distinct
    have step : F.modifyEach (id :: rest) f = (F.modify id f).modifyEach rest f := rfl
    rw [step, ih distinct, cell?_modify]
    by_cases same : id = j
    · subst same
      simp [fresh]
    · simp [same, Ne.symm same]

theorem cell?_vacate (F : Forest D) (ids : List CellId) (j : CellId) :
    (F.vacate ids).cell? j = if j ∈ ids then none else F.cell? j := by
  induction ids generalizing F with
  | nil => simp [vacate]
  | cons id rest ih =>
    have step : F.vacate (id :: rest) = vacate ⟨F.slots.setIfInBounds id.slot none⟩ rest := rfl
    have emptied : cell? (⟨F.slots.setIfInBounds id.slot none⟩ : Forest D) j =
        if id = j then none else F.cell? j := by
      simp only [cell?, Array.getElem?_setIfInBounds, CellId.ext_iff]
      split
      · split <;> simp
      · rfl
    rw [step, ih, emptied]
    by_cases same : id = j
    · simp [same]
    · simp [same, Ne.symm same]

/-! ### Membership in the lists -/

theorem slot_lt_size {F : Forest D} {id : CellId} {c : Cell} (h : F.cell? id = some c) :
    id.slot < F.slots.size := by
  by_cases bound : id.slot < F.slots.size
  · exact bound
  · simp [cell?, Array.getElem?_eq_none (Nat.le_of_not_lt bound)] at h

theorem mem_cells {F : Forest D} {id : CellId} {c : Cell} :
    (id, c) ∈ F.cells ↔ F.cell? id = some c := by
  simp only [cells, List.mem_filterMap, CellId.mem_block, Option.map_eq_some_iff, Prod.mk.injEq]
  constructor
  · rintro ⟨_, -, _, h, rfl, rfl⟩
    exact h
  · intro h
    exact ⟨id, ⟨Nat.zero_le _, by simpa using slot_lt_size h⟩, c, h, rfl, rfl⟩

theorem mem_leaves {F : Forest D} {l : Leaf} :
    l ∈ F.leaves ↔ ∃ c, F.cell? l.id = some c ∧ c.leaf? l.id = some l := by
  simp only [leaves, List.mem_filterMap, Prod.exists, mem_cells]
  constructor
  · rintro ⟨id, c, live, active⟩
    obtain rfl := Cell.id_of_leaf? active
    exact ⟨c, live, active⟩
  · rintro ⟨c, live, active⟩
    exact ⟨l.id, c, live, active⟩

end Forest

end HpForest
