import HpForest.Forest.Coarsening
import HpForest.Forest.Growth
import Mathlib.Data.List.Forall2

/-! # Views of a forest

Statements about forests read them through `Forest.cell?` and `Forest.leaf?`. This file says that a
forest is determined by its view and its number of slots, and how the list of leaves follows it. -/

namespace HpForest

theorem mapM_eq_pure {m : Type → Type} [Monad m] [LawfulMonad m] {α β : Type} {f : α → m β} {g : α → β} {xs : List α}
    (each : ∀ x ∈ xs, f x = pure (g x)) : xs.mapM f = pure (xs.map g) := by
  induction xs with
  | nil => rfl
  | cons x rest ih =>
    rw [List.mapM_cons, each x (by simp), ih fun y hy => each y (by simp [hy])]
    simp

theorem bind_eq_ok {ε α β : Type} {x : Except ε α} {f : α → Except ε β} {b : β} :
    (x >>= f) = .ok b ↔ ∃ a, x = .ok a ∧ f a = .ok b := by
  cases x <;> simp [bind, Except.bind]

/-- A traversal is accepted if every item is, and it collects their answers. -/
theorem mapM_eq_ok {ε α β : Type} {f : α → Except ε β} {xs : List α} {ys : List β} :
    xs.mapM f = .ok ys ↔ List.Forall₂ (fun x y => f x = .ok y) xs ys := by
  induction xs generalizing ys with
  | nil => cases ys <;> simp [pure, Except.pure]
  | cons x rest ih =>
    simp only [List.mapM_cons, bind_eq_ok, ih, pure, Except.pure, Except.ok.injEq, List.forall₂_cons_left_iff]
    constructor
    · rintro ⟨y, head, zs, tail, rfl⟩
      exact ⟨y, zs, head, tail, rfl⟩
    · rintro ⟨y, zs, head, tail, rfl⟩
      exact ⟨y, head, zs, tail, rfl⟩

/-! ### Cells -/

namespace Cell
variable {c : Cell} {f : Markers → Markers} {id : CellId} {l : Leaf}

theorem not_isActive_of_role {ks : List CellId} (h : c.role = .split ks) : c.isActive = false := by
  simp [isActive, h]

theorem children_of_role {ks : List CellId} (h : c.role = .split ks) : c.children = ks := by
  simp [children, h]

theorem role_of_not_isActive (h : c.isActive = false) : c.role = .split c.children := by
  cases hr : c.role with
  | active m => simp [isActive, hr] at h
  | split ks => rw [children_of_role hr]

theorem children_of_isActive (h : c.isActive = true) : c.children = [] := by
  cases hr : c.role with
  | active m => simp [children, hr]
  | split ks => simp [isActive, hr] at h

theorem markers?_isSome : c.markers?.isSome = c.isActive := by
  cases hr : c.role <;> simp [markers?, isActive, hr]

theorem leaf?_eq_some : c.leaf? id = some l ↔
    ∃ m, c.role = .active m ∧ l = ⟨id, c.level, c.parent, c.element, m⟩ := by
  cases hr : c.role <;> simp [leaf?, markers?, hr, eq_comm]

theorem leaf?_of_role {m : Markers} (h : c.role = .active m) :
    c.leaf? id = some ⟨id, c.level, c.parent, c.element, m⟩ := leaf?_eq_some.mpr ⟨m, h, rfl⟩

theorem leaf?_of_not_isActive (h : c.isActive = false) : c.leaf? id = none := by
  simp [leaf?, markers?, role_of_not_isActive h]

/-! Replacing the markers changes nothing else. -/

@[simp] theorem level_mapMarkers : (c.mapMarkers f).level = c.level := by
  cases hr : c.role <;> simp [mapMarkers, hr]

@[simp] theorem parent_mapMarkers : (c.mapMarkers f).parent = c.parent := by
  cases hr : c.role <;> simp [mapMarkers, hr]

@[simp] theorem element_mapMarkers : (c.mapMarkers f).element = c.element := by
  cases hr : c.role <;> simp [mapMarkers, hr]

@[simp] theorem children_mapMarkers : (c.mapMarkers f).children = c.children := by
  cases hr : c.role <;> simp [mapMarkers, children, hr]

@[simp] theorem isActive_mapMarkers : (c.mapMarkers f).isActive = c.isActive := by
  cases hr : c.role <;> simp [mapMarkers, isActive, hr]

theorem mapMarkers_of_not_isActive (h : c.isActive = false) : c.mapMarkers f = c := by
  simp [mapMarkers, role_of_not_isActive h]

theorem mapMarkers_eq_self (h : ∀ m, c.markers? = some m → f m = m) : c.mapMarkers f = c := by
  obtain ⟨level, parent, element, role⟩ := c
  cases role with
  | active m => simpa [mapMarkers] using h m rfl
  | split ks => rfl

end Cell

/-- The leaf as the cell that its slot holds. -/
def Leaf.cell (l : Leaf) : Cell := ⟨l.level, l.parent, l.element, .active l.markers⟩

namespace Forest
variable {D : Nat} {F G : Forest D} {id : CellId} {l : Leaf}

/-! ### Forests -/

theorem fanout_pos : 0 < fanout D := Nat.pow_pos (by decide)

theorem eq_of_cell? (size : F.slots.size = G.slots.size) (view : ∀ id, F.cell? id = G.cell? id) :
    F = G := by
  obtain ⟨slots⟩ := F
  obtain ⟨slots'⟩ := G
  congr 1
  apply Array.ext size
  intro i hi hi'
  have at_i := view ⟨i⟩
  simpa [cell?, hi, hi'] using at_i

theorem cell?_eq_none_of_size_le (h : F.slots.size ≤ id.slot) : F.cell? id = none := by
  simp [cell?, Array.getElem?_eq_none h]

@[simp] theorem size_modify (f : Cell → Cell) : (F.modify id f).slots.size = F.slots.size := by
  simp [modify]

@[simp] theorem size_mapCells (f : CellId → Cell → Cell) :
    (F.mapCells f).slots.size = F.slots.size := by
  simp [mapCells]

@[simp] theorem size_remark (f : Leaf → Markers) : (F.remark f).slots.size = F.slots.size := by
  simp [remark]

@[simp] theorem size_modifyEach (ids : List CellId) (f : Cell → Cell) :
    (F.modifyEach ids f).slots.size = F.slots.size := by
  induction ids generalizing F with
  | nil => rfl
  | cons id rest ih => exact (ih (F := F.modify id f)).trans (size_modify f)

@[simp] theorem size_vacate (ids : List CellId) : (F.vacate ids).slots.size = F.slots.size := by
  induction ids generalizing F with
  | nil => rfl
  | cons id rest ih =>
    exact (ih (F := ⟨F.slots.setIfInBounds id.slot none⟩)).trans Array.size_setIfInBounds

@[simp] theorem size_append (n : Nat) (c : Cell) :
    (F.append n c).1.slots.size = F.slots.size + n := by
  simp [append]

/-- The active cell with the given id. -/
def leaf? (F : Forest D) (id : CellId) : Option Leaf := (F.cell? id).bind (Cell.leaf? id)

theorem leaf?_eq_some : F.leaf? id = some l ↔ l.id = id ∧ F.cell? id = some l.cell := by
  simp only [leaf?, Option.bind_eq_some_iff, Cell.leaf?_eq_some]
  constructor
  · rintro ⟨⟨level, parent, element, role⟩, hc, m, rfl, rfl⟩
    exact ⟨rfl, hc⟩
  · rintro ⟨rfl, hc⟩
    exact ⟨l.cell, hc, l.markers, rfl, rfl⟩

theorem leaf?_id (h : F.leaf? id = some l) : l.id = id := (leaf?_eq_some.mp h).1

theorem cell?_of_leaf? (h : F.leaf? id = some l) : F.cell? id = some l.cell := (leaf?_eq_some.mp h).2

theorem leaf?_of_role {c : Cell} {m : Markers} (hc : F.cell? id = some c) (hr : c.role = .active m) :
    F.leaf? id = some ⟨id, c.level, c.parent, c.element, m⟩ := by
  rw [leaf?, hc]
  exact Cell.leaf?_of_role hr

theorem mem_leaves_iff : l ∈ F.leaves ↔ F.leaf? l.id = some l := by
  rw [mem_leaves, leaf?, Option.bind_eq_some_iff]

theorem mem_leaves_of_leaf? (h : F.leaf? id = some l) : l ∈ F.leaves := by
  obtain rfl := leaf?_id h
  exact mem_leaves_iff.mpr h

theorem leaves_eq : F.leaves = (CellId.block 0 F.slots.size).filterMap F.leaf? := by
  simp only [leaves, cells, List.filterMap_filterMap]
  congr 1
  funext id
  cases h : F.cell? id <;> simp [leaf?, h]

theorem markers?_eq : F.markers? id = (F.leaf? id).map (·.markers) := by
  cases h : F.cell? id with
  | none => simp [markers?, leaf?, h]
  | some c => cases hr : c.role <;> simp [markers?, leaf?, Cell.leaf?, Cell.markers?, h, hr]

theorem isActive_eq : F.isActive id = (F.leaf? id).isSome := by
  rw [isActive, markers?_eq, Option.isSome_map]

theorem isActive_iff : F.isActive id = true ↔ ∃ c, F.cell? id = some c ∧ c.isActive = true := by
  cases h : F.cell? id <;> simp [isActive, markers?, h, Cell.markers?_isSome]

theorem coarsens_eq : F.coarsens id = (F.leaf? id).any fun l => l.flag = .coarsen := by
  rw [coarsens, markers?_eq]
  cases F.leaf? id <;> rfl

theorem coarsens_iff : F.coarsens id = true ↔ ∃ l, F.leaf? id = some l ∧ l.flag = .coarsen := by
  cases h : F.leaf? id <;> simp [coarsens_eq, h]

theorem coarsens_of_leaf? (hl : F.leaf? id = some l) : F.coarsens id = true ↔ l.flag = .coarsen := by
  simp [coarsens_eq, hl]

theorem leaves_ids : F.leaves.map (·.id) = (CellId.block 0 F.slots.size).filter F.isActive := by
  rw [leaves_eq, List.map_filterMap, ← List.filterMap_eq_filter]
  congr 1
  funext id
  cases h : F.leaf? id with
  | none => simp [Option.guard, isActive_eq, h]
  | some l => simp [Option.guard, isActive_eq, h, leaf?_id h]

theorem mem_ids_filter_leaves {q : Leaf → Bool} :
    id ∈ (F.leaves.filter q).map (·.id) ↔ ∃ l, F.leaf? id = some l ∧ q l = true := by
  simp only [List.mem_map, List.mem_filter]
  constructor
  · rintro ⟨l, ⟨hl, holds⟩, rfl⟩
    exact ⟨l, mem_leaves_iff.mp hl, holds⟩
  · rintro ⟨l, hl, holds⟩
    exact ⟨l, ⟨mem_leaves_of_leaf? hl, holds⟩, leaf?_id hl⟩

/-- Leaves are listed by ascending slots. -/
theorem pairwise_leaves : F.leaves.Pairwise (·.id.slot < ·.id.slot) := by
  have ids : (F.leaves.map (·.id)).Pairwise (·.slot < ·.slot) := by
    rw [leaves_ids]
    exact (CellId.pairwise_block _ _).sublist List.filter_sublist
  rwa [List.pairwise_map] at ids

theorem nodup_leaves_ids : (F.leaves.map (·.id)).Nodup := by
  rw [leaves_ids]
  exact (CellId.nodup_block _ _).sublist List.filter_sublist

theorem nodup_cells_ids : (F.cells.map Prod.fst).Nodup := by
  have ids : F.cells.map Prod.fst = (CellId.block 0 F.slots.size).filter F.contains := by
    rw [cells, List.map_filterMap, ← List.filterMap_eq_filter]
    congr 1
    funext id
    cases hc : F.cell? id <;> simp [Option.guard, contains, hc]
  rw [ids]
  exact (CellId.nodup_block _ _).sublist List.filter_sublist

/-- Slots after the last one hold no leaf. -/
theorem leaves_eq_of_le {n : Nat} (room : F.slots.size ≤ n) : F.leaves = (CellId.block 0 n).filterMap F.leaf? := by
  have beyond : ∀ id ∈ CellId.block F.slots.size (n - F.slots.size), F.leaf? id = none := fun id hid => by
    rw [leaf?, cell?_eq_none_of_size_le (CellId.mem_block.mp hid).1, Option.bind_none]
  have all : CellId.block 0 n = CellId.block 0 F.slots.size ++ CellId.block F.slots.size (n - F.slots.size) := by
    have split := CellId.block_add 0 F.slots.size (n - F.slots.size)
    rwa [Nat.add_sub_cancel' room, Nat.zero_add] at split
  rw [leaves_eq, all, List.filterMap_append, List.filterMap_eq_nil_iff.mpr beyond, List.append_nil]

theorem leaves_eq_map {g : Leaf → Leaf} (size : F.slots.size ≤ G.slots.size)
    (view : ∀ id, G.leaf? id = (F.leaf? id).map g) : G.leaves = F.leaves.map g := by
  rw [leaves_eq, leaves_eq_of_le size, List.map_filterMap]
  congr 1
  exact funext view

/-! ### Changes of markers -/

theorem cell?_remark (f : Leaf → Markers) : (F.remark f).cell? id = (F.cell? id).map fun c =>
    match c.leaf? id with
    | some l => c.mapMarkers fun _ => f l
    | none => c :=
  cell?_mapCells F _ id

theorem leaf?_remark (f : Leaf → Markers) :
    (F.remark f).leaf? id = (F.leaf? id).map fun l => { l with markers := f l } := by
  cases h : F.cell? id with
  | none => simp [leaf?, cell?_remark, h]
  | some c =>
    cases hr : c.role with
    | active m => simp [leaf?, cell?_remark, h, Cell.leaf?, Cell.markers?, Cell.mapMarkers, hr]
    | split ks => simp [leaf?, cell?_remark, h, Cell.leaf?, Cell.markers?, hr]

theorem leaf?_modify (f : Markers → Markers) (j : CellId) : (F.modify id (Cell.mapMarkers f)).leaf? j =
    if id = j then (F.leaf? j).map fun l => { l with markers := f l.markers } else F.leaf? j := by
  by_cases same : id = j
  · subst same
    cases h : F.cell? id with
    | none => simp [leaf?, cell?_modify, h]
    | some c => cases hr : c.role <;> simp [leaf?, cell?_modify, h, Cell.leaf?, Cell.markers?, Cell.mapMarkers, hr]
  · simp [leaf?, cell?_modify, same]

theorem isActive_remark (f : Leaf → Markers) : (F.remark f).isActive id = F.isActive id := by
  rw [isActive_eq, leaf?_remark, Option.isSome_map, isActive_eq]

theorem markers?_remark (f : Leaf → Markers) : (F.remark f).markers? id = (F.leaf? id).map f := by
  rw [markers?_eq, leaf?_remark, Option.map_map]
  rfl

theorem coarsens_remark_iff {f : Leaf → Markers} :
    (F.remark f).coarsens id = true ↔ ∃ l, F.leaf? id = some l ∧ (f l).flag = .coarsen := by
  rw [coarsens, markers?_remark]
  cases F.leaf? id <;> simp

theorem leaves_remark (f : Leaf → Markers) :
    (F.remark f).leaves = F.leaves.map fun l => { l with markers := f l } :=
  leaves_eq_map (Nat.le_of_eq (size_remark f).symm) fun _ => leaf?_remark f

/-- A slot is empty, or it holds a leaf or a split cell. -/
theorem cell?_cases (F : Forest D) (id : CellId) : F.cell? id = none ∨ (∃ l, F.leaf? id = some l) ∨
    ∃ c, F.cell? id = some c ∧ c.isActive = false := by
  cases hc : F.cell? id with
  | none => exact Or.inl rfl
  | some c =>
    cases hr : c.role with
    | active m => exact Or.inr (Or.inl ⟨_, leaf?_of_role hc hr⟩)
    | split ks => exact Or.inr (Or.inr ⟨c, rfl, Cell.not_isActive_of_role hr⟩)

theorem cell?_of_inactive (inactive : F.isActive id = false) :
    F.cell? id = none ∨ ∃ c, F.cell? id = some c ∧ c.isActive = false := by
  rcases F.cell?_cases id with dead | ⟨l, hl⟩ | split
  · exact Or.inl dead
  · simp [isActive_eq, hl] at inactive
  · exact Or.inr split

theorem cell?_remark_of_none (dead : F.cell? id = none) (f : Leaf → Markers) : (F.remark f).cell? id = none := by
  rw [cell?_remark, dead, Option.map_none]

theorem leaf?_remark_of_leaf? (hl : F.leaf? id = some l) (f : Leaf → Markers) :
    (F.remark f).leaf? id = some { l with markers := f l } := by
  rw [leaf?_remark, hl, Option.map_some]

theorem cell?_remark_of_leaf? (hl : F.leaf? id = some l) (f : Leaf → Markers) :
    (F.remark f).cell? id = some { l with markers := f l }.cell :=
  cell?_of_leaf? (leaf?_remark_of_leaf? hl f)

theorem cell?_remark_of_split {c : Cell} (hc : F.cell? id = some c) (split : c.isActive = false)
    (f : Leaf → Markers) : (F.remark f).cell? id = some c := by
  rw [cell?_remark, hc, Option.map_some, Cell.leaf?_of_not_isActive split]

theorem cell?_remark_of_inactive (inactive : F.isActive id = false) (f : Leaf → Markers) :
    (F.remark f).cell? id = F.cell? id := by
  rcases cell?_of_inactive inactive with dead | ⟨c, hc, split⟩
  · rw [cell?_remark_of_none dead, dead]
  · rw [cell?_remark_of_split hc split, hc]

theorem cell?_remark_eq_split {c : Cell} (split : c.isActive = false) (f : Leaf → Markers) :
    (F.remark f).cell? id = some c ↔ F.cell? id = some c := by
  refine ⟨fun hc => ?_, fun hc => cell?_remark_of_split hc split f⟩
  rcases F.cell?_cases id with dead | ⟨l, hl⟩ | ⟨d, hd, inner⟩
  · rw [cell?_remark_of_none dead] at hc
    cases hc
  · rw [cell?_remark_of_leaf? hl] at hc
    cases hc
    cases split
  · rwa [cell?_remark_of_split hd inner, ← hd] at hc

/-- A forest is another one remarked if it has the new markers on the leaves and the other cells as they were. -/
theorem eq_remark {f : Leaf → Markers} (size : G.slots.size = F.slots.size)
    (dead : ∀ {id}, F.cell? id = none → G.cell? id = none)
    (leaf : ∀ {id l}, F.leaf? id = some l → G.cell? id = some { l with markers := f l }.cell)
    (split : ∀ {id c}, F.cell? id = some c → c.isActive = false → G.cell? id = some c) : G = F.remark f := by
  refine eq_of_cell? (size.trans (size_remark f).symm) fun id => ?_
  rcases F.cell?_cases id with hc | ⟨l, hl⟩ | ⟨c, hc, inner⟩
  · rw [dead hc, cell?_remark_of_none hc]
  · rw [leaf hl, cell?_remark_of_leaf? hl]
  · rw [split hc inner, cell?_remark_of_split hc inner]

theorem remark_congr {f g : Leaf → Markers} (same : ∀ l ∈ F.leaves, f l = g l) : F.remark f = F.remark g :=
  eq_remark (size_remark f) (cell?_remark_of_none · f)
    (fun hl => by rw [cell?_remark_of_leaf? hl, same _ (mem_leaves_of_leaf? hl)])
    fun hc split => cell?_remark_of_split hc split f

theorem remark_markers (F : Forest D) : F.remark Leaf.markers = F :=
  (eq_remark (f := Leaf.markers) rfl id cell?_of_leaf? fun hc _ => hc).symm

theorem remark_remark (f g : Leaf → Markers) :
    (F.remark f).remark g = F.remark fun l => g { l with markers := f l } := by
  refine eq_remark (by simp) (fun hc => ?_) (fun hl => ?_) fun hc split => ?_
  · exact cell?_remark_of_none (cell?_remark_of_none hc f) g
  · exact cell?_remark_of_leaf? (leaf?_remark_of_leaf? hl f) g
  · exact cell?_remark_of_split (cell?_remark_of_split hc split f) split g

theorem modify_eq_remark (f : Markers → Markers) : F.modify id (Cell.mapMarkers f) =
    F.remark fun l => if l.id = id then f l.markers else l.markers := by
  refine eq_remark (size_modify _) (fun {j} dead => ?_) (fun {j l} hl => cell?_of_leaf? ?_) fun {j c} hc split => ?_
  · rw [cell?_modify, dead, Option.map_none, ite_self]
  · obtain rfl := leaf?_id hl
    rw [leaf?_modify, hl]
    by_cases same : l.id = id
    · rw [if_pos same.symm, if_pos same, Option.map_some]
    · rw [if_neg (Ne.symm same), if_neg same]
  · rw [cell?_modify, hc, Option.map_some, Cell.mapMarkers_of_not_isActive split, ite_self]

/-! ### Changes on chosen leaves -/

end Forest

/-- The markers that `f` chooses for the leaf if its id is listed, and else its own. -/
def Leaf.markOn (f : Leaf → Markers) (ids : List CellId) (l : Leaf) : Markers := if l.id ∈ ids then f l else l.markers

namespace Forest
variable {D : Nat} {F : Forest D} {id : CellId} {ids ids' : List CellId} {l : Leaf} {f : Leaf → Markers}

theorem remark_markOn_nil : F.remark (Leaf.markOn f []) = F :=
  (remark_congr fun _ _ => if_neg List.not_mem_nil).trans F.remark_markers

theorem remark_markOn_congr (same : ∀ l ∈ F.leaves, l.id ∈ ids ↔ l.id ∈ ids') :
    F.remark (Leaf.markOn f ids) = F.remark (Leaf.markOn f ids') :=
  remark_congr fun l hl => by rw [Leaf.markOn, Leaf.markOn, if_congr (same l hl) rfl rfl]

theorem remark_markOn_filter (q : Leaf → Bool) : F.remark (Leaf.markOn f ((F.leaves.filter q).map (·.id))) =
    F.remark fun l => if q l then f l else l.markers := by
  refine remark_congr fun l hl => ?_
  have listed : l.id ∈ (F.leaves.filter q).map (·.id) ↔ q l = true := by
    rw [mem_ids_filter_leaves, mem_leaves_iff.mp hl]
    simp
  rw [Leaf.markOn, if_congr listed rfl rfl]

/-- Changes that the markers they make do not influence can be made in two parts. -/
theorem remark_markOn_append (again : ∀ l, f { l with markers := f l } = f l) :
    (F.remark (Leaf.markOn f ids)).remark (Leaf.markOn f ids') = F.remark (Leaf.markOn f (ids ++ ids')) := by
  rw [remark_remark]
  refine remark_congr fun l _ => ?_
  by_cases first : l.id ∈ ids <;> by_cases second : l.id ∈ ids' <;> simp [Leaf.markOn, first, second, again]

theorem modify_eq_markOn {g : Markers → Markers} (hl : F.leaf? id = some l) (same : g l.markers = f l) :
    F.modify id (Cell.mapMarkers g) = F.remark (Leaf.markOn f [id]) := by
  rw [modify_eq_remark]
  refine remark_congr fun m hm => ?_
  by_cases here : m.id = id
  · obtain rfl : l = m := Option.some.inj (hl.symm.trans (here ▸ mem_leaves_iff.mp hm))
    rw [if_pos here, Leaf.markOn, if_pos (List.mem_singleton.mpr here), same]
  · rw [if_neg here, Leaf.markOn, if_neg (mt List.mem_singleton.mp here)]

end Forest

end HpForest
