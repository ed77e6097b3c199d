import HpForest.Forest.Topology
import HpForest.Proofs.Forest.View
import Mathlib.Data.List.Nodup

/-! # Linked forests

The arena of a forest holds parents and children by id. `Linked` says that these ids form trees: a
child names the one cell that lists it, stands one level below it and came after it, and a split cell
has its full number of children. It is stronger than what `Forest.check` looks for, and it is what the
operations keep; a change of markers or elements keeps it because it keeps the links (`SameLinks`). -/

namespace HpForest

/-- The place of a cell in its tree: its level, its parent, and its children if it is split. -/
def Cell.links (c : Cell) : Nat × Option CellId × Bool × List CellId :=
  (c.level, c.parent, c.isActive, c.children)

@[simp] theorem Cell.links_mapMarkers {c : Cell} {f : Markers → Markers} :
    (c.mapMarkers f).links = c.links := by
  simp [links]

namespace Forest
variable {D : Nat} {F G H : Forest D} {id k p : CellId} {c d : Cell}

/-- The parents and children of live cells form trees whose roots are at level zero. -/
structure Linked (F : Forest D) : Prop where
  root : ∀ {id c}, F.cell? id = some c → c.parent = none → c.level = 0
  /-- The parent is live and lists the cell. -/
  parent : ∀ {id c p}, F.cell? id = some c → c.parent = some p → ∃ q, F.cell? p = some q ∧ id ∈ q.children
  /-- A child is live, names its parent, stands one level below it and is younger. -/
  child : ∀ {id c k}, F.cell? id = some c → k ∈ c.children →
    ∃ d, F.cell? k = some d ∧ d.parent = some id ∧ d.level = c.level + 1 ∧ id.slot < k.slot
  distinct : ∀ {id c}, F.cell? id = some c → c.children.Nodup
  count : ∀ {id c}, F.cell? id = some c → c.isActive = false → c.children.length = fanout D
  level_le : ∀ {id c}, F.cell? id = some c → c.level ≤ maxLevel

theorem Linked.empty : (Forest.empty : Forest D).Linked := by
  have dead : ∀ id, (Forest.empty : Forest D).cell? id = none := fun id => by
    simp [Forest.empty, cell?]
  constructor <;> intro id c <;> simp [dead]

namespace Linked

theorem parent_of_mem (h : F.Linked) (hc : F.cell? id = some c) (hk : k ∈ c.children)
    (hd : F.cell? k = some d) : d.parent = some id := by
  obtain ⟨d', hd', hp, -⟩ := h.child hc hk
  rw [hd] at hd'
  cases hd'
  exact hp

/-- The parent lists the cell, stands one level above it and is older. -/
theorem above (h : F.Linked) (hc : F.cell? id = some c) (hp : c.parent = some p) :
    ∃ q, F.cell? p = some q ∧ id ∈ q.children ∧ c.level = q.level + 1 ∧ p.slot < id.slot := by
  obtain ⟨q, hq, listed⟩ := h.parent hc hp
  obtain ⟨d, hd, -, below, older⟩ := h.child hq listed
  rw [hc] at hd
  cases hd
  exact ⟨q, hq, listed, below, older⟩

theorem mem_children_iff (h : F.Linked) (hc : F.cell? p = some c) (hd : F.cell? k = some d) :
    k ∈ c.children ↔ d.parent = some p := by
  constructor
  · exact fun hk => h.parent_of_mem hc hk hd
  · intro hp
    obtain ⟨q, hq, listed⟩ := h.parent hd hp
    rw [hc] at hq
    cases hq
    exact listed

theorem eq_of_mem (h : F.Linked) {q : CellId} {e : Cell} (hc : F.cell? id = some c)
    (he : F.cell? q = some e) (hk : k ∈ c.children) (hk' : k ∈ e.children) : id = q := by
  obtain ⟨d, hd, hp, -⟩ := h.child hc hk
  have hq := h.parent_of_mem he hk' hd
  rw [hp] at hq
  exact Option.some.inj hq

theorem children_live (h : F.Linked) (hc : F.cell? id = some c) : ∀ k ∈ c.children, ∃ d, F.cell? k = some d := by
  intro k hk
  obtain ⟨d, hd, -⟩ := h.child hc hk
  exact ⟨d, hd⟩

theorem ne_of_mem (h : F.Linked) (hc : F.cell? id = some c) (hk : k ∈ c.children) : k ≠ id := by
  obtain ⟨-, -, -, -, younger⟩ := h.child hc hk
  rintro rfl
  exact Nat.lt_irrefl _ younger

theorem children_ne_nil (h : F.Linked) (hc : F.cell? id = some c) (split : c.isActive = false) :
    c.children ≠ [] := by
  have full := h.count hc split
  intro none
  rw [none] at full
  exact absurd full (Nat.ne_of_lt fanout_pos)

theorem not_isActive_of_mem (hk : k ∈ c.children) : c.isActive = false := by
  cases active : c.isActive with
  | false => rfl
  | true => simp [Cell.children_of_isActive active] at hk

theorem level_lt (h : F.Linked) (hc : F.cell? id = some c) (split : c.isActive = false) :
    c.level < maxLevel := by
  obtain ⟨k, hk⟩ := List.exists_mem_of_ne_nil _ (h.children_ne_nil hc split)
  obtain ⟨d, hd, -, below, -⟩ := h.child hc hk
  have bound := h.level_le hd
  omega

end Linked

/-! ### The children of several cells -/

def childrenOf (F : Forest D) (p : CellId) : List CellId := ((F.cell? p).map (·.children)).getD []

theorem childrenOf_eq (hc : F.cell? p = some c) : F.childrenOf p = c.children := by simp [childrenOf, hc]

theorem mem_childrenOf : k ∈ F.childrenOf p ↔ ∃ c, F.cell? p = some c ∧ k ∈ c.children := by
  cases hc : F.cell? p <;> simp [childrenOf, hc]

/-- Different cells have different children. -/
theorem Linked.nodup_flatMap_childrenOf (h : F.Linked) {ps : List CellId} (distinct : ps.Nodup) :
    (ps.flatMap F.childrenOf).Nodup := by
  refine List.nodup_flatMap.mpr ⟨fun p _ => ?_, distinct.imp fun ne k hp hq => ?_⟩
  · cases hc : F.cell? p with
    | none => simp [childrenOf, hc]
    | some c => exact childrenOf_eq hc ▸ h.distinct hc
  · obtain ⟨c, hc, listed⟩ := mem_childrenOf.mp hp
    obtain ⟨d, hd, listed'⟩ := mem_childrenOf.mp hq
    exact ne (h.eq_of_mem hc hd listed listed')

theorem Linked.length_flatMap_childrenOf (h : F.Linked) {ps : List CellId}
    (split : ∀ p ∈ ps, ∃ c, F.cell? p = some c ∧ c.isActive = false) :
    (ps.flatMap F.childrenOf).length = fanout D * ps.length := by
  have full : ∀ p ∈ ps, (F.childrenOf p).length = fanout D := fun p hp => by
    obtain ⟨c, hc, inner⟩ := split p hp
    rw [childrenOf_eq hc, h.count hc inner]
  rw [List.length_flatMap, List.map_congr_left full, List.map_const', List.sum_replicate_nat, Nat.mul_comm]

/-! ### Changes that keep the links -/

/-- The two forests have the same live cells with the same links; elements and markers may differ. -/
def SameLinks (F G : Forest D) : Prop :=
  ∀ id, (G.cell? id).map Cell.links = (F.cell? id).map Cell.links

namespace SameLinks

theorem refl (F : Forest D) : SameLinks F F := fun _ => rfl

theorem trans (h₁ : SameLinks F G) (h₂ : SameLinks G H) : SameLinks F H := fun id =>
  (h₂ id).trans (h₁ id)

theorem symm (h : SameLinks F G) : SameLinks G F := fun id => (h id).symm

theorem cell (h : SameLinks F G) (hc : G.cell? id = some c) :
    ∃ b, F.cell? id = some b ∧ b.level = c.level ∧ b.parent = c.parent ∧ b.isActive = c.isActive ∧
      b.children = c.children := by
  have same := h id
  rw [hc, Option.map_some] at same
  obtain ⟨b, hb, links⟩ := Option.map_eq_some_iff.mp same.symm
  simp only [Cell.links, Prod.mk.injEq] at links
  exact ⟨b, hb, links⟩

theorem linked (h : SameLinks F G) (linked : F.Linked) : G.Linked where
  root hc top := by
    obtain ⟨b, hb, level, parent, -⟩ := h.cell hc
    exact level ▸ linked.root hb (parent.trans top)
  parent hc hp := by
    obtain ⟨b, hb, -, parent, -⟩ := h.cell hc
    obtain ⟨q, hq, listed⟩ := linked.parent hb (parent.trans hp)
    obtain ⟨q', hq', -, -, -, children⟩ := h.symm.cell hq
    exact ⟨q', hq', children ▸ listed⟩
  child hc hk := by
    obtain ⟨b, hb, level, -, -, children⟩ := h.cell hc
    obtain ⟨d, hd, parent, below, younger⟩ := linked.child hb (children ▸ hk)
    obtain ⟨d', hd', level', parent', -⟩ := h.symm.cell hd
    exact ⟨d', hd', parent'.trans parent, by rw [level', below, level], younger⟩
  distinct hc := by
    obtain ⟨b, hb, -, -, -, children⟩ := h.cell hc
    exact children ▸ linked.distinct hb
  count hc split := by
    obtain ⟨b, hb, -, -, active, children⟩ := h.cell hc
    exact children ▸ linked.count hb (active.trans split)
  level_le hc := by
    obtain ⟨b, hb, level, -⟩ := h.cell hc
    exact level ▸ linked.level_le hb

theorem of_modify {f : Cell → Cell} (keeps : ∀ c, (f c).links = c.links) :
    SameLinks F (F.modify id f) := fun j => by
  rw [cell?_modify]
  split
  · cases F.cell? j <;> simp [keeps]
  · rfl

theorem of_mapCells {f : CellId → Cell → Cell} (keeps : ∀ id c, (f id c).links = c.links) :
    SameLinks F (F.mapCells f) := fun j => by
  rw [cell?_mapCells]
  cases F.cell? j <;> simp [keeps]

theorem of_modifyEach {f : Cell → Cell} (keeps : ∀ c, (f c).links = c.links) (ids : List CellId) :
    SameLinks F (F.modifyEach ids f) := by
  induction ids generalizing F with
  | nil => exact refl F
  | cons id rest ih => exact (of_modify keeps).trans ih

theorem of_remark (f : Leaf → Markers) : SameLinks F (F.remark f) :=
  of_mapCells fun id c => by cases c.leaf? id <;> simp

end SameLinks

/-- The cells are where they were, in as many slots; markers and elements may differ. -/
structure SameCells (F G : Forest D) : Prop where
  links : SameLinks F G
  size : G.slots.size = F.slots.size

namespace SameCells

theorem refl (F : Forest D) : SameCells F F := ⟨SameLinks.refl F, rfl⟩

theorem trans (h₁ : SameCells F G) (h₂ : SameCells G H) : SameCells F H :=
  ⟨h₁.links.trans h₂.links, h₂.size.trans h₁.size⟩

theorem of_modify {f : Cell → Cell} (keeps : ∀ c, (f c).links = c.links) : SameCells F (F.modify id f) :=
  ⟨SameLinks.of_modify keeps, size_modify f⟩

theorem of_remark (f : Leaf → Markers) : SameCells F (F.remark f) := ⟨SameLinks.of_remark f, size_remark f⟩

theorem exists_leaf? (h : SameCells F G) {l : Leaf} (hl : F.leaf? id = some l) : ∃ m, G.leaf? id = some m := by
  obtain ⟨c, hc, -, -, active, -⟩ := h.links.symm.cell (cell?_of_leaf? hl)
  have active : G.isActive id = true := isActive_iff.mpr ⟨c, hc, active⟩
  exact Option.isSome_iff_exists.mp (isActive_eq ▸ active)

end SameCells

end Forest

end HpForest
