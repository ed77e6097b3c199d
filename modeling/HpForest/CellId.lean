/-!
# Cell ids

A cell is named by its slot in the arena of its forest. Slots are given out in order and never
again, so an id names one cell for good.
-/

namespace HpForest

/-- The name of a cell. -/
structure CellId where
  slot : Nat
deriving DecidableEq, Repr, Inhabited

namespace CellId

theorem ext {a b : CellId} (h : a.slot = b.slot) : a = b := by
  cases a; cases b; exact congrArg mk h

theorem ext_iff {a b : CellId} : a = b ↔ a.slot = b.slot := ⟨congrArg slot, ext⟩

instance : ToString CellId := ⟨fun id => toString id.slot⟩

/-- The id with the name of its type around it. -/
def label (id : CellId) : String := s!"CellId({id})"

/-- The ids of `n` slots from `first` on. -/
def block (first n : Nat) : List CellId := (List.range' first n).map mk

theorem mem_block {first n : Nat} {id : CellId} :
    id ∈ block first n ↔ first ≤ id.slot ∧ id.slot < first + n := by
  simp only [block, List.mem_map, List.mem_range'_1]
  constructor
  · rintro ⟨_, bounds, rfl⟩
    exact bounds
  · exact fun bounds => ⟨id.slot, bounds, rfl⟩

theorem pairwise_block (first n : Nat) : (block first n).Pairwise (·.slot < ·.slot) := by
  rw [block, List.pairwise_map]
  exact List.pairwise_lt_range'

theorem nodup_block (first n : Nat) : (block first n).Nodup :=
  (pairwise_block first n).imp fun below same => Nat.ne_of_lt below (congrArg slot same)

theorem block_add (first m n : Nat) : block first (m + n) = block first m ++ block (first + m) n := by
  rw [block, ← List.range'_append_1, List.map_append, block, block]

/-- Each id once, in ascending order. -/
def sortDistinct (ids : List CellId) : List CellId :=
  ids.eraseDups.mergeSort fun a b => a.slot ≤ b.slot

theorem mem_sortDistinct {ids : List CellId} {id : CellId} : id ∈ sortDistinct ids ↔ id ∈ ids := by
  simp [sortDistinct]

end CellId

end HpForest
