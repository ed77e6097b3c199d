import HpForest.Proofs.History.Change
import Mathlib.Algebra.BigOperators.Group.List.Basic
import Mathlib.Algebra.Field.Rat
import Mathlib.Tactic.NormNum

/-! # The leaves tile the roots

Every live cell is a root or a child of exactly one split cell (`Linked.cells_perm`). A cell at level `n`
covers `(1/2) ^ (D * n)` of its root, as much as its children together, so the shares of the leaves sum up
to the number of roots. Only adding a root changes that number, whatever else a history does. -/

namespace HpForest

/-! ### Every cell is a root or a child -/

namespace Forest
variable {D : Nat} {F : Forest D} {id p : CellId} {c : Cell} {l : Leaf}

/-- The split cells, in the order of their slots. -/
def inner (F : Forest D) : List (CellId × Cell) := F.cells.filter fun (_, c) => !c.isActive

def innerChildren (F : Forest D) : List CellId := F.inner.flatMap fun (_, c) => c.children

theorem mem_inner : (id, c) ∈ F.inner ↔ F.cell? id = some c ∧ c.isActive = false := by
  simp [inner, mem_cells]

theorem mem_innerChildren : id ∈ F.innerChildren ↔ ∃ p c, F.cell? p = some c ∧ id ∈ c.children := by
  simp only [innerChildren, List.mem_flatMap, Prod.exists, mem_inner]
  constructor
  · rintro ⟨p, c, ⟨hc, -⟩, listed⟩
    exact ⟨p, c, hc, listed⟩
  · rintro ⟨p, c, hc, listed⟩
    exact ⟨p, c, ⟨hc, Linked.not_isActive_of_mem listed⟩, listed⟩

theorem nodup_roots : F.roots.Nodup := (CellId.nodup_block _ _).filter _

theorem mem_inner_ids : id ∈ F.inner.map Prod.fst ↔ ∃ c, F.cell? id = some c ∧ c.isActive = false := by
  simp [List.mem_map, mem_inner]

theorem nodup_inner_ids : (F.inner.map Prod.fst).Nodup := nodup_cells_ids.sublist (List.filter_sublist.map _)

theorem innerChildren_eq : F.innerChildren = (F.inner.map Prod.fst).flatMap F.childrenOf := by
  have each : ∀ cell ∈ F.inner, cell.2.children = F.childrenOf cell.1 := fun (id, c) hc =>
    (childrenOf_eq (mem_inner.mp hc).1).symm
  rw [innerChildren, List.flatMap_map, List.flatMap_def, List.flatMap_def]
  exact congrArg List.flatten (List.map_congr_left each)

theorem Linked.nodup_innerChildren (h : F.Linked) : F.innerChildren.Nodup :=
  innerChildren_eq ▸ h.nodup_flatMap_childrenOf nodup_inner_ids

theorem Linked.cells_perm (h : F.Linked) : (F.cells.map Prod.fst).Perm (F.roots ++ F.innerChildren) := by
  -- A root has no parent and a child has one, so the two lists share no cell.
  have apart : ∀ r ∈ F.roots, ∀ k ∈ F.innerChildren, r ≠ k := by
    rintro r hr k hk rfl
    obtain ⟨c, hc, top⟩ := mem_roots.mp hr
    obtain ⟨p, q, hq, listed⟩ := mem_innerChildren.mp hk
    rw [h.parent_of_mem hq listed hc] at top
    cases top
  have distinct := List.nodup_append.mpr ⟨nodup_roots, h.nodup_innerChildren, apart⟩
  refine (List.perm_ext_iff_of_nodup nodup_cells_ids distinct).mpr fun id => ?_
  simp only [List.mem_map, Prod.exists, exists_and_right, exists_eq_right, mem_cells, List.mem_append, mem_roots,
    mem_innerChildren]
  constructor
  · rintro ⟨c, hc⟩
    cases hp : c.parent with
    | none => exact Or.inl ⟨c, hc, hp⟩
    | some p =>
      obtain ⟨q, hq, listed⟩ := h.parent hc hp
      exact Or.inr ⟨p, q, hq, listed⟩
  · rintro (⟨c, hc, -⟩ | ⟨p, q, hq, listed⟩)
    · exact ⟨c, hc⟩
    · obtain ⟨d, hd, -⟩ := h.child hq listed
      exact ⟨d, hd⟩

theorem Linked.length_innerChildren (h : F.Linked) : F.innerChildren.length = fanout D * F.inner.length := by
  rw [innerChildren_eq, h.length_flatMap_childrenOf fun p => mem_inner_ids.mp, List.length_map]

theorem Linked.size_eq (h : F.Linked) : F.size = F.roots.length + fanout D * F.inner.length := by
  rw [size, ← List.length_map (f := Prod.fst), h.cells_perm.length_eq, List.length_append, h.length_innerChildren]

/-- The leaves are the active ones among the cells. -/
theorem levels_leaves :
    F.leaves.map (·.level) = (F.cells.filter fun (_, c) => c.isActive).map fun (_, c) => c.level := by
  rw [Forest.leaves, List.map_filterMap, ← List.filterMap_eq_map, ← List.filterMap_eq_filter, List.filterMap_filterMap]
  refine List.filterMap_congr fun x _ => ?_
  cases hr : x.2.role <;> simp [Cell.leaf?, Cell.markers?, Cell.isActive, Option.guard, hr]

/-- A live cell is a leaf or split. -/
theorem size_eq_leaves_add_inner : F.size = F.leaves.length + F.inner.length := by
  have leaves : F.leaves.length = (F.cells.filter fun (_, c) => c.isActive).length := by
    simpa using congrArg List.length (levels_leaves (F := F))
  rw [size, leaves, inner, ← List.length_append]
  exact (List.filter_append_perm _ _).length_eq.symm

/-! ### Shares -/

/-- The part of its root that a cell at the given level covers. -/
def share (D level : Nat) : ℚ := (1 / 2) ^ (D * level)

theorem share_zero : share D 0 = 1 := by simp [share]

theorem share_succ (level : Nat) : (fanout D : ℚ) * share D (level + 1) = share D level := by
  have whole : (2 : ℚ) ^ D * (1 / 2) ^ D = 1 := by rw [← mul_pow]; norm_num
  have power : (fanout D : ℚ) = 2 ^ D := by exact_mod_cast rfl
  rw [share, share, Nat.mul_succ, pow_add, power, mul_left_comm, whole, mul_one]

/-- The share of the cell with the given id; an id that names none has no share. -/
def shareAt (F : Forest D) (id : CellId) : ℚ := (F.cell? id).elim 0 fun c => share D c.level

theorem shareAt_eq (hc : F.cell? id = some c) : F.shareAt id = share D c.level := by simp [shareAt, hc]

/-- The children of a cell cover as much as the cell. -/
theorem Linked.sum_children (h : F.Linked) (hc : F.cell? id = some c) (split : c.isActive = false) :
    (c.children.map F.shareAt).sum = share D c.level := by
  have level : ∀ k ∈ c.children, F.shareAt k = share D (c.level + 1) := fun k hk => by
    obtain ⟨d, hd, -, below, -⟩ := h.child hc hk
    rw [shareAt_eq hd, below]
  rw [List.map_congr_left level, List.map_const', List.sum_replicate, h.count hc split, nsmul_eq_mul, share_succ]

theorem Linked.sum_innerChildren (h : F.Linked) :
    (F.innerChildren.map F.shareAt).sum = (F.inner.map fun (_, c) => share D c.level).sum := by
  have each : ∀ cell ∈ F.inner, (cell.2.children.map F.shareAt).sum = share D cell.2.level := fun (id, c) hc =>
    h.sum_children (mem_inner.mp hc).1 (mem_inner.mp hc).2
  rw [innerChildren, List.map_flatMap, List.flatMap_def, List.sum_flatten, List.map_map]
  exact congrArg List.sum (List.map_congr_left each)

theorem Linked.sum_roots (h : F.Linked) : (F.roots.map F.shareAt).sum = F.roots.length := by
  have whole : ∀ r ∈ F.roots, F.shareAt r = 1 := fun r hr => by
    obtain ⟨c, hc, top⟩ := mem_roots.mp hr
    rw [shareAt_eq hc, h.root hc top, share_zero]
  rw [List.map_congr_left whole, List.map_const', List.sum_replicate, nsmul_eq_mul, mul_one]

theorem sum_cells : (F.cells.map fun (_, c) => share D c.level).sum =
    (F.leaves.map fun l => share D l.level).sum + (F.inner.map fun (_, c) => share D c.level).sum := by
  have leaves : F.leaves.map (fun l => share D l.level) =
      (F.cells.filter fun (_, c) => c.isActive).map fun (_, c) => share D c.level := by
    simpa [Function.comp_def] using congrArg (List.map (share D)) (levels_leaves (F := F))
  rw [leaves, inner, ← List.sum_append, ← List.map_append]
  exact ((List.filter_append_perm _ _).map _).sum_eq.symm

/-- The shares of the leaves sum up to the number of roots. -/
theorem Linked.sum_leaves (h : F.Linked) : (F.leaves.map fun l => share D l.level).sum = F.roots.length := by
  have cells : F.cells.map (fun (_, c) => share D c.level) = (F.cells.map Prod.fst).map F.shareAt := by
    rw [List.map_map]
    exact List.map_congr_left fun (id, c) hc => (shareAt_eq (mem_cells.mp hc)).symm
  have total := sum_cells (F := F)
  rw [cells, (h.cells_perm.map F.shareAt).sum_eq, List.map_append, List.sum_append, h.sum_roots,
    h.sum_innerChildren] at total
  exact (add_right_cancel total).symm

/-! ### Histories -/

/-- No two leaves stand one above the other. -/
theorem Linked.ancestor_not_isActive (h : F.Linked) {n : Nat} {r : CellId} (above : F.ancestor? (n + 1) id = some r) :
    F.isActive r = false := by
  obtain ⟨k, d, -, hd, parent⟩ := ancestor?_succ above
  obtain ⟨c, hc, listed⟩ := h.parent hd parent
  have split := Linked.not_isActive_of_mem listed
  rw [Bool.eq_false_iff, Ne, isActive_iff]
  rintro ⟨b, hb, active⟩
  rw [hc] at hb
  cases hb
  rw [split] at active
  cases active

end Forest

def Operation.addsRoot {P N : Type} : Operation P N → Bool
  | addRoot _ => true
  | _ => false

def Call.addsRoot (call : Call) : Bool := call.op.addsRoot

variable {D : Nat} {F : Forest D}

theorem Operation.not_addsRoot {P N : Type} {op : Operation P N} (other : ∀ index, op ≠ .addRoot index) :
    op.addsRoot = false := by
  cases op with
  | addRoot index => exact absurd rfl (other index)
  | _ => rfl

theorem Forest.Linked.roots_run (h : F.Linked) (call : Call) :
    (call.run F).forest.roots = F.roots ++ if call.addsRoot then [⟨F.slots.size⟩] else [] := by
  obtain ⟨op⟩ := call
  show (op.run F).forest.roots = F.roots ++ if op.addsRoot then _ else _
  rcases h.run_cases op with ⟨grown, other⟩ | ⟨index, rfl⟩ | ⟨fe, summary, rfl, -, executed⟩
  · rw [grown.roots, Operation.not_addsRoot other]
    exact (List.append_nil _).symm
  · exact roots_addRoot F index
  · rw [executed.roots h]
    exact (List.append_nil _).symm

theorem Reachable.length_roots_replay (reached : Reachable F) (calls : List Call) :
    (F.replay calls).roots.length = F.roots.length + calls.countP Call.addsRoot := by
  induction calls generalizing F with
  | nil => rfl
  | cons call rest ih =>
    have head := congrArg List.length (reached.linked.roots_run call)
    have tail := ih (.step call.op reached)
    rw [List.length_append] at head
    rw [List.countP_cons]
    refine tail.trans ?_
    show (call.run F).forest.roots.length + _ = _
    rw [head]
    cases call.addsRoot
    · rfl
    · exact Nat.add_right_comm _ _ _

namespace Forest

/-- After any history the leaves cover as many roots as it has added, and there are as many cells as these
roots and the children of split cells. No call removes a root or uncovers the ground of a leaf, and no leaf
stands above another. -/
theorem leaves_tile_roots (calls : List Call) : let F : Forest D := Forest.empty.replay calls
    (F.leaves.map fun l => (1 / 2 : ℚ) ^ (D * l.level)).sum = calls.countP Call.addsRoot ∧
      F.roots.length = calls.countP Call.addsRoot ∧
      F.size = calls.countP Call.addsRoot + 2 ^ D * F.cells.countP (fun (_, c) => !c.isActive) ∧
      (∀ call : Call, F.roots <+: (call.run F).forest.roots ∧ ∀ l ∈ F.leaves, Covered (call.run F).forest l) ∧
      ∀ n id r, F.ancestor? (n + 1) id = some r → F.isActive r = false := by
  intro F
  have reached : Reachable F := Reachable.empty.replay calls
  have h := reached.linked
  have roots : F.roots.length = calls.countP Call.addsRoot := by
    have counted := Reachable.empty.length_roots_replay (D := D) calls
    rwa [show (Forest.empty : Forest D).roots.length = 0 from rfl, Nat.zero_add] at counted
  refine ⟨roots ▸ h.sum_leaves, roots, ?_, fun call => ⟨?_, fun l hl => ?_⟩, fun n id r => h.ancestor_not_isActive⟩
  · rw [← roots, List.countP_eq_length_filter]
    exact h.size_eq
  · exact h.roots_run call ▸ List.prefix_append _ _
  · exact h.covered_run call.op (mem_leaves_iff.mp hl)

/-- Two split roots, the second split of the first one refused; its children are then merged again. -/
def rejoined : List Call := ([.addRoot 0, .refineCell ⟨0⟩, .refineCell ⟨0⟩, .addRoot 0, .refineCell ⟨3⟩,
  .setFlag ⟨1⟩ .coarsen, .setFlag ⟨2⟩ .coarsen, .execute .twoElements] : List (Operation Rat Rat)).map fun op => ⟨op⟩

theorem rejoined_tile : let F : Forest 1 := Forest.empty.replay rejoined
    (F.leaves.map fun l => (1 / 2 : ℚ) ^ (1 * l.level)).sum = 2 ∧ F.roots.length = 2 ∧ F.size = 4 ∧
      F.ancestor? 1 ⟨4⟩ = some ⟨3⟩ ∧ F.isActive ⟨3⟩ = false := by
  have added : rejoined.countP Call.addsRoot = 2 := rfl
  have above : (Forest.empty.replay rejoined : Forest 1).ancestor? 1 ⟨4⟩ = some ⟨3⟩ := by decide +kernel
  have split : (Forest.empty.replay rejoined : Forest 1).cells.countP (fun (_, c) => !c.isActive) = 1 := by
    decide +kernel
  obtain ⟨sum, roots, size, -, apart⟩ := leaves_tile_roots (D := 1) rejoined
  rw [added] at sum roots size
  rw [split] at size
  exact ⟨sum, roots, size, above, apart 0 ⟨4⟩ ⟨3⟩ above⟩

end Forest
end HpForest
