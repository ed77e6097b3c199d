import HpForest.Proofs.Coarsening.Round
import HpForest.Proofs.History.Change

/-! # Coarsening ends at the roots

The group of a deepest cell can be merged, so each round takes one level off a forest that has more than its
roots (`Coarsened.depth`). A merged cell takes the highest element of its children, so the highest element
under a root stays what it was (`Coarsened.max?_under`). -/

namespace HpForest
namespace Forest
variable {D : Nat} {F H : Forest D} {fe : Collection} {id k p r : CellId} {c d : Cell} {l : Leaf} {n i : Nat}

/-- The forest after `n` rounds of coarsening. -/
def afterRounds (F : Forest D) (fe : Collection) : Nat → Forest D
  | 0 => F
  | n + 1 => ((F.afterRounds fe n).coarsenRound fe).forest

/-! ### Levels -/

/-- The highest level of a cell. -/
def depth (F : Forest D) : Nat := (F.cells.map fun (_, c) => c.level).max?.getD 0

theorem level_le_depth (hc : F.cell? id = some c) : c.level ≤ F.depth := by
  have listed : c.level ∈ F.cells.map fun (_, c) => c.level := List.mem_map.mpr ⟨(id, c), mem_cells.mpr hc, rfl⟩
  cases deepest : (F.cells.map fun (_, c) => c.level).max? with
  | none => cases List.max?_eq_none_iff.mp deepest ▸ listed
  | some m =>
    rw [depth, deepest]
    exact (List.max?_eq_some_iff.mp deepest).2 _ listed

theorem exists_deepest (deep : 0 < F.depth) : ∃ id c, F.cell? id = some c ∧ c.level = F.depth := by
  cases deepest : (F.cells.map fun (_, c) => c.level).max? with
  | none => simp [depth, deepest] at deep
  | some m =>
    obtain ⟨⟨id, c⟩, hc, level⟩ := List.mem_map.mp (List.max?_eq_some_iff.mp deepest).1
    exact ⟨id, c, mem_cells.mp hc, by rw [depth, deepest]; exact level⟩

/-- The siblings of a deepest cell are leaves. -/
theorem Linked.mergeable_of_deepest (h : F.Linked) (hc : F.cell? id = some c) (deepest : c.level = F.depth)
    (hp : c.parent = some p) : F.Mergeable p := by
  obtain ⟨q, hq, listed, below, -⟩ := h.above hc hp
  refine ⟨q, hq, Linked.not_isActive_of_mem listed, fun k hk => ?_⟩
  obtain ⟨d, hd, -, level, -⟩ := h.child hq hk
  cases active : d.isActive with
  | true => exact isActive_iff.mpr ⟨d, hd, active⟩
  | false =>
    obtain ⟨j, hj⟩ := List.exists_mem_of_ne_nil _ (h.children_ne_nil hd active)
    obtain ⟨e, he, -, level', -⟩ := h.child hd hj
    have bound := level_le_depth he
    omega

theorem Linked.parent_of_level (h : F.Linked) (hc : F.cell? id = some c) (below : 0 < c.level) :
    ∃ p, c.parent = some p := by
  cases hp : c.parent with
  | some p => exact ⟨p, rfl⟩
  | none => exact absurd (h.root hc hp) (Nat.ne_of_gt below)

/-- A forest with more than one level has a sibling group at its lowest two. -/
theorem Linked.exists_mergeable (h : F.Linked) (deep : 0 < F.depth) :
    ∃ p c, F.Mergeable p ∧ F.cell? p = some c ∧ c.level + 1 = F.depth := by
  obtain ⟨id, c, hc, deepest⟩ := exists_deepest deep
  obtain ⟨p, hp⟩ := h.parent_of_level hc (deepest ▸ deep)
  obtain ⟨q, hq, -, below, -⟩ := h.above hc hp
  exact ⟨p, q, h.mergeable_of_deepest hc deepest hp, hq, below.symm.trans deepest⟩

theorem Linked.exists_split_iff (h : F.Linked) :
    (∃ id c, F.cell? id = some c ∧ c.isActive = false) ↔ 0 < F.depth := by
  constructor
  · rintro ⟨id, c, hc, split⟩
    obtain ⟨k, hk⟩ := List.exists_mem_of_ne_nil _ (h.children_ne_nil hc split)
    obtain ⟨d, hd, -, level, -⟩ := h.child hc hk
    have bound := level_le_depth hd
    omega
  · intro deep
    obtain ⟨p, c, mergeable, hc, -⟩ := h.exists_mergeable deep
    exact ⟨p, c, hc, (mergeable.of_cell hc).1⟩

theorem Linked.siblingGroups_ne_nil (h : F.Linked) (deep : 0 < F.depth) : F.siblingGroups ≠ [] := by
  obtain ⟨p, c, mergeable, -⟩ := h.exists_mergeable deep
  have listed := mergeable_iff.mp mergeable
  rintro none
  rw [none] at listed
  cases listed

namespace Coarsened
variable (e : Coarsened F H)
include e

/-- A cell after the round is a merged group or stands in no group and is as it was. -/
theorem cases (h : F.Linked) (hd : H.cell? id = some d) : ∃ c, F.cell? id = some c ∧
    ((F.Mergeable id ∧ d = ⟨c.level, c.parent, F.highestTarget c, .active {}⟩) ∨
      ((∀ p, c.parent = some p → ¬F.Mergeable p) ∧ ¬F.Mergeable id ∧ d = c)) := by
  cases hc : F.cell? id with
  | none => cases hd.symm.trans (e.dead hc)
  | some c =>
    refine ⟨c, rfl, ?_⟩
    by_cases mergeable : F.Mergeable id
    · exact Or.inl ⟨mergeable, Option.some.inj (hd.symm.trans (e.merged mergeable hc))⟩
    · have apart : ∀ p, c.parent = some p → ¬F.Mergeable p := fun p hp merges => by
        obtain ⟨q, hq, listed⟩ := h.parent hc hp
        cases hd.symm.trans (e.gone merges hq listed)
      exact Or.inr ⟨apart, mergeable, Option.some.inj (hd.symm.trans (e.kept hc mergeable apart))⟩

theorem old (h : F.Linked) (hd : H.cell? id = some d) :
    ∃ c, F.cell? id = some c ∧ c.level = d.level ∧ c.parent = d.parent := by
  obtain ⟨c, hc, ⟨-, rfl⟩ | ⟨-, -, rfl⟩⟩ := e.cases h hd
  · exact ⟨c, hc, rfl, rfl⟩
  · exact ⟨d, hc, rfl, rfl⟩

/-- A round takes away the lowest level. -/
theorem depth (h : F.Linked) : H.depth = F.depth - 1 := by
  have upper : ∀ {id d}, H.cell? id = some d → d.level ≤ F.depth - 1 := fun {id d} hd => by
    obtain ⟨c, hc, level, -⟩ := e.old h hd
    have bound := level_le_depth hc
    by_cases deepest : c.level = F.depth ∧ 0 < F.depth
    -- A deepest cell has a parent, and the round has merged its group.
    · obtain ⟨p, hp⟩ := h.parent_of_level hc (deepest.1 ▸ deepest.2)
      obtain ⟨q, hq, listed⟩ := h.parent hc hp
      cases hd.symm.trans (e.gone (h.mergeable_of_deepest hc deepest.1 hp) hq listed)
    · omega
  have attained : F.depth - 1 ≤ H.depth := by
    by_cases deep : 0 < F.depth
    · obtain ⟨p, c, mergeable, hc, level⟩ := h.exists_mergeable deep
      have live := level_le_depth (e.merged mergeable hc)
      have live : c.level ≤ H.depth := live
      omega
    · omega
  by_cases shallow : 0 < H.depth
  · obtain ⟨id, d, hd, level⟩ := exists_deepest shallow
    have bound := upper hd
    omega
  · omega

theorem roots (h : F.Linked) : H.roots = F.roots := by
  have same : ∀ id, H.isRoot id = F.isRoot id := fun id => by
    rw [Bool.eq_iff_iff, isRoot_iff, isRoot_iff]
    constructor
    · rintro ⟨d, hd, top⟩
      obtain ⟨c, hc, -, parent⟩ := e.old h hd
      exact ⟨c, hc, parent.trans top⟩
    · rintro ⟨c, hc, top⟩
      by_cases mergeable : F.Mergeable id
      · exact ⟨_, e.merged mergeable hc, top⟩
      · exact ⟨c, e.kept hc mergeable (by simp [top]), top⟩
  rw [Forest.roots, e.size, Forest.roots]
  exact List.filter_congr fun id _ => same id

end Coarsened

/-! ### Elements under a root -/

/-- The elements of the leaves from which parents lead to the given cell in as many steps as their level says. -/
def under (F : Forest D) (r : CellId) : List Nat :=
  (F.leaves.filter fun l => F.ancestor? l.level l.id = some r).map (·.element)

theorem mem_under : i ∈ F.under r ↔
    ∃ id l, F.leaf? id = some l ∧ F.ancestor? l.level id = some r ∧ l.element = i := by
  simp only [under, List.mem_map, List.mem_filter, decide_eq_true_eq, mem_leaves_iff]
  constructor
  · rintro ⟨l, ⟨hl, path⟩, element⟩
    exact ⟨l.id, l, hl, path, element⟩
  · rintro ⟨id, l, hl, path, element⟩
    obtain rfl := leaf?_id hl
    exact ⟨l, ⟨hl, path⟩, element⟩

namespace Coarsened
variable (e : Coarsened F H)
include e

theorem ancestor? (h : F.Linked) (hd : H.cell? id = some d) : H.ancestor? n id = F.ancestor? n id := by
  induction n generalizing id d with
  | zero => rfl
  | succ n ih =>
    obtain ⟨c, hc, -, parent⟩ := e.old h hd
    cases hp : d.parent with
    | none => simp [Forest.ancestor?, hd, hc, hp, parent]
    | some p =>
      obtain ⟨q, hq, -⟩ := e.linked.parent hd hp
      rw [ancestor?_of_parent hd hp, ancestor?_of_parent hc (parent.trans hp), ih hq]

end Coarsened

theorem Coarsened.mem_under (e : Coarsened F H) (h : F.AtRest fe) (after : i ∈ H.under r) : i ∈ F.under r := by
  obtain ⟨id, m, hm, path, rfl⟩ := Forest.mem_under.mp after
  have hH := cell?_of_leaf? hm
  rw [e.ancestor? h.linked hH] at path
  refine Forest.mem_under.mpr ?_
  obtain ⟨c, hc, ⟨mergeable, same⟩ | ⟨-, -, same⟩⟩ := e.cases h.linked hH
  · obtain ⟨⟨k, hk, l, hl, highest⟩, -⟩ := mergeable.highestTarget h.linked hc
    obtain ⟨d, hd, parent, level, -⟩ := h.linked.child hc hk
    obtain rfl := Option.some.inj ((cell?_of_leaf? hl).symm.trans hd)
    have element : m.element = F.highestTarget c := congrArg Cell.element same
    have top : m.level = c.level := congrArg Cell.level same
    refine ⟨k, l, hl, ?_, by rw [← h.target_eq hl, highest, element]⟩
    rw [show l.level = c.level + 1 from level, ancestor?_of_parent hd parent, ← top]
    exact path
  · exact ⟨id, m, leaf?_eq_some.mpr ⟨leaf?_id hm, same ▸ hc⟩, path, rfl⟩

theorem Coarsened.exists_le_under (e : Coarsened F H) (h : F.AtRest fe) (before : i ∈ F.under r) :
    ∃ j ∈ H.under r, i ≤ j := by
  obtain ⟨id, l, hl, path, rfl⟩ := Forest.mem_under.mp before
  have hc := cell?_of_leaf? hl
  -- Above the leaf stands its parent now, if their group has been merged, and else the leaf itself.
  by_cases grouped : ∃ p, l.parent = some p ∧ F.Mergeable p
  · obtain ⟨p, hp, mergeable⟩ := grouped
    obtain ⟨q, hq, listed, level, -⟩ := h.linked.above hc hp
    have hH := e.merged mergeable hq
    rw [show l.level = q.level + 1 from level, ancestor?_of_parent hc hp, ← e.ancestor? h.linked hH] at path
    refine ⟨_, Forest.mem_under.mpr ⟨p, _, leaf?_of_role hH rfl, path, rfl⟩, ?_⟩
    rw [← h.target_eq hl]
    exact (mergeable.highestTarget h.linked hq).2 id listed l hl
  · have apart : ∀ p, l.parent = some p → ¬F.Mergeable p := fun p hp mergeable => grouped ⟨p, hp, mergeable⟩
    have leaf : ¬F.Mergeable id := fun mergeable => by cases (mergeable.of_cell hc).1
    have hH := e.kept hc leaf apart
    rw [← e.ancestor? h.linked hH] at path
    exact ⟨_, Forest.mem_under.mpr ⟨id, l, leaf?_eq_some.mpr ⟨leaf?_id hl, hH⟩, path, rfl⟩, Nat.le_refl _⟩

theorem Coarsened.max?_under (e : Coarsened F H) (h : F.AtRest fe) (after : (H.under r).max? = some i) :
    (F.under r).max? = some i := by
  obtain ⟨attained, upper⟩ := List.max?_eq_some_iff.mp after
  refine List.max?_eq_some_iff.mpr ⟨e.mem_under h attained, fun j hj => ?_⟩
  obtain ⟨k, hk, le⟩ := e.exists_le_under h hj
  exact Nat.le_trans le (upper k hk)

/-! ### All rounds -/

theorem AtRest.afterRounds (h : F.AtRest fe) (n : Nat) : (F.afterRounds fe n).AtRest fe ∧
    (F.afterRounds fe n).depth = F.depth - n ∧ (F.afterRounds fe n).roots = F.roots ∧
    ∀ r i, ((F.afterRounds fe n).under r).max? = some i → (F.under r).max? = some i := by
  induction n with
  | zero => exact ⟨h, rfl, rfl, fun _ _ highest => highest⟩
  | succ n ih =>
    obtain ⟨before, depth, roots, under⟩ := ih
    obtain ⟨-, coarsened, after⟩ := before.round
    refine ⟨after, ?_, (coarsened.roots before.linked).trans roots, fun r i highest => ?_⟩
    · rw [Forest.afterRounds, coarsened.depth before.linked, depth, Nat.sub_sub]
    · exact under r i (coarsened.max?_under before highest)

/-- A forest of one level consists of its roots, each the only leaf under itself. -/
theorem AtRest.cell?_of_flat (h : F.AtRest fe) (flat : F.depth = 0) (hc : F.cell? id = some c) :
    id ∈ F.roots ∧ c = ⟨0, none, c.element, .active {}⟩ ∧ (F.under id).max? = some c.element := by
  have level : c.level = 0 := Nat.le_zero.mp (flat ▸ level_le_depth hc)
  have top : c.parent = none := by
    cases hp : c.parent with
    | none => rfl
    | some p =>
      obtain ⟨q, -, -, below, -⟩ := h.linked.above hc hp
      omega
  have active : ∃ m, c.role = .active m := by
    cases hr : c.role with
    | active m => exact ⟨m, rfl⟩
    | split ks =>
      have deep := h.linked.exists_split_iff.mp ⟨id, c, hc, Cell.not_isActive_of_role hr⟩
      omega
  obtain ⟨m, role⟩ := active
  have hl := leaf?_of_role hc role
  have bare : m = {} := h.bare _ (mem_leaves_of_leaf? hl)
  refine ⟨mem_roots.mpr ⟨c, hc, top⟩, ?_, List.max?_eq_some_iff.mpr ⟨?_, fun i hi => ?_⟩⟩
  · obtain ⟨_, _, _, _⟩ := c
    obtain rfl : _ = 0 := level
    obtain rfl : _ = none := top
    obtain rfl : _ = Role.active m := role
    rw [bare]
  · exact Forest.mem_under.mpr ⟨id, _, hl, by rw [level]; rfl, rfl⟩
  · obtain ⟨k, l, hk, path, rfl⟩ := Forest.mem_under.mp hi
    have level : l.level = 0 := Nat.le_zero.mp (flat ▸ level_le_depth (cell?_of_leaf? hk))
    rw [level] at path
    cases path
    obtain rfl := Option.some.inj (hl.symm.trans hk)
    exact Nat.le_refl _

/-- Rounds of coarsening end at the roots. Each round is accepted and merges every sibling group; there is one
as long as a cell is split, which is so for as many rounds as the forest has levels above the roots'. Then
every root is a leaf, with the highest element that a leaf of its tree had at the start. -/
theorem coarsening_ends_at_roots (reached : Reachable F) (bare : ∀ l ∈ F.leaves, l.markers = {})
    (valid : ∀ l ∈ F.leaves, l.element < fe.size) :
    (∀ n, let G := F.afterRounds fe n
      (G.coarsenRound fe).answer =
        .ok { pAdapted := 0, refined := 0, coarsenedGroups := G.siblingGroups.length, droppedFlags := 0 } ∧
      Coarsened G (G.coarsenRound fe).forest ∧
      ((∃ id c, G.cell? id = some c ∧ c.isActive = false) → G.siblingGroups ≠ []) ∧
      ((∃ id c, G.cell? id = some c ∧ c.isActive = false) ↔ n < F.depth)) ∧
    ∀ id c, (F.afterRounds fe F.depth).cell? id = some c ↔
      id ∈ F.roots ∧ ∃ i, (F.under id).max? = some i ∧ c = ⟨0, none, i, .active {}⟩ := by
  have start : F.AtRest fe := ⟨reached.linked, bare, valid⟩
  constructor
  · intro n G
    obtain ⟨rest, depth, -⟩ := start.afterRounds n
    obtain ⟨answer, coarsened, -⟩ := rest.round
    have split := rest.linked.exists_split_iff
    refine ⟨answer, coarsened, fun inner => rest.linked.siblingGroups_ne_nil (split.mp inner), split.trans ?_⟩
    rw [depth, Nat.sub_pos_iff_lt]
  · intro id c
    obtain ⟨rest, depth, roots, under⟩ := start.afterRounds F.depth
    rw [Nat.sub_self] at depth
    constructor
    · intro hc
      obtain ⟨root, same, highest⟩ := rest.cell?_of_flat depth hc
      exact ⟨roots ▸ root, c.element, under id _ highest, same⟩
    · rintro ⟨root, i, highest, rfl⟩
      obtain ⟨c, hc, -⟩ := mem_roots.mp (roots ▸ root)
      obtain ⟨-, same, attained⟩ := rest.cell?_of_flat depth hc
      obtain rfl := Option.some.inj ((under id _ attained).symm.trans highest)
      rw [hc, ← same]

/-- A root split unevenly, with the highest element at its lowest level, and a root that is a leaf. -/
def lopsided : Forest 1 := after ([.addRoot 0, .refineCell ⟨0⟩, .refineCell ⟨2⟩, .setElement ⟨3⟩ 1, .addRoot 0] :
  List (Operation Rat Rat))

theorem lopsided_ends : Reachable lopsided ∧ (∀ l ∈ lopsided.leaves, l.markers = {}) ∧
    (∀ l ∈ lopsided.leaves, l.element < Collection.twoElements.size) ∧ lopsided.depth = 2 ∧
    (lopsided.afterRounds .twoElements 1).siblingGroups ≠ [] ∧
    (lopsided.afterRounds .twoElements 2).cell? ⟨0⟩ = some ⟨0, none, 1, .active {}⟩ ∧
    (lopsided.afterRounds .twoElements 2).cell? ⟨5⟩ = some ⟨0, none, 0, .active {}⟩ := by
  have reached : Reachable lopsided := .after _
  have bare : ∀ l ∈ lopsided.leaves, l.markers = {} := by decide
  have valid : ∀ l ∈ lopsided.leaves, l.element < Collection.twoElements.size := by decide
  have deep : lopsided.depth = 2 := rfl
  obtain ⟨rounds, ends⟩ := coarsening_ends_at_roots reached bare valid
  rw [deep] at rounds ends
  obtain ⟨-, -, groups, split⟩ := rounds 1
  exact ⟨reached, bare, valid, deep, groups (split.mpr Nat.one_lt_two),
    (ends _ _).mpr ⟨by decide, 1, rfl, rfl⟩, (ends _ _).mpr ⟨by decide, 0, rfl, rfl⟩⟩

end Forest
end HpForest
