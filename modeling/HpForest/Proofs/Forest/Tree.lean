import HpForest.Proofs.History
import Mathlib.Tactic.Choose

/-! # Trees

A forest in its arena is read as the list of its trees, the roots in the order of their slots and the
children in the order of creation. On this reading an execution is one recursion over each tree
(`Tree.executed`): groups that are flagged as a whole become leaves, leaves switch elements and split. -/

namespace HpForest

/-- A tree of cells, with the markers at its leaves. -/
inductive Tree
  | leaf (id : CellId) (element : Nat) (markers : Markers)
  | node (id : CellId) (element : Nat) (children : List Tree)
deriving Repr, Inhabited

namespace Tree

def coarsens : Tree → Bool
  | leaf _ _ m => m.flag = .coarsen
  | node .. => false

/-- The element after the next execution, of a leaf: the scheduled one, else the one in use. -/
def target : Tree → Nat
  | leaf _ element m => m.future.getD element
  | node _ element _ => element

/-- The cells of the tree, from its root down. -/
def ids : Tree → List CellId
  | leaf id _ _ => [id]
  | node id _ ts => id :: ts.flatMap ids

/-- The tree after an execution that gives the cells flagged for refinement their new children. -/
def executed (fresh : CellId → List CellId) : Tree → Tree
  | leaf id element m =>
    let next := m.future.getD element
    if m.flag = .refine then node id next ((fresh id).map fun k => leaf k next {}) else leaf id next {}
  | node id element ts =>
    if ts.all coarsens then leaf id ((ts.map target).max?.getD element) {}
    else node id element (ts.map (executed fresh))

end Tree

namespace Forest
variable {D : Nat} {F G : Forest D} {fe : Collection} {id k p : CellId} {c : Cell} {l : Leaf} {n : Nat}

/-! ### Reading -/

/-- The tree under a live cell; `none` when it has `n` levels or more, or a child is not live. -/
def tree? (F : Forest D) : Nat → CellId → Option Tree
  | 0, _ => none
  | n + 1, id => do
    let c ← F.cell? id
    match c.role with
    | .active m => return .leaf id c.element m
    | .split ks => return .node id c.element (← ks.mapM (F.tree? n))

def isRoot (F : Forest D) (id : CellId) : Bool := (F.cell? id).any fun c => c.parent.isNone

def roots (F : Forest D) : List CellId := (CellId.block 0 F.slots.size).filter F.isRoot

theorem isRoot_iff : F.isRoot id = true ↔ ∃ c, F.cell? id = some c ∧ c.parent = none := by
  cases hc : F.cell? id <;> simp [isRoot, hc]

theorem mem_roots : id ∈ F.roots ↔ ∃ c, F.cell? id = some c ∧ c.parent = none := by
  rw [roots, List.mem_filter, isRoot_iff]
  refine and_iff_right_of_imp ?_
  rintro ⟨c, hc, -⟩
  exact CellId.mem_block.mpr ⟨Nat.zero_le _, by simpa using slot_lt_size hc⟩

/-- The trees of the forest; no tree has more levels than the maximum allows. -/
def trees? (F : Forest D) : Option (List Tree) := F.roots.mapM (F.tree? (maxLevel + 1))

theorem tree?_of_leaf? (hl : F.leaf? id = some l) : F.tree? (n + 1) id = some (.leaf id l.element l.markers) := by
  rw [tree?, cell?_of_leaf? hl]
  rfl

theorem tree?_of_children {t : CellId → Tree} (hc : F.cell? id = some c) (split : c.isActive = false)
    (children : ∀ k ∈ c.children, F.tree? n k = some (t k)) :
    F.tree? (n + 1) id = some (.node id c.element (c.children.map t)) := by
  rw [tree?, hc]
  simp only [bind, Option.bind, Cell.role_of_not_isActive split, mapM_eq_pure children]
  rfl

theorem ancestor?_succ {m : Nat} {r : CellId} (h : F.ancestor? (m + 1) id = some r) :
    ∃ k d, F.ancestor? m id = some k ∧ F.cell? k = some d ∧ d.parent = some r := by
  induction m generalizing id with
  | zero =>
    obtain ⟨p, hp, hr⟩ := Option.bind_eq_some_iff.mp h
    obtain ⟨c, hc, parent⟩ := Option.bind_eq_some_iff.mp hp
    cases hr
    exact ⟨id, c, rfl, hc, parent⟩
  | succ m ih =>
    obtain ⟨p, hp, hr⟩ := Option.bind_eq_some_iff.mp h
    obtain ⟨k, d, hk, hd, parent⟩ := ih hr
    exact ⟨k, d, by rw [ancestor?, hp]; exact hk, hd, parent⟩

/-- Under a live cell a tree is read that has all cells from which parents lead to it. -/
theorem Linked.tree?_covers (h : F.Linked) (hc : F.cell? id = some c) (deep : maxLevel < c.level + n) :
    ∃ t, F.tree? n id = some t ∧ ∀ {m k}, F.ancestor? m k = some id → k ∈ t.ids := by
  induction n generalizing id c with
  | zero => exact absurd (h.level_le hc) (by omega)
  | succ n ih =>
    cases hr : c.role with
    | active m =>
      refine ⟨_, tree?_of_leaf? (leaf?_of_role hc hr), fun {m k} path => ?_⟩
      cases m with
      | zero =>
        cases path
        simp [Tree.ids]
      | succ m =>
        obtain ⟨j, d, -, hd, parent⟩ := ancestor?_succ path
        have listed := (h.mem_children_iff hc hd).mpr parent
        simp [Cell.children, hr] at listed
    | split ks =>
      have below : ∀ k ∈ c.children, ∃ t, F.tree? n k = some t ∧ ∀ {m j}, F.ancestor? m j = some k → j ∈ t.ids :=
        fun k hk => by
          obtain ⟨d, hd, -, level, -⟩ := h.child hc hk
          exact ih hd (by omega)
      choose! t read covers using below
      refine ⟨_, tree?_of_children hc (Cell.not_isActive_of_role hr) read, fun {m k} path => ?_⟩
      rw [Tree.ids, List.mem_cons, List.mem_flatMap]
      cases m with
      | zero =>
        cases path
        exact Or.inl rfl
      | succ m =>
        obtain ⟨j, d, path, hd, parent⟩ := ancestor?_succ path
        have listed := (h.mem_children_iff hc hd).mpr parent
        exact Or.inr ⟨t j, List.mem_map.mpr ⟨j, listed, rfl⟩, covers j listed path⟩

/-- Every live cell is read into a tree. -/
theorem Linked.trees?_cover (h : F.Linked) :
    ∃ ts, F.trees? = some ts ∧ ∀ {id c}, F.cell? id = some c → ∃ t ∈ ts, id ∈ t.ids := by
  have rooted : ∀ id ∈ F.roots, ∃ t, F.tree? (maxLevel + 1) id = some t ∧
      ∀ {m k}, F.ancestor? m k = some id → k ∈ t.ids := fun id hid => by
    obtain ⟨c, hc, -⟩ := mem_roots.mp hid
    exact h.tree?_covers hc (by omega)
  choose! t read covers using rooted
  refine ⟨_, mapM_eq_pure read, fun {id c} hc => ?_⟩
  obtain ⟨r, d, path, hd, top⟩ := (h.ancestor?_root hc c.level).mpr rfl
  have hr : r ∈ F.roots := mem_roots.mpr ⟨d, hd, top⟩
  exact ⟨t r, List.mem_map.mpr ⟨r, hr, rfl⟩, covers r hr path⟩

/-! ### Execution -/

theorem all_map_coarsens {ks : List CellId} {t : CellId → Tree}
    (flags : ∀ k ∈ ks, (t k).coarsens = F.coarsens k) : (ks.map t).all Tree.coarsens = ks.all F.coarsens := by
  rw [List.all_map, Bool.eq_iff_iff, List.all_eq_true, List.all_eq_true]
  exact forall₂_congr fun k hk => by rw [Function.comp_apply, flags k hk]

theorem Executed.tree?_leaf (e : Executed F G) (hl : F.leaf? id = some l) (deep : maxLevel < l.level + (n + 1))
    (apart : ∀ p, l.parent = some p → ¬F.Merges p) :
    G.tree? (n + 1) id = some (Tree.executed F.newChildren (.leaf id l.element l.markers)) := by
  rw [Tree.executed]
  by_cases flag : l.flag = .refine
  · have hG := e.refined hl flag
    have below : l.level < maxLevel := e.linked.level_lt hG rfl
    obtain ⟨n, rfl⟩ : ∃ m, n = m + 1 := Nat.exists_eq_add_one.mpr (by omega)
    have grown := tree?_of_children (n := n + 1) (t := fun k => .leaf k l.target {}) hG rfl fun k hk =>
      tree?_of_leaf? (leaf?_of_role (e.child hl flag hk) rfl)
    rw [grown, if_pos (show l.markers.flag = .refine from flag)]
    rfl
  · rw [tree?_of_leaf? (leaf?_of_role (e.leaf hl flag apart) rfl),
      if_neg (show ¬l.markers.flag = .refine from flag)]
    rfl

theorem Executed.tree?_merged (e : Executed F G) (merges : F.Merges id) (hc : F.cell? id = some c) :
    ∃ t, F.tree? (n + 2) id = some t ∧ G.tree? (n + 2) id = some (t.executed F.newChildren) ∧
      t.coarsens = false := by
  have leaves : ∀ k ∈ c.children, ∃ t, F.tree? (n + 1) k = some t ∧ t.coarsens = true ∧
      (F.leaf? k).map Leaf.target = some t.target := fun k hk => by
    obtain ⟨l, hl, flag⟩ := merges.leaf hc hk
    exact ⟨_, tree?_of_leaf? hl, decide_eq_true flag, by rw [hl]; rfl⟩
  choose! t before flags targets using leaves
  have all : (c.children.map t).all Tree.coarsens = true := by
    rw [List.all_map, List.all_eq_true]
    exact flags
  have highest : ((c.children.map t).map Tree.target).max?.getD c.element = F.highestTarget c := by
    rw [highestTarget, List.map_filterMap, List.map_map, ← List.filterMap_eq_map,
      List.filterMap_congr (f := fun k => (F.leaf? k).map Leaf.target) targets]
    rfl
  refine ⟨_, tree?_of_children hc (merges.not_isActive hc) before, ?_, rfl⟩
  rw [tree?_of_leaf? (leaf?_of_role (e.merged merges hc) rfl), Tree.executed, if_pos all, highest]

/-- Under a cell whose group is not merged, the tree becomes what the recursion says. -/
theorem Executed.tree? (e : Executed F G) (h : F.Linked) (hc : F.cell? id = some c) (deep : maxLevel < c.level + n)
    (apart : ∀ p, c.parent = some p → ¬F.Merges p) :
    ∃ t, F.tree? n id = some t ∧ G.tree? n id = some (t.executed F.newChildren) ∧ t.coarsens = F.coarsens id := by
  induction n generalizing id c with
  | zero => exact absurd (h.level_le hc) (by omega)
  | succ n ih =>
    cases hr : c.role with
    | active m =>
      have hl := leaf?_of_role hc hr
      refine ⟨_, tree?_of_leaf? hl, e.tree?_leaf hl deep apart, ?_⟩
      rw [coarsens_eq, hl]
      rfl
    | split ks =>
      have split := Cell.not_isActive_of_role hr
      have unflagged : F.coarsens id = false := by
        simp [coarsens_eq, leaf?, hc, Cell.leaf?_of_not_isActive split]
      obtain ⟨n, rfl⟩ : ∃ m, n = m + 1 :=
        Nat.exists_eq_add_one.mpr (by have := h.level_lt hc split; omega)
      by_cases merges : F.Merges id
      · rw [unflagged]
        exact e.tree?_merged merges hc
      · have below : ∀ k ∈ c.children, ∃ t, F.tree? (n + 1) k = some t ∧
            G.tree? (n + 1) k = some (t.executed F.newChildren) ∧ t.coarsens = F.coarsens k := fun k hk => by
          obtain ⟨d, hd, parent, level, -⟩ := h.child hc hk
          refine ih hd (by omega) fun p hp => ?_
          rw [parent] at hp
          cases hp
          exact merges
        choose! t before after flags using below
        have some_stays : (c.children.map t).all Tree.coarsens = false := by
          rw [all_map_coarsens flags, Bool.eq_false_iff]
          exact fun all => merges ⟨c, hc, split, List.all_eq_true.mp all⟩
        refine ⟨_, tree?_of_children hc split before, ?_, by rw [unflagged]; rfl⟩
        rw [tree?_of_children (e.inner hc split merges) split after, Tree.executed, if_neg (by simp [some_stays]),
          List.map_map]
        rfl

/-- An execution adds no root and removes none. -/
theorem Executed.isRoot (e : Executed F G) (h : F.Linked) (old : id.slot < F.slots.size) :
    G.isRoot id = F.isRoot id := by
  cases hc : F.cell? id with
  | none => simp [Forest.isRoot, hc, e.dead hc old]
  | some c =>
    cases hr : c.role with
    | split ks =>
      have split := Cell.not_isActive_of_role hr
      by_cases merges : F.Merges id
      · simp [Forest.isRoot, hc, e.merged merges hc]
      · simp [Forest.isRoot, hc, e.inner hc split merges]
    | active m =>
      have hl := leaf?_of_role hc hr
      rcases e.leaf_cases h hl with ⟨-, hG⟩ | ⟨-, hG⟩ | ⟨⟨-, p, hp, -⟩, hG⟩
      · simp [Forest.isRoot, hc, hG]
      · simp [Forest.isRoot, hc, hG]
      · simp [Forest.isRoot, hc, hG, show c.parent = some p from hp]

/-- New slots add no more to the roots than the roots in them. -/
theorem roots_append (size : G.slots.size = F.slots.size + n)
    (old : ∀ id : CellId, id.slot < F.slots.size → G.isRoot id = F.isRoot id) :
    G.roots = F.roots ++ (CellId.block F.slots.size n).filter G.isRoot := by
  rw [Forest.roots, size, CellId.block_add, List.filter_append, Nat.zero_add, Forest.roots]
  congr 1
  refine List.filter_congr fun id hid => old id ?_
  simpa using (CellId.mem_block.mp hid).2

theorem Executed.roots (e : Executed F G) (h : F.Linked) : G.roots = F.roots := by
  have young : ∀ k ∈ CellId.block F.slots.size (fanout D * F.refining.length), G.isRoot k = false := fun k hk => by
    obtain ⟨old, new⟩ := CellId.mem_block.mp hk
    obtain ⟨id, l, hl, flag, hk⟩ := e.cover old (by rwa [e.size])
    simp [Forest.isRoot, e.child hl flag hk]
  rw [roots_append e.size fun _ => e.isRoot h, List.filter_eq_nil_iff.mpr fun k hk => by simp [young k hk],
    List.append_nil]

/-- With valid element indices and room for every split an execution is accepted, and each tree of the
forest becomes what the recursion makes of it. The trees have all live cells, before and after. -/
theorem execute_trees? (reached : Reachable F) (within : F.Within fe)
    (room : ∀ l ∈ F.leaves, l.flag = .refine → l.level ≠ maxLevel) :
    ∃ summary ts, (F.execute fe).answer = .ok summary ∧ F.trees? = some ts ∧
      (F.execute fe).forest.trees? = some (ts.map (Tree.executed F.newChildren)) ∧
      (∀ id c, F.cell? id = some c → ∃ t ∈ ts, id ∈ t.ids) ∧
      ∀ id c, (F.execute fe).forest.cell? id = some c → ∃ t ∈ ts, id ∈ (t.executed F.newChildren).ids := by
  have h := reached.linked
  obtain ⟨answer, e⟩ := execute_accepts h within fun l hl flag =>
    Nat.lt_of_le_of_ne (h.level_le (c := l.cell) (cell?_of_leaf? (mem_leaves_iff.mp hl))) (room l hl flag)
  have rooted : ∀ id ∈ F.roots, ∃ t, F.tree? (maxLevel + 1) id = some t ∧
      (F.execute fe).forest.tree? (maxLevel + 1) id = some (t.executed F.newChildren) := fun id hid => by
    obtain ⟨c, hc, top⟩ := isRoot_iff.mp (List.mem_filter.mp hid).2
    obtain ⟨t, before, after, -⟩ := e.tree? (n := maxLevel + 1) h hc (by omega) fun p hp => by simp [hp] at top
    exact ⟨t, before, after⟩
  choose! t before after using rooted
  have read : F.trees? = some (F.roots.map t) := mapM_eq_pure before
  have reread : (F.execute fe).forest.trees? = some ((F.roots.map t).map (Tree.executed F.newChildren)) := by
    rw [trees?, e.roots h, mapM_eq_pure after, List.map_map]
    rfl
  refine ⟨_, F.roots.map t, answer, read, reread, fun id c hc => ?_, fun id c hc => ?_⟩
  · obtain ⟨ts, found, covers⟩ := h.trees?_cover
    cases read.symm.trans found
    exact covers hc
  · obtain ⟨ts, found, covers⟩ := e.linked.trees?_cover
    cases reread.symm.trans found
    obtain ⟨_, here, listed⟩ := covers hc
    obtain ⟨u, hu, rfl⟩ := List.mem_map.mp here
    exact ⟨u, hu, listed⟩

/-- A group flagged for coarsening with one cell scheduled for another element, and a root to be split. -/
def markedPair : Forest 1 := after ([.addRoot 0, .refineCell ⟨0⟩, .setFlag ⟨1⟩ .coarsen, .setFlag ⟨2⟩ .coarsen,
  .setFuture ⟨2⟩ 1, .addRoot 0, .setFlag ⟨3⟩ .refine] : List (Operation Rat Rat))

theorem markedPair_executed : Reachable markedPair ∧ markedPair.Within .twoElements ∧
    (∀ l ∈ markedPair.leaves, l.flag = .refine → l.level ≠ maxLevel) ∧
    (markedPair.execute .twoElements).forest.trees? =
      some [.leaf ⟨0⟩ 1 {}, .node ⟨3⟩ 0 [.leaf ⟨4⟩ 0 {}, .leaf ⟨5⟩ 0 {}]] ∧
    ∃ t ts, (markedPair.execute .twoElements).forest.trees? = some ts ∧ t ∈ ts ∧ ⟨5⟩ ∈ t.ids := by
  have within : markedPair.Within .twoElements := by decide
  have room : ∀ l ∈ markedPair.leaves, l.flag = .refine → l.level ≠ maxLevel := by decide
  have reached : Reachable markedPair := .after _
  obtain ⟨summary, ts, -, before, after, -, covers⟩ := execute_trees? reached within room
  have read : markedPair.trees? = some [.node ⟨0⟩ 0 [.leaf ⟨1⟩ 0 ⟨.coarsen, none⟩,
      .leaf ⟨2⟩ 0 ⟨.coarsen, some 1⟩], .leaf ⟨3⟩ 0 ⟨.refine, none⟩] := rfl
  have fresh : markedPair.newChildren ⟨3⟩ = [⟨4⟩, ⟨5⟩] := rfl
  obtain rfl := Option.some.inj (read.symm.trans before)
  refine ⟨reached, within, room, ?_, ?_⟩
  · rw [after]
    simp [Tree.executed, Tree.coarsens, Tree.target, fresh]
  · obtain ⟨t, ht, listed⟩ := covers ⟨5⟩ ⟨1, some ⟨3⟩, 0, .active {}⟩ (by decide +kernel)
    exact ⟨_, _, after, List.mem_map_of_mem ht, listed⟩

end Forest
end HpForest
