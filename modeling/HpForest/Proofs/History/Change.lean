import HpForest.Proofs.Forest.Tree

/-! # What an operation does to the cells

An operation on a linked forest does one of three things to its cells (`Linked.run_cases`): it gives leaves
other markers and elements and then splits some of them (`Grown`), it adds a root, or, as an accepted
execution, it carries out all markers (`Executed`). In each case no slot is used again and a live cell keeps
its place (`Continues`), and the ground of every leaf stays covered by leaves (`Covered`). -/

namespace HpForest
namespace Forest
variable {D : Nat} {F G H : Forest D} {fe : Collection} {id k p : CellId} {ids : List CellId} {c d : Cell} {l : Leaf}

/-! ### The three kinds of change -/

/-- Leaves have been given other markers and elements, and some of them have then been split. -/
inductive Grown (F G : Forest D) : Prop
  | intro {H : Forest D} {ids : List CellId} (same : SameCells F H) (leaves : ∀ id ∈ ids, ∃ l, H.leaf? id = some l)
      (refined : Refined H ids G)

theorem SameCells.grown (same : SameCells F G) : Grown F G :=
  .intro same (fun _ none => (List.not_mem_nil none).elim) .nil

theorem exists_refined (F : Forest D) (id : CellId) : ∃ ids, (∀ k ∈ ids, ∃ l, F.leaf? k = some l) ∧
    Refined F ids (Outcome.ofExcept F (F.refineCell id)).forest := by
  cases refined : F.refineCell id with
  | error e => exact ⟨[], fun _ none => (List.not_mem_nil none).elim, .nil⟩
  | ok r =>
    obtain ⟨l, hl, -, forest, -⟩ := refineCell_eq_ok refined
    obtain rfl := leaf?_id hl
    refine ⟨[l.id], fun k hk => ⟨l, List.mem_singleton.mp hk ▸ hl⟩, ?_⟩
    show Refined F [l.id] r.1
    rw [forest]
    exact Refined.nil.concat hl List.not_mem_nil

/-- An execution leaves the forest alone, or gives up while it splits leaves, or carries out all markers. -/
theorem Linked.execute_cases (h : F.Linked) (fe : Collection) : (F.execute fe).forest = F ∨
    (∃ ids, (∀ id ∈ ids, ∃ l, F.switched.leaf? id = some l) ∧ Refined F.switched ids (F.execute fe).forest) ∨
    ∃ summary, (F.execute fe).answer = .ok summary ∧ Executed F (F.execute fe).forest := by
  rcases execute_ends h fe with ⟨-, -, forest⟩ | ⟨within, -, l, first, -⟩ | ⟨-, ⟨summary, answer⟩, executed⟩
  · exact Or.inl forest
  · obtain ⟨before, after, R, leaves, -, refined, -, -, forest⟩ := execute_exhausted h within first
    rw [forest]
    refine Or.inr (Or.inl ⟨_, fun id hid => ?_, refined⟩)
    obtain ⟨m, hm, rfl⟩ := List.mem_map.mp hid
    have hm : F.leaf? m.id = some m := mem_leaves_iff.mp (by simp [leaves, (List.mem_filter.mp hm).1])
    exact SameCells.switched.exists_leaf? hm
  · exact Or.inr (Or.inr ⟨summary, answer, executed⟩)

section
variable {P N : Type} [Scalar P] [Scalar N] [RoundsTo P N]

/-- Every operation splits leaves at most, or adds a root, or is an accepted execution. -/
theorem Linked.run_cases (h : F.Linked) (op : Operation P N) :
    (Grown F (op.run F).forest ∧ ∀ index, op ≠ .addRoot index) ∨ (∃ index, op = .addRoot index) ∨
      ∃ fe summary, op = .execute fe ∧ (op.run F).answer = .ok (.executed summary) ∧ Executed F (op.run F).forest := by
  rcases SameCells.run h op with ⟨index, rfl⟩ | ⟨id, rfl⟩ | ⟨fe, rfl⟩ | ⟨other, same⟩
  · exact Or.inr (Or.inl ⟨index, rfl⟩)
  · obtain ⟨ids, leaves, refined⟩ := F.exists_refined id
    exact Or.inl ⟨.intro (SameCells.refl F) leaves refined, nofun⟩
  · rcases h.execute_cases fe with same | ⟨ids, leaves, refined⟩ | ⟨summary, answer, executed⟩
    · have grown : Grown F (F.execute fe).forest := same.symm ▸ (SameCells.refl F).grown
      exact Or.inl ⟨grown, nofun⟩
    · exact Or.inl ⟨.intro SameCells.switched leaves refined, nofun⟩
    · exact Or.inr (Or.inr ⟨fe, summary, rfl, by simp [Operation.run, Outcome.map, answer, Except.map], executed⟩)
  · exact Or.inl ⟨same.grown, other⟩

end

/-! ### Places -/

/-- No slot of `F` is lost or used again, and the cells that still live are where they were. -/
structure Continues (F G : Forest D) : Prop where
  size_le : F.slots.size ≤ G.slots.size
  old : ∀ {id d}, id.slot < F.slots.size → G.cell? id = some d →
    ∃ c, F.cell? id = some c ∧ c.level = d.level ∧ c.parent = d.parent

namespace Continues

theorem refl (F : Forest D) : Continues F F := ⟨Nat.le_refl _, fun _ hd => ⟨_, hd, rfl, rfl⟩⟩

theorem trans (h₁ : Continues F G) (h₂ : Continues G H) : Continues F H where
  size_le := Nat.le_trans h₁.size_le h₂.size_le
  old bound hd := by
    obtain ⟨c, hc, level, parent⟩ := h₂.old (Nat.lt_of_lt_of_le bound h₁.size_le) hd
    obtain ⟨b, hb, level', parent'⟩ := h₁.old bound hc
    exact ⟨b, hb, level'.trans level, parent'.trans parent⟩

theorem dead (h : Continues F G) (bound : id.slot < F.slots.size) (hid : F.cell? id = none) : G.cell? id = none := by
  cases hd : G.cell? id with
  | none => rfl
  | some d =>
    obtain ⟨c, hc, -⟩ := h.old bound hd
    rw [hid] at hc
    cases hc

end Continues

theorem SameCells.continues (same : SameCells F G) : Continues F G where
  size_le := Nat.le_of_eq same.size.symm
  old _ hd := by
    obtain ⟨c, hc, level, parent, -⟩ := same.links.cell hd
    exact ⟨c, hc, level, parent⟩

theorem Refined.continues (refined : Refined F ids G) (leaves : ∀ id ∈ ids, ∃ l, F.leaf? id = some l) :
    Continues F G where
  size_le := refined.size ▸ Nat.le_add_right _ _
  old {id d} bound hd := by
    by_cases split : id ∈ ids
    · obtain ⟨l, hl⟩ := leaves id split
      rw [refined.parent split hl] at hd
      cases hd
      exact ⟨l.cell, cell?_of_leaf? hl, rfl, rfl⟩
    · rw [refined.kept bound split] at hd
      exact ⟨d, hd, rfl, rfl⟩

theorem Grown.continues : Grown F G → Continues F G
  | intro same leaves refined => same.continues.trans (refined.continues leaves)

theorem Continues.addRoot (F : Forest D) (index : Nat) : Continues F (F.addRoot index).1 where
  size_le := (size_append (F := F) 1 _) ▸ Nat.le_add_right _ _
  old bound hd := by
    rcases cell?_append_eq_some.mp hd with hd | ⟨new, -⟩
    · exact ⟨_, hd, rfl, rfl⟩
    · exact absurd bound (Nat.not_lt.mpr (CellId.mem_block.mp new).1)

theorem Executed.continues (e : Executed F G) (h : F.Linked) : Continues F G where
  size_le := e.size ▸ Nat.le_add_right _ _
  old {id d} bound hd := by
    rcases F.cell?_cases id with dead | ⟨l, hl⟩ | ⟨c, hc, split⟩
    · rw [e.dead dead bound] at hd
      cases hd
    · refine ⟨l.cell, cell?_of_leaf? hl, ?_⟩
      rcases e.leaf_cases h hl with ⟨-, hG⟩ | ⟨-, hG⟩ | ⟨-, hG⟩ <;> rw [hG] at hd <;> cases hd <;> exact ⟨rfl, rfl⟩
    · refine ⟨c, hc, ?_⟩
      by_cases merges : F.Merges id
      · rw [e.merged merges hc] at hd
        cases hd
        exact ⟨rfl, rfl⟩
      · rw [e.inner hc split merges] at hd
        cases hd
        exact ⟨rfl, rfl⟩

section
variable {P N : Type} [Scalar P] [Scalar N] [RoundsTo P N]

theorem Linked.continues_run (h : F.Linked) (op : Operation P N) : Continues F (op.run F).forest := by
  rcases h.run_cases op with ⟨grown, -⟩ | ⟨index, rfl⟩ | ⟨fe, summary, -, -, executed⟩
  · exact grown.continues
  · exact Continues.addRoot F index
  · exact executed.continues h

end

/-! ### Cells that cease to live -/

theorem Refined.contains (refined : Refined F ids G) (leaves : ∀ id ∈ ids, ∃ l, F.leaf? id = some l)
    (hc : F.cell? id = some c) : ∃ d, G.cell? id = some d := by
  by_cases split : id ∈ ids
  · obtain ⟨l, hl⟩ := leaves id split
    exact ⟨_, refined.parent split hl⟩
  · exact ⟨c, (refined.kept (slot_lt_size hc) split).trans hc⟩

theorem Grown.contains (grown : Grown F G) (hc : F.cell? id = some c) : ∃ d, G.cell? id = some d := by
  obtain ⟨same, leaves, refined⟩ := grown
  obtain ⟨b, hb, -⟩ := same.links.symm.cell hc
  exact refined.contains leaves hb

theorem Grown.exists_cell?_of_new (grown : Grown F G) (old : F.slots.size ≤ id.slot) (new : id.slot < G.slots.size) :
    ∃ d, G.cell? id = some d := by
  obtain @⟨H, ids, same, leaves, refined⟩ := grown
  obtain ⟨p, hp, listed⟩ := refined.cover (same.size ▸ old) new
  obtain ⟨l, hl⟩ := leaves p hp
  exact ⟨_, refined.child hp hl listed⟩

theorem cell?_addRoot_of_live {index : Nat} (hc : F.cell? id = some c) : (F.addRoot index).1.cell? id = some c :=
  cell?_append_eq_some.mpr (Or.inl hc)

/-- Only a leaf whose group is merged ceases to live. -/
theorem Executed.leaf_of_gone (e : Executed F G) (h : F.Linked) (hc : F.cell? id = some c) (gone : G.cell? id = none) :
    ∃ l p, F.leaf? id = some l ∧ l.flag = .coarsen ∧ l.parent = some p ∧ F.Merges p := by
  rcases F.cell?_cases id with dead | ⟨l, hl⟩ | ⟨c, hc, split⟩
  · rw [hc] at dead
    cases dead
  · rcases e.leaf_cases h hl with ⟨-, hG⟩ | ⟨-, hG⟩ | ⟨⟨flag, p, hp, merges⟩, -⟩
    · rw [hG] at gone
      cases gone
    · rw [hG] at gone
      cases gone
    · exact ⟨l, p, hl, flag, hp, merges⟩
  · by_cases merges : F.Merges id
    · rw [e.merged merges hc] at gone
      cases gone
    · rw [e.inner hc split merges] at gone
      cases gone

/-! ### Roots -/

theorem Grown.roots (grown : Grown F G) : G.roots = F.roots := by
  have continues := grown.continues
  have kept : ∀ id : CellId, id.slot < F.slots.size → G.isRoot id = F.isRoot id := fun id bound => by
    rw [Bool.eq_iff_iff, isRoot_iff, isRoot_iff]
    constructor
    · rintro ⟨d, hd, top⟩
      obtain ⟨c, hc, -, parent⟩ := continues.old bound hd
      exact ⟨c, hc, parent.trans top⟩
    · rintro ⟨c, hc, top⟩
      obtain ⟨d, hd⟩ := grown.contains hc
      obtain ⟨b, hb, -, parent⟩ := continues.old bound hd
      obtain rfl := Option.some.inj (hc.symm.trans hb)
      exact ⟨d, hd, parent.symm.trans top⟩
  obtain @⟨H, ids, same, leaves, refined⟩ := grown
  rw [roots_append (same.size ▸ refined.size) kept, List.filter_eq_nil_iff.mpr, List.append_nil]
  intro k hk
  obtain ⟨old, new⟩ := CellId.mem_block.mp hk
  obtain ⟨id, hid, hk⟩ := refined.cover (same.size ▸ old) (by rwa [refined.size, same.size])
  obtain ⟨l, hl⟩ := leaves id hid
  simp [isRoot, refined.child hid hl hk, Leaf.child]

theorem roots_addRoot (F : Forest D) (index : Nat) : (F.addRoot index).1.roots = F.roots ++ [⟨F.slots.size⟩] := by
  have view : ∀ j, (F.addRoot index).1.cell? j = if j.slot < F.slots.size then F.cell? j
      else if j.slot < F.slots.size + 1 then some { level := 0, parent := none, element := index } else none :=
    cell?_append F 1 _
  have size : (F.addRoot index).1.slots.size = F.slots.size + 1 := size_append 1 _
  rw [roots_append size fun id bound => by rw [isRoot, isRoot, view, if_pos bound]]
  congr 1
  simp [CellId.block, List.range', isRoot, view]

/-! ### Covered ground -/

/-- What becomes of a leaf whose ground stays covered by leaves. -/
inductive Covered (G : Forest D) (l : Leaf) : Prop
  | leaf (stays : G.isActive l.id = true)
  | split (d : Cell) (live : G.cell? l.id = some d) (inner : d.isActive = false)
      (children : ∀ k ∈ d.children, G.isActive k = true)
  | merged (p : CellId) (parent : l.parent = some p) (gone : G.cell? l.id = none) (active : G.isActive p = true)

theorem isActive_of_leaf? (hl : F.leaf? id = some l) : F.isActive id = true := by
  rw [isActive_eq, hl, Option.isSome_some]

theorem isActive_of_role {m : Markers} (hc : F.cell? id = some c) (hr : c.role = .active m) : F.isActive id = true :=
  isActive_of_leaf? (leaf?_of_role hc hr)

theorem Grown.covered (grown : Grown F G) (hl : F.leaf? id = some l) : Covered G l := by
  obtain @⟨H, ids, same, leaves, refined⟩ := grown
  obtain rfl := leaf?_id hl
  obtain ⟨m, hm⟩ := same.exists_leaf? hl
  by_cases split : l.id ∈ ids
  · exact .split _ (refined.parent split hm) rfl fun k hk => isActive_of_role (refined.child split hm hk) rfl
  · exact .leaf (isActive_of_leaf? (refined.leaf?_of_not_mem hm split))

theorem Executed.covered (e : Executed F G) (h : F.Linked) (hl : F.leaf? id = some l) : Covered G l := by
  obtain rfl := leaf?_id hl
  rcases e.leaf_cases h hl with ⟨flag, hG⟩ | ⟨-, hG⟩ | ⟨⟨-, p, hp, merges⟩, hG⟩
  · exact .split _ hG rfl fun k hk => isActive_of_role (e.child hl flag hk) rfl
  · exact .leaf (isActive_of_role hG rfl)
  · obtain ⟨c, hc, -⟩ := id merges
    exact .merged p hp hG (isActive_of_role (e.merged merges hc) rfl)

section
variable {P N : Type} [Scalar P] [Scalar N] [RoundsTo P N]

theorem Linked.covered_run (h : F.Linked) (op : Operation P N) (hl : F.leaf? id = some l) :
    Covered (op.run F).forest l := by
  rcases h.run_cases op with ⟨grown, -⟩ | ⟨index, rfl⟩ | ⟨fe, summary, -, -, executed⟩
  · exact grown.covered hl
  · obtain rfl := leaf?_id hl
    exact .leaf (isActive_of_role (cell?_addRoot_of_live (cell?_of_leaf? hl)) rfl)
  · exact executed.covered h hl

end

end Forest

/-! ### Histories -/

namespace Reachable
variable {D : Nat} {F : Forest D}

theorem continues_replay (reached : Reachable F) (calls : List Call) : F.Continues (F.replay calls) := by
  induction calls generalizing F with
  | nil => exact Forest.Continues.refl F
  | cons call rest ih => exact (reached.linked.continues_run call.op).trans (ih (.step call.op reached))

end Reachable
end HpForest
