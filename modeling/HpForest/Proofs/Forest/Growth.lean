import HpForest.Forest.Execution
import HpForest.Proofs.Forest.Links

/-! # Growth

Roots and children take the slots after the last one. Splitting keeps a forest linked, and a run of
splits gives the `i`-th cell of the run the `i`-th block of new slots (`Refined`). -/

namespace HpForest

def Leaf.child (l : Leaf) : Cell := { level := l.level + 1, parent := some l.id, element := l.element }

def Leaf.splitInto (l : Leaf) (ks : List CellId) : Cell := ⟨l.level, l.parent, l.element, .split ks⟩

/-- A counter that is raised by one at every item of a kind ends at their number. -/
theorem foldl_count {σ α : Type} (raise : σ → Nat → σ) (none : ∀ s, raise s 0 = s)
    (more : ∀ s m n, raise (raise s m) n = raise s (m + n)) (q : α → Bool) (xs : List α) (s : σ) :
    xs.foldl (fun s x => if q x then raise s 1 else s) s = raise s (xs.countP q) := by
  induction xs generalizing s with
  | nil => exact (none s).symm
  | cons x rest ih =>
    rw [List.foldl_cons, ih, List.countP_cons]
    cases q x with
    | false => rfl
    | true => exact (more s 1 _).trans (by rw [if_pos rfl, Nat.add_comm])

namespace Forest
variable {D : Nat} {F G : Forest D} {id j k : CellId} {c d : Cell} {l : Leaf} {ids ks : List CellId}

theorem cell?_append_eq_some {n : Nat} : (F.append n c).1.cell? j = some d ↔
    F.cell? j = some d ∨ j ∈ CellId.block F.slots.size n ∧ d = c := by
  rw [cell?_append, CellId.mem_block]
  by_cases old : j.slot < F.slots.size
  · simp [old, Nat.not_le.mpr old]
  · have dead := cell?_eq_none_of_size_le (Nat.le_of_not_lt old)
    by_cases new : j.slot < F.slots.size + n
    · simp [old, new, dead, Nat.le_of_not_lt old, eq_comm]
    · simp [old, new, dead]

/-! ### Roots -/

theorem Linked.addRoot (h : F.Linked) (index : Nat) : (F.addRoot index).1.Linked := by
  have old : ∀ {j d}, F.cell? j = some d → (F.addRoot index).1.cell? j = some d := fun hd =>
    cell?_append_eq_some.mpr (Or.inl hd)
  have cases : ∀ {j d}, (F.addRoot index).1.cell? j = some d → F.cell? j = some d ∨
      d = { level := 0, parent := none, element := index } := fun hd =>
    (cell?_append_eq_some.mp hd).imp_right And.right
  constructor
  · intro j d hd top
    rcases cases hd with hd | rfl
    · exact h.root hd top
    · rfl
  · intro j d p hd hp
    rcases cases hd with hd | rfl
    · obtain ⟨q, hq, listed⟩ := h.parent hd hp
      exact ⟨q, old hq, listed⟩
    · cases hp
  · intro j d k hd hk
    rcases cases hd with hd | rfl
    · obtain ⟨e, he, rest⟩ := h.child hd hk
      exact ⟨e, old he, rest⟩
    · cases hk
  · intro j d hd
    rcases cases hd with hd | rfl
    · exact h.distinct hd
    · exact List.nodup_nil
  · intro j d hd split
    rcases cases hd with hd | rfl
    · exact h.count hd split
    · cases split
  · intro j d hd
    rcases cases hd with hd | rfl
    · exact h.level_le hd
    · exact Nat.zero_le _

/-! ### Splitting a leaf -/

def nextChildren (F : Forest D) : List CellId := CellId.block F.slots.size (fanout D)

def split (F : Forest D) (l : Leaf) : Forest D :=
  (F.append (fanout D) l.child).1.modify l.id fun c => { c with role := .split F.nextChildren }

@[simp] theorem size_split : (F.split l).slots.size = F.slots.size + fanout D := by
  simp [split]

theorem mem_nextChildren : k ∈ F.nextChildren ↔
    F.slots.size ≤ k.slot ∧ k.slot < F.slots.size + fanout D := CellId.mem_block

theorem leaf_eq_ok : F.leaf id = .ok l ↔ F.leaf? id = some l := by
  cases hc : F.cell? id with
  | none => simp [leaf, cell, leaf?, hc, bind, Except.bind]
  | some c => cases hl : c.leaf? id <;> simp [leaf, cell, leaf?, hc, hl, bind, Except.bind]

theorem refineCell_of_room (hl : F.leaf? id = some l) (room : l.level < maxLevel) :
    F.refineCell id = .ok (F.split l, F.nextChildren) := by
  obtain rfl := leaf?_id hl
  simp [refineCell, leaf_eq_ok.mpr hl, room, bind, Except.bind, pure, Except.pure]
  exact ⟨rfl, rfl⟩

theorem refineCell_of_full (hl : F.leaf? id = some l) (full : ¬l.level < maxLevel) :
    F.refineCell id = .error (.topology (.levelExhausted id)) := by
  simp [refineCell, leaf_eq_ok.mpr hl, full, bind, Except.bind, throw, throwThe, MonadExceptOf.throw]

theorem refineCell_eq_ok (h : F.refineCell id = .ok (G, ks)) :
    ∃ l, F.leaf? id = some l ∧ l.level < maxLevel ∧ G = F.split l ∧ ks = F.nextChildren := by
  cases hl : F.leaf id with
  | error e => simp [refineCell, hl, bind, Except.bind] at h
  | ok l =>
    have hl := leaf_eq_ok.mp hl
    by_cases room : l.level < maxLevel
    · rw [refineCell_of_room hl room] at h
      cases h
      exact ⟨l, hl, room, rfl, rfl⟩
    · rw [refineCell_of_full hl room] at h
      cases h

theorem cell?_split_eq_some (hl : F.leaf? l.id = some l) : (F.split l).cell? j = some c ↔
    (j = l.id ∧ c = l.splitInto F.nextChildren) ∨ (j ≠ l.id ∧ F.cell? j = some c) ∨
      (j ∈ F.nextChildren ∧ c = l.child) := by
  have hc := cell?_of_leaf? hl
  have old : l.id ∉ F.nextChildren := fun new =>
    absurd (slot_lt_size hc) (Nat.not_lt.mpr (mem_nextChildren.mp new).1)
  have hl' : (F.append (fanout D) l.child).1.cell? l.id = some l.cell :=
    cell?_append_eq_some.mpr (Or.inl hc)
  rw [split, cell?_modify]
  by_cases same : l.id = j
  · subst same
    simp [hl', old, Leaf.cell, Leaf.splitInto, eq_comm]
  · rw [if_neg same, cell?_append_eq_some]
    simp [Ne.symm same, nextChildren]

theorem cell?_split_self (hl : F.leaf? l.id = some l) :
    (F.split l).cell? l.id = some (l.splitInto F.nextChildren) :=
  (cell?_split_eq_some hl).mpr (Or.inl ⟨rfl, rfl⟩)

theorem cell?_split_child (hl : F.leaf? l.id = some l) (hk : k ∈ F.nextChildren) :
    (F.split l).cell? k = some l.child :=
  (cell?_split_eq_some hl).mpr (Or.inr (Or.inr ⟨hk, rfl⟩))

theorem cell?_split_of_lt (hl : F.leaf? l.id = some l) (ne : j ≠ l.id) (old : j.slot < F.slots.size) :
    (F.split l).cell? j = F.cell? j := by
  apply Option.ext
  intro c
  rw [cell?_split_eq_some hl]
  simp [ne, mem_nextChildren, Nat.not_le.mpr old]

theorem split_keeps (hl : F.leaf? l.id = some l) (hc : F.cell? j = some c) :
    ∃ d, (F.split l).cell? j = some d ∧ d.level = c.level ∧ d.parent = c.parent ∧
      ∀ k ∈ c.children, k ∈ d.children := by
  by_cases same : j = l.id
  · subst same
    rw [cell?_of_leaf? hl] at hc
    cases hc
    exact ⟨_, cell?_split_self hl, rfl, rfl, fun k hk => by cases hk⟩
  · exact ⟨c, (cell?_split_eq_some hl).mpr (Or.inr (Or.inl ⟨same, hc⟩)), rfl, rfl, fun _ hk => hk⟩

theorem Linked.split (h : F.Linked) (hl : F.leaf? l.id = some l) (room : l.level < maxLevel) :
    (F.split l).Linked := by
  have hc := cell?_of_leaf? hl
  constructor
  · intro j d hd top
    rcases (cell?_split_eq_some hl).mp hd with ⟨rfl, rfl⟩ | ⟨-, hd⟩ | ⟨-, rfl⟩
    · exact h.root (c := l.cell) hc top
    · exact h.root hd top
    · cases top
  · intro j d p hd hp
    have up : ∀ {b}, F.cell? j = some b → b.parent = some p →
        ∃ q, (F.split l).cell? p = some q ∧ j ∈ q.children := fun hb hbp => by
      obtain ⟨q, hq, listed⟩ := h.parent hb hbp
      obtain ⟨q', hq', -, -, keeps⟩ := split_keeps hl hq
      exact ⟨q', hq', keeps j listed⟩
    rcases (cell?_split_eq_some hl).mp hd with ⟨rfl, rfl⟩ | ⟨-, hd⟩ | ⟨new, rfl⟩
    · exact up hc hp
    · exact up hd hp
    · cases hp
      exact ⟨_, cell?_split_self hl, new⟩
  · intro j d k hd hk
    rcases (cell?_split_eq_some hl).mp hd with ⟨rfl, rfl⟩ | ⟨-, hd⟩ | ⟨-, rfl⟩
    · exact ⟨_, cell?_split_child hl hk, rfl, rfl,
        Nat.lt_of_lt_of_le (slot_lt_size hc) (mem_nextChildren.mp hk).1⟩
    · obtain ⟨e, he, parent, below, younger⟩ := h.child hd hk
      obtain ⟨e', he', level', parent', -⟩ := split_keeps hl he
      exact ⟨e', he', parent'.trans parent, level'.trans below, younger⟩
    · cases hk
  · intro j d hd
    rcases (cell?_split_eq_some hl).mp hd with ⟨rfl, rfl⟩ | ⟨-, hd⟩ | ⟨-, rfl⟩
    · exact CellId.nodup_block _ _
    · exact h.distinct hd
    · exact List.nodup_nil
  · intro j d hd split
    rcases (cell?_split_eq_some hl).mp hd with ⟨rfl, rfl⟩ | ⟨-, hd⟩ | ⟨-, rfl⟩
    · simp [Leaf.splitInto, Cell.children, nextChildren, CellId.block]
    · exact h.count hd split
    · cases split
  · intro j d hd
    rcases (cell?_split_eq_some hl).mp hd with ⟨rfl, rfl⟩ | ⟨-, hd⟩ | ⟨-, rfl⟩
    · exact h.level_le (c := l.cell) hc
    · exact h.level_le hd
    · exact room

/-! ### Runs of steps -/

section Runs
variable {α : Type} {step : Forest D → α → Except AdaptError (Forest D)} {xs ys : List α}

theorem stepEach_keeps {I : Forest D → Prop} (keeps : ∀ {F x G}, I F → step F x = .ok G → I G)
    (h : I F) : I (stepEach step xs F).forest := by
  induction xs generalizing F with
  | nil => exact h
  | cons x rest ih =>
    cases accepted : step F x with
    | error e => simpa [stepEach, accepted, Outcome.refuse] using h
    | ok G => simpa [stepEach, accepted] using ih (keeps h accepted)

variable (step xs) in
/-- A run is accepted when every step is, under an invariant of the items still to come. -/
theorem stepEach_accepts {I : List α → Forest D → Prop}
    (progress : ∀ {x rest F}, I (x :: rest) F → ∃ G, step F x = .ok G ∧ I rest G) (h : I xs F) :
    ∃ G, stepEach step xs F = .accept G () [] ∧ I [] G := by
  induction xs generalizing F with
  | nil => exact ⟨F, rfl, h⟩
  | cons x rest ih =>
    obtain ⟨G, accepted, hG⟩ := progress h
    simpa [stepEach, accepted] using ih hG

theorem stepEach_append (accepted : stepEach step xs F = .accept G () []) :
    stepEach step (xs ++ ys) F = stepEach step ys G := by
  induction xs generalizing F with
  | nil =>
    cases accepted
    rfl
  | cons x rest ih =>
    cases first : step F x with
    | error e => simp [stepEach, first, Outcome.refuse, Outcome.accept] at accepted
    | ok H =>
      simp only [stepEach, first, List.cons_append] at accepted ⊢
      exact ih accepted

theorem stepEach_map {β : Type} {g : β → α} {zs : List β} :
    stepEach step (zs.map g) F = stepEach (fun F z => step F (g z)) zs F := by
  induction zs generalizing F with
  | nil => rfl
  | cons z rest ih =>
    rw [List.map_cons, stepEach, stepEach]
    cases step F (g z) with
    | error e => rfl
    | ok G => exact ih

/-- Items that ask for no step may be left out of the run. -/
theorem stepEach_filter {q : α → Bool} :
    stepEach step (xs.filter q) F = stepEach (fun F x => if q x then step F x else .ok F) xs F := by
  induction xs generalizing F with
  | nil => rfl
  | cons x rest ih =>
    cases asked : q x with
    | false =>
      rw [List.filter_cons_of_neg (by simp [asked]), stepEach, if_neg (by simp [asked])]
      exact ih
    | true =>
      rw [List.filter_cons_of_pos asked, stepEach, stepEach, if_pos asked]
      cases step F x with
      | error e => rfl
      | ok G => exact ih

/-! A run may carry an account of what its steps have done. -/

variable {σ : Type} {count : σ → α → σ} {s : σ}

/-- Takes a step for each item until one refuses, and hands the answer of each to the next. -/
def runEach (step : Forest D → σ → α → Outcome D σ) : List α → Forest D → σ → Outcome D σ
  | [], F, s => .accept F s []
  | x :: rest, F, s => (step F s x).andThen fun s G => runEach step rest G s

/-- A step that is counted once it is taken. -/
def counting (step : Forest D → α → Except AdaptError (Forest D)) (count : σ → α → σ) (F : Forest D) (s : σ) (x : α) :
    Outcome D σ := .ofExcept F ((step F x).map fun G => (G, count s x))

/-- A run that counts its steps is the run itself, and at its end all items are counted. -/
theorem runEach_counting : runEach (counting step count) xs F s =
    (stepEach step xs F).andThen fun _ G => .accept G (xs.foldl count s) [] := by
  induction xs generalizing F s with
  | nil => rfl
  | cons x rest ih =>
    rw [runEach, stepEach, counting]
    cases step F x with
    | error e => rfl
    | ok G => exact ih

end Runs

/-! ### Runs of splits -/

theorem Linked.refineEach (h : F.Linked) (ids : List CellId) : (F.refineEach ids).forest.Linked := by
  refine stepEach_keeps (I := Linked) (fun {F id G} hF accepted => ?_) h
  cases hr : F.refineCell id with
  | error e => simp [hr, Except.map] at accepted
  | ok r =>
    obtain ⟨l, hl, room, hG, -⟩ := refineCell_eq_ok hr
    obtain rfl := leaf?_id hl
    simp only [hr, Except.map, Except.ok.injEq] at accepted
    rw [← accepted, hG]
    exact hF.split hl room

/-- The new ids that a run of splits gives to the children of one of its cells. -/
def childBlock (F : Forest D) (ids : List CellId) (id : CellId) : List CellId :=
  CellId.block (F.slots.size + fanout D * ids.idxOf id) (fanout D)

theorem childBlock_concat_of_mem (h : id ∈ ids) : F.childBlock (ids ++ [k]) id = F.childBlock ids id := by
  rw [childBlock, List.idxOf_append, if_pos h, childBlock]

theorem childBlock_concat_self (h : id ∉ ids) :
    F.childBlock (ids ++ [id]) id = CellId.block (F.slots.size + fanout D * ids.length) (fanout D) := by
  rw [childBlock, List.idxOf_append, if_neg h]
  simp

/-- `G` is `F` after the given leaves have been split in order. -/
structure Refined (F : Forest D) (ids : List CellId) (G : Forest D) : Prop where
  size : G.slots.size = F.slots.size + fanout D * ids.length
  kept : ∀ {j}, j.slot < F.slots.size → j ∉ ids → G.cell? j = F.cell? j
  parent : ∀ {id l}, id ∈ ids → F.leaf? id = some l → G.cell? id = some (l.splitInto (F.childBlock ids id))
  child : ∀ {id l k}, id ∈ ids → F.leaf? id = some l → k ∈ F.childBlock ids id → G.cell? k = some l.child
  /-- Every new slot belongs to one of the split cells. -/
  cover : ∀ {k}, F.slots.size ≤ k.slot → k.slot < G.slots.size → ∃ id ∈ ids, k ∈ F.childBlock ids id

namespace Refined

theorem nil : Refined F [] F where
  size := by simp
  kept _ _ := rfl
  parent h := by cases h
  child h := by cases h
  cover old new := absurd new (Nat.not_lt.mpr old)

theorem leaf?_of_not_mem (h : Refined F ids G) (hl : F.leaf? id = some l) (fresh : id ∉ ids) :
    G.leaf? id = some l := by
  obtain ⟨same, hc⟩ := leaf?_eq_some.mp hl
  exact leaf?_eq_some.mpr ⟨same, (h.kept (slot_lt_size hc) fresh).trans hc⟩

theorem concat (h : Refined F ids G) (hl : F.leaf? l.id = some l) (fresh : l.id ∉ ids) :
    Refined F (ids ++ [l.id]) (G.split l) := by
  have hG := h.leaf?_of_not_mem hl fresh
  have old := slot_lt_size (cell?_of_leaf? hl)
  have next : F.childBlock (ids ++ [l.id]) l.id = G.nextChildren := by
    rw [childBlock_concat_self fresh, nextChildren, h.size]
  constructor
  · rw [size_split, h.size, List.length_append, List.length_singleton, Nat.mul_add, Nat.mul_one,
      Nat.add_assoc]
  · intro j hj hmem
    simp only [List.mem_append, List.mem_singleton, not_or] at hmem
    rw [cell?_split_of_lt hG hmem.2 (by rw [h.size]; omega), h.kept hj hmem.1]
  · intro id m hmem hm
    rcases List.mem_append.mp hmem with hmem | hmem
    · have ne : id ≠ l.id := fun same => fresh (same ▸ hmem)
      have hid := slot_lt_size (cell?_of_leaf? hm)
      rw [childBlock_concat_of_mem hmem, cell?_split_of_lt hG ne (by rw [h.size]; omega), h.parent hmem hm]
    · obtain rfl := List.mem_singleton.mp hmem
      rw [hl] at hm
      cases hm
      rw [next, cell?_split_self hG]
  · intro id m k hmem hm hk
    rcases List.mem_append.mp hmem with hmem | hmem
    · rw [childBlock_concat_of_mem hmem] at hk
      have hGk := h.child hmem hm hk
      have ne : k ≠ l.id := fun same => by
        have above := (CellId.mem_block.mp hk).1
        rw [same] at above
        omega
      rw [cell?_split_of_lt hG ne (slot_lt_size hGk), hGk]
    · obtain rfl := List.mem_singleton.mp hmem
      rw [hl] at hm
      cases hm
      exact cell?_split_child hG (next ▸ hk)
  · intro k hk hk'
    by_cases before : k.slot < G.slots.size
    · obtain ⟨id, hmem, hid⟩ := h.cover hk before
      exact ⟨id, List.mem_append_left _ hmem, by rwa [childBlock_concat_of_mem hmem]⟩
    · refine ⟨l.id, by simp, next ▸ mem_nextChildren.mpr ⟨Nat.le_of_not_lt before, ?_⟩⟩
      rwa [size_split] at hk'

end Refined

/-- Leaves that can be split are all split. -/
theorem refineEach_accepts (distinct : ids.Nodup)
    (room : ∀ id ∈ ids, ∃ l, F.leaf? id = some l ∧ l.level < maxLevel) :
    ∃ G, F.refineEach ids = .accept G () [] ∧ Refined F ids G := by
  have run := stepEach_accepts (fun F id => (F.refineCell id).map Prod.fst) ids (F := F)
    (I := fun rest G => ∃ done, ids = done ++ rest ∧ Refined F done G) ?_ ⟨[], rfl, .nil⟩
  · obtain ⟨G, accepted, done, same, refined⟩ := run
    rw [List.append_nil] at same
    exact ⟨G, accepted, same ▸ refined⟩
  · rintro id rest G ⟨done, same, refined⟩
    have hmem : id ∈ ids := by simp [same]
    obtain ⟨l, hl, below⟩ := room id hmem
    obtain rfl := leaf?_id hl
    have fresh : l.id ∉ done := fun hdone => by
      rw [same, List.nodup_append] at distinct
      exact distinct.2.2 l.id hdone l.id (by simp) rfl
    refine ⟨G.split l, ?_, done ++ [l.id], by simp [same], refined.concat hl fresh⟩
    rw [refineCell_of_room (refined.leaf?_of_not_mem hl fresh) below]
    rfl

theorem refineEach_refuses {before after : List CellId} {id : CellId} (distinct : (before ++ id :: after).Nodup)
    (room : ∀ id ∈ before, ∃ l, F.leaf? id = some l ∧ l.level < maxLevel) (hl : F.leaf? id = some l)
    (full : ¬l.level < maxLevel) : ∃ G, F.refineEach (before ++ id :: after) =
      .refuse G (.topology (.levelExhausted id)) [] ∧ Refined F before G := by
  rw [List.nodup_append] at distinct
  obtain ⟨G, accepted, refined⟩ := refineEach_accepts distinct.1 room
  have fresh : id ∉ before := fun hmem => distinct.2.2 id hmem id (by simp) rfl
  refine ⟨G, ?_, refined⟩
  rw [Forest.refineEach, stepEach_append accepted, stepEach,
    refineCell_of_full (refined.leaf?_of_not_mem hl fresh) full]
  rfl

end Forest
end HpForest
