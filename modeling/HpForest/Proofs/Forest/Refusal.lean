import HpForest.Proofs.History

/-! # Refused executions

An execution that refuses an element index leaves the forest alone. One that meets a leaf which can be
split no further has already dropped stray coarsen flags, switched elements and split the leaves before
that one; it leaves the forest alone exactly when there was nothing of this to do. -/

namespace HpForest
namespace Forest
variable {D : Nat} {F G : Forest D} {fe : Collection} {id : CellId} {ids : List CellId} {l : Leaf}

theorem Refined.eq_nil (h : Refined F ids G) (size : G.slots.size = F.slots.size) : ids = [] := by
  have grown := h.size
  have none : fanout D * ids.length = 0 := by omega
  rcases Nat.mul_eq_zero.mp none with none | none
  · exact absurd none (Nat.ne_of_gt fanout_pos)
  · exact List.length_eq_zero_iff.mp none

theorem Refined.eq_of_nil (h : Refined F [] G) : G = F := by
  have size : G.slots.size = F.slots.size := h.size
  refine eq_of_cell? size fun id => ?_
  by_cases old : id.slot < F.slots.size
  · exact h.kept old List.not_mem_nil
  · rw [cell?_eq_none_of_size_le (Nat.le_of_not_lt old), cell?_eq_none_of_size_le (by omega)]

/-- The clean-up and the switch change nothing when no flag is stray and no element is scheduled. -/
theorem switched_eq_self_iff :
    F.switched = F ↔ ∀ l ∈ F.leaves, l.future = none ∧ F.strayCoarsen l = false := by
  constructor
  · intro same l hl
    have hl := mem_leaves_iff.mp hl
    have fixed : F.switchedLeaf l = l := by
      have view : F.switched.leaf? l.id = (F.leaf? l.id).map F.switchedLeaf := leaf?_switched
      rw [same, hl, Option.map_some] at view
      exact (Option.some.inj view).symm
    have markers : (F.cleanMarkers l).clearFuture = l.markers := congrArg Leaf.markers fixed
    constructor
    · rw [Leaf.future, ← markers]
      rfl
    · have flag : (F.cleanMarkers l).flag = l.flag :=
        (rfl : _ = (F.cleanMarkers l).clearFuture.flag).trans (congrArg Markers.flag markers)
      cases stray : F.strayCoarsen l with
      | false => rfl
      | true =>
        have flagged := (strayCoarsen_iff.mp stray).1
        rw [cleanMarkers_flag_eq_coarsen.mp (flag.trans flagged) |>.2] at stray
        cases stray
  · intro idle
    refine eq_of_cell? size_switched fun id => ?_
    cases hc : F.cell? id with
    | none =>
      have links := SameLinks.switched (F := F) id
      rw [hc] at links
      simpa using links
    | some c =>
      cases hr : c.role with
      | split ks => exact cell?_switched_of_split hc (Cell.not_isActive_of_role hr)
      | active m =>
        have hl := leaf?_of_role hc hr
        obtain ⟨unscheduled, kept⟩ := idle ⟨id, c.level, c.parent, c.element, m⟩ (mem_leaves_iff.mpr hl)
        have view : F.switched.leaf? id = some (F.switchedLeaf ⟨id, c.level, c.parent, c.element, m⟩) := by
          rw [leaf?_switched, hl]
          rfl
        rw [cell?_of_leaf? view, ← hc, cell?_of_leaf? hl]
        obtain ⟨flag, future⟩ := m
        obtain rfl : future = none := unscheduled
        simp [Leaf.cell, switchedLeaf, cleanMarkers, kept, Leaf.target, Leaf.future, Markers.clearFuture]

theorem execute_exhausted_eq_iff (h : F.Linked) (within : F.Within fe)
    (first : F.leaves.find? Leaf.exhausted = some l) : (F.execute fe).forest = F ↔
      (∀ m ∈ F.leaves, m.future = none ∧ F.strayCoarsen m = false) ∧
        F.leaves.find? (fun m => m.flag = .refine) = some l := by
  obtain ⟨before, after, R, leaves, room, refined, -, -, forest⟩ := execute_exhausted h within first
  have exhausted := List.find?_some first
  have flagged : l.flag = .refine := (of_decide_eq_true exhausted).1
  -- The exhausted leaf is the first one flagged exactly when no leaf before it was split.
  have head : F.leaves.find? (fun m => m.flag = .refine) = some l ↔
      (before.filter fun m => m.flag = .refine).map (·.id) = [] := by
    rw [leaves, List.find?_append, List.map_eq_nil_iff, List.filter_eq_nil_iff]
    cases found : before.find? fun m => m.flag = .refine with
    | none => simpa [flagged] using found
    | some m =>
      have hm := List.mem_of_find?_eq_some found
      have hflag := List.find?_some found
      constructor
      · intro same
        have eq : m = l := by simpa using same
        rw [← eq, room m hm] at exhausted
        cases exhausted
      · exact fun none => absurd hflag (none m hm)
  rw [forest, head, ← switched_eq_self_iff]
  constructor
  · intro same
    have none := refined.eq_nil (by rw [same, size_switched])
    rw [none] at refined
    exact ⟨refined.eq_of_nil.symm.trans same, none⟩
  · rintro ⟨same, none⟩
    rw [none] at refined
    exact refined.eq_of_nil.trans same

/-- The first leaf flagged for refinement, if it is exhausted, is also the first exhausted one. -/
theorem find?_exhausted_of_first (first : F.leaves.find? (fun m => m.flag = .refine) = some l)
    (full : l.level = maxLevel) : F.leaves.find? Leaf.exhausted = some l := by
  obtain ⟨flagged, before, after, leaves, unflagged⟩ := List.find?_eq_some_iff_append.mp first
  refine List.find?_eq_some_iff_append.mpr ⟨?_, before, after, leaves, fun m hm => ?_⟩
  · simpa [Leaf.exhausted, full] using flagged
  · have staying : m.flag ≠ .refine := by simpa using unflagged m hm
    simp [Leaf.exhausted, staying]

/-- A refused execution leaves the forest alone exactly if it refuses an element index, or if no
element is scheduled, no coarsen flag is stray and already the first leaf flagged for refinement is at
the maximum level. -/
theorem execute_refused_eq_iff (reached : Reachable F) {e : AdaptError}
    (refused : (F.execute fe).answer = .error e) : (F.execute fe).forest = F ↔
      ¬F.Within fe ∨ (∀ l ∈ F.leaves, l.future = none ∧ F.strayCoarsen l = false) ∧
        ∃ l, F.leaves.find? (fun l => l.flag = .refine) = some l ∧ l.level = maxLevel := by
  rcases execute_ends reached.linked fe with ⟨foreign, -, forest⟩ | ⟨within, -, l, first, -⟩ | ⟨-, ⟨_, answer⟩, -⟩
  · exact ⟨fun _ => Or.inl foreign, fun _ => forest⟩
  · have exhausted := List.find?_some first
    have full : ¬l.level < maxLevel := (of_decide_eq_true exhausted).2
    have hl := cell?_of_leaf? (mem_leaves_iff.mp (List.mem_of_find?_eq_some first))
    have level : l.level ≤ maxLevel := reached.linked.level_le (c := l.cell) hl
    rw [execute_exhausted_eq_iff reached.linked within first]
    constructor
    · rintro ⟨idle, head⟩
      exact Or.inr ⟨idle, l, head, by omega⟩
    · rintro (foreign | ⟨idle, m, head, top⟩)
      · exact absurd within foreign
      · rw [find?_exhausted_of_first head top] at first
        cases first
        exact ⟨idle, head⟩
  · rw [answer] at refused
    cases refused

/-- A root with an element that a collection of two does not have. -/
def foreignRoot : Forest 2 := after ([.addRoot 2] : List (Operation Rat Rat))

theorem foreignRoot_refused : Reachable foreignRoot ∧
    (foreignRoot.execute .twoElements).answer = .error (.invalidElement 2 2) ∧
    (foreignRoot.execute .twoElements).forest = foreignRoot :=
  ⟨.after _, rfl, (execute_refused_eq_iff (.after _) (e := .invalidElement 2 2) rfl).mpr (Or.inl (by decide))⟩

theorem execute_exhausted_leaf? (h : F.Linked) (within : F.Within fe)
    (first : F.leaves.find? Leaf.exhausted = some l) :
    (F.execute fe).answer = .error (.topology (.levelExhausted l.id)) ∧
      (F.execute fe).forest.leaf? l.id = some (F.switchedLeaf l) := by
  obtain ⟨before, after, R, leaves, -, refined, -, answer, forest⟩ := execute_exhausted h within first
  have hl : F.leaf? l.id = some l := mem_leaves_iff.mp (List.mem_of_find?_eq_some first)
  have fresh : l.id ∉ (before.filter fun m => m.flag = .refine).map (·.id) := fun hmem => by
    obtain ⟨m, hm, same⟩ := List.mem_map.mp hmem
    have distinct := nodup_leaves_ids (F := F)
    rw [leaves, List.map_append, List.nodup_append] at distinct
    exact distinct.2.2 m.id (List.mem_map.mpr ⟨m, (List.mem_filter.mp hm).1, rfl⟩) l.id (by simp) same
  refine ⟨answer, ?_⟩
  rw [forest]
  exact refined.leaf?_of_not_mem (by rw [leaf?_switched, hl]; rfl) fresh

/-! ### A descent to the maximum level -/

def youngest (D n : Nat) : CellId := ⟨fanout D * n⟩

/-- A root, and `n` splits of the youngest cell. -/
def descent (D : Nat) : Nat → List (Operation Rat Rat)
  | 0 => [.addRoot 0]
  | n + 1 => descent D n ++ [.refineCell (youngest D n)]

/-- The forest of a descent: the youngest cell is at level `n`, and no cell is marked. -/
structure Descended (F : Forest D) (n : Nat) : Prop where
  size : F.slots.size = fanout D * n + 1
  deepest : ∃ parent, F.cell? (youngest D n) = some ⟨n, parent, 0, .active {}⟩
  bare : ∀ {id c}, F.cell? id = some c → c.element = 0 ∧ c.markers = {}

theorem descended_zero : Descended (after (descent D 0) : Forest D) 0 := by
  have root : ∀ {j c}, (after (descent D 0) : Forest D).cell? j = some c ↔
      j.slot = 0 ∧ c = { level := 0, parent := none, element := 0 } := fun {j c} => by
    refine cell?_append_eq_some.trans ?_
    simp [Forest.empty, cell?, CellId.mem_block]
  constructor
  · rfl
  · exact ⟨none, root.mpr ⟨Nat.mul_zero _, rfl⟩⟩
  · intro id c hc
    obtain ⟨-, rfl⟩ := root.mp hc
    exact ⟨rfl, rfl⟩

theorem descended {n : Nat} (h : n ≤ maxLevel) : Descended (after (descent D n) : Forest D) n := by
  induction n with
  | zero => exact descended_zero
  | succ n ih =>
    have d := ih (by omega)
    obtain ⟨parent, hc⟩ := d.deepest
    have hl := leaf?_of_role hc rfl
    have split : (after (descent D (n + 1)) : Forest D) =
        (after (descent D n)).split ⟨youngest D n, n, parent, 0, {}⟩ := by
      rw [descent, after_concat]
      simp [Operation.run, Outcome.map, Outcome.ofExcept, refineCell_of_room hl (Nat.lt_of_succ_le h), Outcome.accept]
    rw [split]
    have next : youngest D (n + 1) ∈ (after (descent D n) : Forest D).nextChildren := by
      have positive : 0 < fanout D := fanout_pos
      rw [mem_nextChildren, d.size, youngest, Nat.mul_succ]
      show fanout D * n + 1 ≤ fanout D * n + fanout D ∧
        fanout D * n + fanout D < fanout D * n + 1 + fanout D
      omega
    constructor
    · rw [size_split, d.size, Nat.mul_succ]
      omega
    · exact ⟨some (youngest D n), cell?_split_child hl next⟩
    · intro id c hc
      rcases (cell?_split_eq_some hl).mp hc with ⟨-, rfl⟩ | ⟨-, hc⟩ | ⟨-, rfl⟩
      · exact ⟨rfl, rfl⟩
      · exact d.bare hc
      · exact ⟨rfl, rfl⟩

/-- A descent whose youngest cell is then flagged for refinement and scheduled for another element. -/
def markedDescent (D n : Nat) : Forest D :=
  after (descent D n ++ [.setFlag (youngest D n) .refine] ++ [.setFuture (youngest D n) 1])

theorem ofMarking_leaf (hl : F.leaf? id = some l) (f : Cell → Cell) :
    (Outcome.ofMarking F (do let _ ← F.leaf id; return F.modify id f)).forest = F.modify id f := by
  rw [leaf_eq_ok.mpr hl]
  rfl

theorem markedDescent_leaf? {n : Nat} (h : n ≤ maxLevel) : ∃ parent, ∀ j, (markedDescent D n).leaf? j =
    if youngest D n = j then some ⟨j, n, parent, 0, ⟨.refine, some 1⟩⟩
    else (after (descent D n) : Forest D).leaf? j := by
  obtain ⟨parent, hc⟩ := (descended (D := D) h).deepest
  have hl := leaf?_of_role hc rfl
  have flagged : (after (descent D n ++ [.setFlag (youngest D n) .refine]) : Forest D) =
      (after (descent D n)).modify (youngest D n) (Cell.mapMarkers fun m => { m with flag := .refine }) := by
    rw [after_concat]
    exact ofMarking_leaf hl _
  have hl' : (after (descent D n ++ [.setFlag (youngest D n) .refine]) : Forest D).leaf? (youngest D n) =
      some ⟨youngest D n, n, parent, 0, ⟨.refine, none⟩⟩ := by
    rw [flagged, leaf?_modify, if_pos rfl, hl]
    rfl
  have scheduled : markedDescent D n =
      (after (descent D n ++ [.setFlag (youngest D n) .refine])).modify (youngest D n)
        (Cell.mapMarkers fun m => { m with future := some 1 }) := by
    rw [markedDescent, after_concat]
    exact ofMarking_leaf hl' _
  refine ⟨parent, fun j => ?_⟩
  by_cases same : youngest D n = j
  · subst same
    rw [if_pos rfl, scheduled, leaf?_modify, if_pos rfl, hl']
    rfl
  · rw [if_neg same, scheduled, leaf?_modify, if_neg same, flagged, leaf?_modify, if_neg same]

theorem markedDescent_first {n : Nat} (h : n = maxLevel) : ∃ parent,
    (markedDescent D n).leaves.find? Leaf.exhausted =
      some ⟨youngest D n, n, parent, 0, ⟨.refine, some 1⟩⟩ := by
  obtain ⟨parent, view⟩ := markedDescent_leaf? (D := D) (Nat.le_of_eq h)
  refine ⟨parent, ?_⟩
  have member := mem_leaves_of_leaf? ((view (youngest D n)).trans (if_pos rfl))
  cases found : (markedDescent D n).leaves.find? Leaf.exhausted with
  | none => simpa [Leaf.exhausted, Leaf.flag, h] using List.find?_eq_none.mp found _ member
  | some l =>
    have hl := mem_leaves_iff.mp (List.mem_of_find?_eq_some found)
    rw [view] at hl
    split at hl
    · next same => rw [← Option.some.inj hl, same]
    · have bare := ((descended (D := D) (Nat.le_of_eq h)).bare (cell?_of_leaf? hl)).2
      have unflagged : l.flag = .none := congrArg Markers.flag bare
      have exhausted := List.find?_some found
      simp [Leaf.exhausted, unflagged] at exhausted

theorem markedDescent_within {n : Nat} (h : n ≤ maxLevel) : (markedDescent D n).Within .twoElements := by
  obtain ⟨parent, view⟩ := markedDescent_leaf? (D := D) h
  intro l hl i hi
  have hl := mem_leaves_iff.mp hl
  rw [view] at hl
  split at hl
  · rw [← Option.some.inj hl] at hi
    have cases : i = 0 ∨ i = 1 := by simpa [Leaf.indices] using hi
    rcases cases with rfl | rfl <;> decide
  · obtain ⟨element, markers⟩ := (descended (D := D) h).bare (cell?_of_leaf? hl)
    have element : l.element = 0 := element
    have markers : l.markers = {} := markers
    have zero : i = 0 := by simpa [Leaf.indices, element, markers] using hi
    subst zero
    decide

theorem markedDescent_ends : ∃ parent,
    (markedDescent 2 255).leaf? ⟨1020⟩ = some ⟨⟨1020⟩, 255, parent, 0, ⟨.refine, some 1⟩⟩ ∧
      ((markedDescent 2 255).execute .twoElements).answer = .error (.topology (.levelExhausted ⟨1020⟩)) ∧
      ∃ flag, ((markedDescent 2 255).execute .twoElements).forest.leaf? ⟨1020⟩ =
        some ⟨⟨1020⟩, 255, parent, 1, ⟨flag, none⟩⟩ := by
  obtain ⟨parent, first⟩ := markedDescent_first (D := 2) (n := 255) rfl
  have before := mem_leaves_iff.mp (List.mem_of_find?_eq_some first)
  have linked : (markedDescent 2 255).Linked := (Reachable.after _).linked
  obtain ⟨answer, after⟩ := execute_exhausted_leaf? linked (markedDescent_within (Nat.le_refl _)) first
  have deepest : youngest 2 255 = ⟨1020⟩ := rfl
  rw [deepest] at before answer after
  exact ⟨parent, before, answer, _, after⟩

/-- A refused execution is not atomic: here it leaves the cell that it refuses to split with another
element in use. -/
theorem markedDescent_changes : Reachable (markedDescent 2 255) ∧
    ((markedDescent 2 255).execute .twoElements).answer = .error (.topology (.levelExhausted ⟨1020⟩)) ∧
    ((markedDescent 2 255).leaf? ⟨1020⟩).map (·.element) = some 0 ∧
    (((markedDescent 2 255).execute .twoElements).forest.leaf? ⟨1020⟩).map (·.element) = some 1 ∧
    ((markedDescent 2 255).execute .twoElements).forest ≠ markedDescent 2 255 := by
  obtain ⟨parent, before, answer, flag, after⟩ := markedDescent_ends
  have old : ((markedDescent 2 255).leaf? ⟨1020⟩).map (·.element) = some 0 := by
    rw [before]
    rfl
  have new : (((markedDescent 2 255).execute .twoElements).forest.leaf? ⟨1020⟩).map (·.element) = some 1 := by
    rw [after]
    rfl
  refine ⟨.after _, answer, old, new, fun same => ?_⟩
  rw [same, old] at new
  cases new

end Forest
end HpForest
