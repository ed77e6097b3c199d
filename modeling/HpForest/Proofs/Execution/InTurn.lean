import HpForest.Proofs.Forest.Refusal

/-! # Executions cell by cell

An execution runs three loops over lists that it made before them, while its own writes change the forest: it
switches elements, splits leaves and merges groups. Here every cell is looked up when its turn comes, and again
after each write that might have removed it, and what has been done is counted as it is done
(`Forest.executeInTurn`). This is the same execution, and none of its lookups fails. So an execution refuses a
foreign element index or a leaf that can be split no further, and nothing else. -/

namespace HpForest

theorem mapM_congr_left {m : Type → Type} [Monad m] [LawfulMonad m] {α β : Type} {f g : α → m β} {xs : List α}
    (same : ∀ x ∈ xs, f x = g x) : xs.mapM f = xs.mapM g := by
  induction xs with
  | nil => rfl
  | cons x rest ih =>
    rw [List.mapM_cons, List.mapM_cons, same x List.mem_cons_self, ih fun y hy => same y (List.mem_cons_of_mem x hy)]

namespace Leaf
variable {fe : Collection} {l : Leaf} {i : Nat}

/-- The element is the first one that the leaf refers to and the collection does not have. The element in use
comes before the scheduled one. -/
def Misses (fe : Collection) (l : Leaf) (i : Nat) : Prop :=
  fe.size ≤ i ∧ (i = l.element ∨ l.element < fe.size ∧ l.future = some i)

instance : Decidable (l.Misses fe i) :=
  inferInstanceAs (Decidable (fe.size ≤ i ∧ (i = l.element ∨ l.element < fe.size ∧ l.future = some i)))

theorem find?_indices_eq_some : (l.indices.find? fun j => !fe.contains j) = some i ↔ l.Misses fe i := by
  by_cases own : l.element < fe.size
  · cases scheduled : l.markers.future <;> simp [indices, Misses, future, Collection.contains, own, scheduled] <;> omega
  · simp [indices, Misses, Collection.contains, own]
    omega

theorem find?_indices_isSome :
    (l.indices.find? fun j => !fe.contains j).isSome = true ↔ ∃ j ∈ l.indices, fe.size ≤ j := by
  simp [List.find?_isSome, Collection.contains]

end Leaf

namespace ExecutionSummary

/-- Counts the leaf if it is given another element. -/
def countSwitch (s : ExecutionSummary) (l : Leaf) : ExecutionSummary :=
  if l.future.any (· ≠ l.element) then { s with pAdapted := s.pAdapted + 1 } else s

def countSplit (s : ExecutionSummary) (_ : CellId) : ExecutionSummary := { s with refined := s.refined + 1 }

def countMerge (s : ExecutionSummary) (_ : CellId) : ExecutionSummary :=
  { s with coarsenedGroups := s.coarsenedGroups + 1 }

variable {s : ExecutionSummary}

theorem foldl_countSwitch (ls : List Leaf) :
    ls.foldl countSwitch s = { s with pAdapted := s.pAdapted + ls.countP Leaf.switches } := by
  have switches : Leaf.switches = fun l => l.future.any (· ≠ l.element) := funext fun l => by
    cases scheduled : l.future <;> simp [Leaf.switches, Leaf.target, scheduled]
  rw [switches]
  exact foldl_count (fun s n => { s with pAdapted := s.pAdapted + n }) (fun _ => rfl)
    (fun _ _ _ => by simp [Nat.add_assoc]) _ ls s

theorem foldl_countSplit (ids : List CellId) :
    ids.foldl countSplit s = { s with refined := s.refined + ids.length } := by
  rw [← List.countP_true]
  exact foldl_count (fun s n => { s with refined := s.refined + n }) (fun _ => rfl)
    (fun _ _ _ => by simp [Nat.add_assoc]) (fun _ => true) ids s

theorem foldl_countMerge (ps : List CellId) :
    ps.foldl countMerge s = { s with coarsenedGroups := s.coarsenedGroups + ps.length } := by
  rw [← List.countP_true]
  exact foldl_count (fun s n => { s with coarsenedGroups := s.coarsenedGroups + n }) (fun _ => rfl)
    (fun _ _ _ => by simp [Nat.add_assoc]) (fun _ => true) ps s

end ExecutionSummary

namespace Forest
variable {D : Nat} {F G : Forest D} {fe : Collection} {id j p : CellId} {ids ks ps : List CellId} {c d : Cell}
  {l : Leaf} {i : Nat}

/-! ### The steps -/

/-- Puts the scheduled element of the leaf in use on the cell with its id. -/
def switchOne (F : Forest D) (l : Leaf) : Except AdaptError (Forest D) :=
  match l.future with
  | none => .ok F
  | some i => do
    let _ ← F.cell l.id
    return F.modify l.id fun c => { c.mapMarkers Markers.clearFuture with element := i }

/-- Splits an active cell, which is looked up again when it has got its children. -/
def splitOne (F : Forest D) (id : CellId) : Except AdaptError (Forest D) := do
  let l ← F.leaf id
  if l.level < maxLevel then
    let grown := F.append (fanout D) { level := l.level + 1, parent := some id, element := l.element }
    let _ ← grown.1.cell id
    return grown.1.modify id fun c => { c with role := .split grown.2 }
  else
    throw (.topology (.levelExhausted id))

/-- Takes cells out of the forest one after the other, as long as they are live. -/
def takeEach (F : Forest D) : List CellId → Except AdaptError (Forest D × List Cell)
  | [] => .ok (F, [])
  | id :: rest => do
    let c ← F.cell id
    let (G, taken) ← (F.vacate [id]).takeEach rest
    return (G, c :: taken)

/-- Merges a group whose cells are taken out one after the other; then its parent is looked up again. -/
def mergeOne (F : Forest D) (p : CellId) : Except AdaptError (Forest D) := do
  let c ← F.cell p
  let (G, taken) ← F.takeEach c.children
  let _ ← G.cell p
  let element := (taken.map (·.element)).max?.getD c.element
  return G.modify p fun d => { d with element, role := .active {} }

def switchEach (ls : List Leaf) (F : Forest D) (s : ExecutionSummary) : Outcome D ExecutionSummary :=
  runEach (counting switchOne .countSwitch) ls F s

def splitEach (ids : List CellId) (F : Forest D) (s : ExecutionSummary) : Outcome D ExecutionSummary :=
  runEach (counting splitOne .countSplit) ids F s

def joinEach (ps : List CellId) (F : Forest D) (s : ExecutionSummary) : Outcome D ExecutionSummary :=
  runEach (counting mergeOne .countMerge) ps F s

/-- Carries out all markers with every cell looked up in its turn and counted when it is done. -/
def executeInTurn (F : Forest D) (fe : Collection) : Outcome D ExecutionSummary :=
  match F.checkElements fe with
  | .error e => .refuse F e []
  | .ok () =>
    let leaves := F.clean.1.leaves
    let refining := F.clean.1.refining
    let merging := coarsenParents leaves
    let start : ExecutionSummary := ⟨0, 0, 0, F.clean.2⟩
    (Outcome.accept F.clean.1 start (droppedFlagsLog F.clean.2)).andThen fun s cleaned =>
      (cleaned.switchEach leaves s).andThen fun s switched =>
      (switched.splitEach refining s).andThen fun s refined =>
      (refined.joinEach merging s).andThen fun s merged =>
      .accept merged s [s.message]

/-! ### Switching in turn -/

/-- The forest with the scheduled elements in use on the given cells. -/
def switchedOn (F : Forest D) (ids : List CellId) : Forest D :=
  F.mapCells fun id c => if id ∈ ids then c.switchElement else c

theorem cell?_switchedOn : (F.switchedOn ids).cell? j =
    (F.cell? j).map fun c => if j ∈ ids then c.switchElement else c := cell?_mapCells F _ j

theorem switchedOn_nil : F.switchedOn [] = F :=
  eq_of_cell? (size_mapCells _) fun j => by simp [cell?_switchedOn]

theorem switchedOn_leaves : F.switchedOn (F.leaves.map (·.id)) = F.mapCells fun _ => Cell.switchElement := by
  refine eq_of_cell? (by simp [switchedOn]) fun j => ?_
  rw [cell?_switchedOn, cell?_mapCells]
  rcases F.cell?_cases j with dead | ⟨l, hl⟩ | ⟨c, hc, split⟩
  · simp [dead]
  · have listed : j ∈ F.leaves.map (·.id) := List.mem_map.mpr ⟨l, mem_leaves_of_leaf? hl, leaf?_id hl⟩
    simp [listed]
  · simp [hc, Cell.switchElement_of_not_isActive split]

theorem switchElement_of_unscheduled (unscheduled : l.future = none) : l.cell.switchElement = l.cell := by
  obtain ⟨id, level, parent, element, ⟨flag, future⟩⟩ := l
  obtain rfl : future = none := unscheduled
  rfl

theorem switchElement_of_scheduled (scheduled : l.future = some i) :
    l.cell.switchElement = { l.cell.mapMarkers Markers.clearFuture with element := i } := by
  obtain ⟨id, level, parent, element, ⟨flag, future⟩⟩ := l
  obtain rfl : future = some i := scheduled
  rfl

theorem switchOne_eq_ok (hl : F.leaf? l.id = some l) (fresh : l.id ∉ ids) :
    (F.switchedOn ids).switchOne l = .ok (F.switchedOn (ids ++ [l.id])) := by
  have hc : (F.switchedOn ids).cell? l.id = some l.cell := by
    rw [cell?_switchedOn, cell?_of_leaf? hl, Option.map_some, if_neg fresh]
  -- Away from the leaf the two lists agree.
  have away : ∀ {j}, j ≠ l.id → (F.switchedOn (ids ++ [l.id])).cell? j = (F.switchedOn ids).cell? j := fun ne => by
    simp [cell?_switchedOn, ne]
  have here : (F.switchedOn (ids ++ [l.id])).cell? l.id = some l.cell.switchElement := by
    simp [cell?_switchedOn, cell?_of_leaf? hl]
  unfold switchOne
  split
  · next unscheduled =>
    refine congrArg Except.ok (eq_of_cell? (by simp [switchedOn]) fun j => ?_)
    by_cases same : j = l.id
    · rw [same, hc, here, switchElement_of_unscheduled unscheduled]
    · rw [away same]
  · next i scheduled =>
    rw [cell_eq_ok.mpr hc]
    refine congrArg Except.ok (eq_of_cell? (by simp [switchedOn]) fun j => ?_)
    rw [cell?_modify]
    by_cases same : j = l.id
    · rw [if_pos same.symm, same, hc, here, switchElement_of_scheduled scheduled, Option.map_some]
    · rw [if_neg (Ne.symm same), away same]

/-- Leaves are switched one after the other without a refusal, and that comes to switching all cells at once. -/
theorem switchEach_accepts (F : Forest D) (s : ExecutionSummary) : F.switchEach F.leaves s =
    .accept (F.mapCells fun _ => Cell.switchElement)
      { s with pAdapted := s.pAdapted + F.leaves.countP Leaf.switches } [] := by
  have run := stepEach_accepts switchOne F.leaves (F := F)
    (I := fun rest G => ∃ done, F.leaves = done ++ rest ∧ G = F.switchedOn (done.map (·.id))) ?_
    ⟨[], rfl, switchedOn_nil.symm⟩
  · obtain ⟨G, accepted, done, all, rfl⟩ := run
    rw [List.append_nil] at all
    rw [switchEach, runEach_counting, accepted, ← all, switchedOn_leaves, ExecutionSummary.foldl_countSwitch]
    rfl
  · rintro l rest G ⟨done, all, rfl⟩
    have hl : F.leaf? l.id = some l := mem_leaves_iff.mp (by simp [all])
    have fresh : l.id ∉ done.map (·.id) := fun earlier => by
      have distinct := nodup_leaves_ids (F := F)
      rw [all, List.map_append, List.nodup_append] at distinct
      exact distinct.2.2 l.id earlier l.id (by simp) rfl
    refine ⟨_, switchOne_eq_ok hl fresh, done ++ [l], by simp [all], by simp⟩

/-! ### Splitting in turn -/

/-- A cell that gets children stays live. -/
theorem splitOne_eq : F.splitOne id = (F.refineCell id).map Prod.fst := by
  cases asked : F.leaf id with
  | error e => simp [splitOne, refineCell, asked, bind, Except.bind, Except.map]
  | ok l =>
    have hc := cell?_of_leaf? (leaf_eq_ok.mp asked)
    by_cases room : l.level < maxLevel
    · have live : (F.append (fanout D) { level := l.level + 1, parent := some id, element := l.element }).1.cell id =
          .ok l.cell := cell_eq_ok.mpr (cell?_append_eq_some.mpr (Or.inl hc))
      simp [splitOne, refineCell, asked, room, live, bind, Except.bind, pure, Except.pure, Except.map]
    · simp [splitOne, refineCell, asked, room, bind, Except.bind, Except.map, throw, throwThe, MonadExceptOf.throw]

theorem splitEach_eq (ids : List CellId) (F : Forest D) (s : ExecutionSummary) : F.splitEach ids s =
    (F.refineEach ids).andThen fun _ G => .accept G { s with refined := s.refined + ids.length } [] := by
  have steps : splitOne (D := D) = fun F id => (F.refineCell id).map Prod.fst :=
    funext fun _ => funext fun _ => splitOne_eq
  rw [splitEach, runEach_counting, steps, ExecutionSummary.foldl_countSplit]
  rfl

/-! ### Merging in turn -/

/-- No cell lists a child twice, or itself. -/
def ListsApart (F : Forest D) : Prop := ∀ ⦃id c⦄, F.cell? id = some c → c.children.Nodup ∧ id ∉ c.children

theorem Linked.listsApart (h : F.Linked) : F.ListsApart := fun _ _ hc =>
  ⟨h.distinct hc, fun listed => h.ne_of_mem hc listed rfl⟩

theorem takeEach_eq (distinct : ks.Nodup) : F.takeEach ks = (ks.mapM F.cell).map fun taken => (F.vacate ks, taken) := by
  induction ks generalizing F with
  | nil => rfl
  | cons k rest ih =>
    obtain ⟨fresh, distinct⟩ := List.nodup_cons.mp distinct
    cases asked : F.cell k with
    | error e => simp [takeEach, asked, bind, Except.bind, Except.map]
    | ok c =>
      -- Taking one cell out leaves the others where they are.
      have others : rest.mapM (F.vacate [k]).cell = rest.mapM F.cell := mapM_congr_left fun j hj => by
        have ne : j ≠ k := fun same => fresh (same ▸ hj)
        simp [cell, cell?_vacate, ne]
      rw [takeEach, asked, List.mapM_cons, asked]
      show ((F.vacate [k]).takeEach rest >>= _) = _
      rw [ih distinct, others]
      cases rest.mapM F.cell <;> rfl

/-- A group has no cell twice and its parent is not in it, so nothing that was taken out is looked up again. -/
theorem mergeOne_eq (apart : F.ListsApart) : F.mergeOne p = F.mergeChildren p := by
  cases asked : F.cell p with
  | error e => simp [mergeOne, mergeChildren, asked, bind, Except.bind]
  | ok c =>
    have hc := cell_eq_ok.mp asked
    obtain ⟨distinct, outside⟩ := apart hc
    have stays : (F.vacate c.children).cell p = .ok c := by
      rw [cell_eq_ok, cell?_vacate, if_neg outside, hc]
    rw [mergeOne, mergeChildren, asked]
    show (F.takeEach c.children >>= _) = (c.children.mapM F.cell >>= _)
    rw [takeEach_eq distinct]
    cases taken : c.children.mapM F.cell with
    | error e => rfl
    | ok cells =>
      show ((F.vacate c.children).cell p >>= _) = _
      rw [stays]
      rfl

theorem ListsApart.merge (apart : F.ListsApart) (merged : F.mergeChildren p = .ok G) : G.ListsApart := by
  obtain ⟨c, -, merged⟩ := bind_eq_ok.mp merged
  obtain ⟨cells, -, merged⟩ := bind_eq_ok.mp merged
  cases merged
  intro j d hd
  rw [cell?_modify] at hd
  split at hd
  · obtain ⟨b, -, rfl⟩ := Option.map_eq_some_iff.mp hd
    exact ⟨List.nodup_nil, List.not_mem_nil⟩
  · rw [cell?_vacate] at hd
    split at hd
    · cases hd
    · exact apart hd

theorem joinEach_eq (apart : F.ListsApart) (s : ExecutionSummary) : F.joinEach ps s =
    (F.mergeEach ps).andThen fun _ G => .accept G { s with coarsenedGroups := s.coarsenedGroups + ps.length } [] := by
  have steps : stepEach mergeOne ps F = F.mergeEach ps := by
    unfold mergeEach
    induction ps generalizing F with
    | nil => rfl
    | cons p rest ih =>
      rw [stepEach, stepEach, mergeOne_eq apart]
      cases merged : F.mergeChildren p with
      | error e => rfl
      | ok G => exact ih (apart.merge merged)
  rw [joinEach, runEach_counting, steps, ExecutionSummary.foldl_countMerge]

/-! ### The execution in turn -/

/-- Looking every cell up in its turn makes no difference, nor does counting as it goes. -/
theorem Linked.execute_eq_inTurn (h : F.Linked) : F.execute fe = F.executeInTurn fe := by
  rw [Forest.execute, executeInTurn]
  cases F.checkElements fe with
  | error e => rfl
  | ok passed =>
    have linked : (F.switched.refineEach F.clean.1.refining).forest.Linked := h.switched.refineEach _
    refine Outcome.accept_andThen_congr ?_
    simp only [switchEach_accepts, Outcome.accept_nil_andThen, splitEach_eq, Outcome.andThen_accept_andThen]
    refine Outcome.andThen_congr fun _ => Eq.symm ?_
    refine (congrArg (Outcome.andThen · _) (joinEach_eq linked.listsApart _)).trans ?_
    simp only [Outcome.andThen_accept_andThen, Nat.zero_add, refining, List.length_map]
    rfl

/-! ### The first refusal -/

/-- The leaf has the property, and no leaf in an earlier slot has it. -/
structure FirstLeaf (F : Forest D) (q : Leaf → Prop) (l : Leaf) : Prop where
  mem : l ∈ F.leaves
  holds : q l
  first : ∀ m ∈ F.leaves, q m → l.id.slot ≤ m.id.slot

theorem firstLeaf_iff {q : Leaf → Prop} : F.FirstLeaf q l ↔
    ∃ before after, F.leaves = before ++ l :: after ∧ q l ∧ ∀ m ∈ before, ¬q m := by
  have ascending := pairwise_leaves (F := F)
  constructor
  · rintro ⟨mem, holds, first⟩
    obtain ⟨before, after, leaves⟩ := List.append_of_mem mem
    refine ⟨before, after, leaves, holds, fun m hm earlier => ?_⟩
    rw [leaves, List.pairwise_append] at ascending
    have below : m.id.slot < l.id.slot := ascending.2.2 m hm l List.mem_cons_self
    have lowest := first m (by simp [leaves, hm]) earlier
    omega
  · rintro ⟨before, after, leaves, holds, none⟩
    rw [leaves, List.pairwise_append, List.pairwise_cons] at ascending
    refine ⟨by simp [leaves], holds, fun m hm other => ?_⟩
    rw [leaves, List.mem_append, List.mem_cons] at hm
    rcases hm with earlier | rfl | later
    · exact absurd other (none m earlier)
    · exact Nat.le_refl _
    · exact Nat.le_of_lt (ascending.2.1.1 m later)

theorem findSome?_leaves_eq_some {α : Type} {f : Leaf → Option α} {a : α} :
    F.leaves.findSome? f = some a ↔ ∃ l, F.FirstLeaf (fun m => (f m).isSome) l ∧ f l = some a := by
  simp only [List.findSome?_eq_some_iff, firstLeaf_iff, Bool.not_eq_true, Option.isSome_eq_false_iff,
    Option.isNone_iff_eq_none]
  constructor
  · rintro ⟨before, l, after, leaves, here, none⟩
    exact ⟨l, ⟨before, after, leaves, by simp [here], none⟩, here⟩
  · rintro ⟨l, ⟨before, after, leaves, -, none⟩, here⟩
    exact ⟨before, l, after, leaves, here, none⟩

theorem find?_leaves_eq_some {q : Leaf → Bool} : F.leaves.find? q = some l ↔ F.FirstLeaf (fun m => q m) l := by
  simp only [List.find?_eq_some_iff_append, firstLeaf_iff, Bool.not_eq_true, Bool.not_eq_true']
  constructor
  · rintro ⟨holds, before, after, leaves, none⟩
    exact ⟨before, after, leaves, holds, none⟩
  · rintro ⟨before, after, leaves, holds, none⟩
    exact ⟨holds, before, after, leaves, none⟩

/-- The check refuses the first missing index of the first leaf that has one. -/
theorem checkElements_eq_error_iff {e : AdaptError} : F.checkElements fe = .error e ↔
    ∃ l i, F.FirstLeaf (fun m => ∃ j ∈ m.indices, fe.size ≤ j) l ∧ l.Misses fe i ∧
      e = .invalidElement i fe.size := by
  have first : ∀ i, (F.leaves.flatMap Leaf.indices).find? (fun j => !fe.contains j) = some i ↔
      ∃ l, F.FirstLeaf (fun m => ∃ j ∈ m.indices, fe.size ≤ j) l ∧ l.Misses fe i := fun i => by
    rw [List.find?_flatMap]
    simp only [findSome?_leaves_eq_some, Leaf.find?_indices_eq_some, Leaf.find?_indices_isSome]
  have refused : F.checkElements fe = .error e ↔
      ∃ i, (F.leaves.flatMap Leaf.indices).find? (fun j => !fe.contains j) = some i ∧
        e = .invalidElement i fe.size := by
    cases found : (F.leaves.flatMap Leaf.indices).find? fun j => !fe.contains j <;>
      simp [checkElements, found, eq_comm]
  rw [refused]
  constructor
  · rintro ⟨i, found, rfl⟩
    obtain ⟨l, here, missing⟩ := (first i).mp found
    exact ⟨l, i, here, missing, rfl⟩
  · rintro ⟨l, i, here, missing, rfl⟩
    exact ⟨i, (first i).mpr ⟨l, here, missing⟩, rfl⟩

theorem FirstLeaf.imp {q r : Leaf → Prop} (same : ∀ m ∈ F.leaves, (q m ↔ r m)) (first : F.FirstLeaf q l) :
    F.FirstLeaf r l where
  mem := first.mem
  holds := (same l first.mem).mp first.holds
  first := fun m hm holds => first.first m hm ((same m hm).mpr holds)

theorem Linked.find?_exhausted_iff (h : F.Linked) : F.leaves.find? Leaf.exhausted = some l ↔
    F.FirstLeaf (fun m => m.flag = .refine ∧ m.level = maxLevel) l := by
  have same : ∀ m ∈ F.leaves, (m.exhausted = true ↔ m.flag = .refine ∧ m.level = maxLevel) := fun m hm => by
    have bound : m.level ≤ maxLevel := h.level_le (cell?_of_leaf? (mem_leaves_iff.mp hm))
    have full : ¬m.level < maxLevel ↔ m.level = maxLevel := by omega
    rw [Leaf.exhausted, decide_eq_true_eq, full]
  rw [find?_leaves_eq_some]
  exact ⟨.imp same, .imp fun m hm => (same m hm).symm⟩

theorem Linked.execute_eq_error_iff {e : AdaptError} (h : F.Linked) : (F.execute fe).answer = .error e ↔
    (∃ l i, F.FirstLeaf (fun m => ∃ j ∈ m.indices, fe.size ≤ j) l ∧ l.Misses fe i ∧
      e = .invalidElement i fe.size) ∨
    (F.Within fe ∧ ∃ l, F.FirstLeaf (fun m => m.flag = .refine ∧ m.level = maxLevel) l ∧
      e = .topology (.levelExhausted l.id)) := by
  rw [← checkElements_eq_error_iff]
  simp only [← h.find?_exhausted_iff]
  by_cases within : F.Within fe
  · rw [checkElements_eq_ok.mpr within]
    cases exhausted : F.leaves.find? Leaf.exhausted with
    | none =>
      obtain ⟨answer, -⟩ := execute_accepts h within (room_iff.mpr exhausted)
      simp [answer]
    | some l =>
      obtain ⟨-, -, -, -, -, -, -, answer, -⟩ := execute_exhausted h within exhausted
      simp [answer, within, eq_comm]
  · obtain ⟨i, refused⟩ := checkElements_eq_error within
    simp [Forest.execute, refused, Outcome.refuse, within]

/-- No loop of an execution looks up a missing cell, or a split one where it needs an active one: leaves are
switched and groups merged without a refusal, and a split is refused for its level only. A loop that comes to its
end has raised its counter by the number of leaves that switch, of splits, or of merges. -/
structure Unmissed (F : Forest D) : Prop where
  switches : ∀ s, F.clean.1.switchEach F.clean.1.leaves s =
    .accept F.switched { s with pAdapted := s.pAdapted + F.clean.1.leaves.countP Leaf.switches } []
  splits : ∀ s e, (F.switched.splitEach F.clean.1.refining s).answer = .error e →
    ∃ id, e = .topology (.levelExhausted id)
  merges : ∀ R s t, F.switched.splitEach F.clean.1.refining s = .accept R t [] →
    t = { s with refined := s.refined + F.clean.1.refining.length } ∧
    (R.joinEach (coarsenParents F.clean.1.leaves) t).answer =
      .ok { t with coarsenedGroups := t.coarsenedGroups + (coarsenParents F.clean.1.leaves).length }

theorem Linked.unmissed (h : F.Linked) : F.Unmissed := by
  have refining : F.clean.1.refining = F.refining := refining_clean
  cases exhausted : F.leaves.find? Leaf.exhausted with
  | none =>
    obtain ⟨R, G, accepted, linked, merged, -⟩ := h.phases_accept (room_iff.mpr exhausted)
    refine ⟨switchEach_accepts _, fun s e refused => ?_, fun R' s t accepted' => ?_⟩
    · rw [splitEach_eq, refining, accepted] at refused
      cases refused
    · rw [splitEach_eq, refining, accepted, Outcome.accept_nil_andThen] at accepted'
      cases accepted'
      rw [joinEach_eq linked.listsApart, refining]
      exact ⟨rfl, congrArg (fun o => (Outcome.andThen o _).answer) merged⟩
  | some l =>
    obtain ⟨-, -, R, -, -, -, run⟩ := phases_refuse exhausted
    refine ⟨switchEach_accepts _, fun s e refused => ?_, fun R' s t accepted => ?_⟩
    · rw [splitEach_eq, refining, run] at refused
      cases refused
      exact ⟨l.id, rfl⟩
    · rw [splitEach_eq, refining, run] at accepted
      cases accepted

/-- An execution is refused exactly for a foreign element index or for a leaf that can be split no further. The
refusal names the first leaf with such an index, the element in use before the scheduled one; or else the first
leaf that can be split no further. No lookup of its loops fails, and counting in the loops gives the same summary. -/
theorem execute_error_iff (reached : Reachable F) (fe : Collection) :
    ((∃ e, (F.execute fe).answer = .error e) ↔
      (∃ l ∈ F.leaves, ∃ i ∈ l.indices, fe.size ≤ i) ∨ ∃ l ∈ F.leaves, l.flag = .refine ∧ l.level = maxLevel) ∧
    (∀ e, (F.execute fe).answer = .error e ↔
      (∃ l i, F.FirstLeaf (fun m => ∃ j ∈ m.indices, fe.size ≤ j) l ∧ l.Misses fe i ∧
        e = .invalidElement i fe.size) ∨
      (F.Within fe ∧ ∃ l, F.FirstLeaf (fun m => m.flag = .refine ∧ m.level = maxLevel) l ∧
        e = .topology (.levelExhausted l.id))) ∧
    F.execute fe = F.executeInTurn fe ∧ F.Unmissed := by
  have h := reached.linked
  refine ⟨⟨?_, ?_⟩, fun e => h.execute_eq_error_iff, h.execute_eq_inTurn, h.unmissed⟩
  · rintro ⟨e, refused⟩
    rcases h.execute_eq_error_iff.mp refused with ⟨l, i, foreign, -⟩ | ⟨-, l, exhausted, -⟩
    · exact Or.inl ⟨l, foreign.mem, foreign.holds⟩
    · exact Or.inr ⟨l, exhausted.mem, exhausted.holds⟩
  · intro reason
    cases answer : (F.execute fe).answer with
    | error e => exact ⟨e, rfl⟩
    | ok summary =>
      obtain ⟨within, room, -⟩ := (execute_eq_ok_iff h).mp answer
      rcases reason with ⟨l, hl, i, hi, foreign⟩ | ⟨l, hl, flagged, full⟩
      · have := within l hl i hi
        omega
      · have := room l hl flagged
        omega

/-- Three roots, of which the second has a foreign element scheduled and the third has one in use. -/
def foreignTrio : Forest 2 :=
  after ([.addRoot 0, .addRoot 1, .addRoot 5, .setFuture ⟨1⟩ 7] : List (Operation Rat Rat))

theorem foreignTrio_refused : Reachable foreignTrio ∧
    (foreignTrio.execute .twoElements).answer = .error (.invalidElement 7 2) ∧
    foreignTrio.execute .twoElements = foreignTrio.executeInTurn .twoElements ∧
    ((markedDescent 2 255).execute .twoElements).answer = .error (.topology (.levelExhausted ⟨1020⟩)) := by
  have reached : Reachable foreignTrio := .after _
  obtain ⟨-, named, inTurn, -⟩ := execute_error_iff reached .twoElements
  have second : foreignTrio.FirstLeaf (fun m => ∃ j ∈ m.indices, 2 ≤ j) ⟨⟨1⟩, 0, none, 1, ⟨.none, some 7⟩⟩ :=
    ⟨by decide, by decide, by decide⟩
  refine ⟨reached, (named _).mpr (Or.inl ⟨_, 7, second, by decide, rfl⟩), inTurn, ?_⟩
  obtain ⟨parent, first⟩ := markedDescent_first (D := 2) (n := 255) rfl
  have deep : Reachable (markedDescent 2 255) := .after _
  obtain ⟨-, named, -⟩ := execute_error_iff deep .twoElements
  exact (named _).mpr (Or.inr ⟨markedDescent_within (Nat.le_refl _), _, deep.linked.find?_exhausted_iff.mp first, rfl⟩)

end Forest
end HpForest
