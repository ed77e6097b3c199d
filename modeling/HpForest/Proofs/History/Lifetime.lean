import HpForest.Proofs.History.Change

/-! # The life of an id

A call hands out the ids of the slots that it adds to the arena, and no others (`Linked.issues_iff`), so an
id is handed out at most once in a history. A cell lives from then on until an execution merges its group,
and stays where it is in its tree. Afterwards every operation refuses its id as unknown. -/

namespace HpForest

namespace Outcome
variable {D : Nat} {α β : Type} {o : Outcome D α} {f : α → β} {b : β}

theorem map_eq_ok : (o.map f).answer = .ok b ↔ ∃ a, o.answer = .ok a ∧ f a = b := by
  cases answer : o.answer <;> simp [map, answer, Except.map]

theorem ofMarking_eq_ok {F : Forest D} {r : Except AdaptError (Forest D)} {a : Answer}
    (done : (ofMarking F r).answer = .ok a) : a = .done := by
  cases r <;> cases done
  rfl

end Outcome

/-- The cells that an answer names. -/
def Answer.ids : Answer → List CellId
  | cell id => [id]
  | cells ids => ids
  | _ => []

/-- The cell that an operation is about, if it is about one. -/
def Operation.subject? {P N : Type} : Operation P N → Option CellId
  | refineCell id => some id
  | setFlag id _ => some id
  | clearFlag id => some id
  | setFuture id _ => some id
  | clearFuture id => some id
  | setElement id _ => some id
  | _ => none

namespace Forest
variable {D : Nat} {F G H : Forest D} {call : Call} {answer : Answer} {id : CellId} {c d : Cell}

/-! ### Unknown ids -/

/-- The id names no cell, and whatever is asked of the cell it would name is refused. -/
structure Unknown (F : Forest D) (id : CellId) : Prop where
  contains : F.contains id = false
  cell : F.cell id = .error (.unknownCell id)
  siblings : F.siblings id = .error (.unknownCell id)
  intent : F.intent id = .error (.unknownCell id)
  resolution : F.siblingResolution id = .error (.unknownCell id)
  call : ∀ call : Call, call.op.subject? = some id →
    (call.run F).answer = .error (.unknownCell id) ∧ (call.run F).forest = F

theorem cell_of_dead (dead : F.cell? id = none) : F.cell id = .error (.unknownCell id) := by
  simp [cell, dead]

theorem leaf_of_dead (dead : F.cell? id = none) : F.leaf id = .error (.unknownCell id) := by
  simp [leaf, cell_of_dead dead, bind, Except.bind]

theorem run_of_dead {P N : Type} [Scalar P] [Scalar N] [RoundsTo P N] {op : Operation P N}
    (dead : F.cell? id = none) (about : op.subject? = some id) :
    (op.run F).answer = .error (.unknownCell id) ∧ (op.run F).forest = F := by
  have cell := cell_of_dead dead
  have leaf := leaf_of_dead dead
  cases op with
  | refineCell j =>
    cases about
    simp [Operation.run, refineCell, leaf, bind, Except.bind, Outcome.map, Outcome.ofExcept, Outcome.refuse, Except.map]
  | clearFlag j | clearFuture j =>
    cases about
    simp [Operation.run, clearFlag, clearFuture, cell, bind, Except.bind, Outcome.ofMarking, Outcome.ofExcept,
      Outcome.refuse, Except.map]
  | setFlag j | setFuture j | setElement j =>
    cases about
    simp [Operation.run, setFlag, setFuture, setElement, leaf, bind, Except.bind, Outcome.ofMarking,
      Outcome.ofExcept, Outcome.refuse, Except.map]
  | _ => cases about

theorem unknown_of_dead (dead : F.cell? id = none) : Unknown F id where
  contains := by simp [contains, dead]
  cell := cell_of_dead dead
  siblings := by simp [siblings, cell_of_dead dead, bind, Except.bind]
  intent := by simp [intent, cell_of_dead dead, Except.map]
  resolution := by simp [siblingResolution, cell_of_dead dead, bind, Except.bind]
  call call about := run_of_dead dead about

/-! ### Handing out ids -/

/-- The call answers with the id, or a cell of that id lives since the call. No cell is missed by this, since a
call does not remove a cell that it creates (`Linked.exists_cell?_of_new`). -/
def Issues (F : Forest D) (call : Call) (id : CellId) : Prop :=
  (∃ answer, (call.run F).answer = .ok answer ∧ id ∈ answer.ids) ∨
    (F.contains id = false ∧ (call.run F).forest.contains id = true)

/-- A call of the history on the empty forest has handed out the id. -/
def HandedOut (D : Nat) (past : List Call) (id : CellId) : Prop :=
  ∃ before call after, past = before ++ call :: after ∧ Issues (Forest.empty.replay before : Forest D) call id

/-- An answer names new slots, in their order. -/
theorem Linked.ids_eq_block (h : F.Linked) (done : (call.run F).answer = .ok answer) :
    ∃ n, answer.ids = CellId.block F.slots.size n ∧ F.slots.size + n ≤ (call.run F).forest.slots.size := by
  have grows : F.slots.size + 0 ≤ (call.run F).forest.slots.size := (h.continues_run call.op).size_le
  obtain ⟨op⟩ := call
  cases op with
  | addRoot index =>
    cases done
    exact ⟨1, rfl, Nat.le_of_eq (size_append 1 _).symm⟩
  | refineCell id =>
    obtain ⟨ids, refined, rfl⟩ := Outcome.map_eq_ok.mp done
    cases asked : F.refineCell id with
    | error e => simp [asked, Outcome.ofExcept, Outcome.refuse] at refined
    | ok r =>
      obtain ⟨l, -, -, forest, new⟩ := refineCell_eq_ok asked
      have named : r.2 = ids := by simpa [asked, Outcome.ofExcept, Outcome.accept] using refined
      refine ⟨fanout D, named.symm.trans new, ?_⟩
      simp [Call.run, Operation.run, Outcome.map, asked, Outcome.ofExcept, Outcome.accept, forest]
  | clean =>
    cases done
    exact ⟨0, rfl, grows⟩
  | execute | resolve | choose | assign | hpAdapt =>
    obtain ⟨a, -, rfl⟩ := Outcome.map_eq_ok.mp done
    exact ⟨0, rfl, grows⟩
  | setFlag | clearFlag | setFuture | clearFuture | setElement =>
    cases Outcome.ofMarking_eq_ok done
    exact ⟨0, rfl, grows⟩

/-- Every new slot holds a cell. -/
theorem Linked.exists_cell?_of_new (h : F.Linked) (old : F.slots.size ≤ id.slot)
    (new : id.slot < (call.run F).forest.slots.size) : ∃ c, (call.run F).forest.cell? id = some c := by
  obtain ⟨op⟩ := call
  rcases h.run_cases op with ⟨grown, -⟩ | ⟨index, rfl⟩ | ⟨fe, summary, -, -, executed⟩
  · exact grown.exists_cell?_of_new old new
  · have size : (F.addRoot index).1.slots.size = F.slots.size + 1 := size_append 1 _
    exact ⟨_, cell?_append_eq_some.mpr (Or.inr ⟨CellId.mem_block.mpr ⟨old, size ▸ new⟩, rfl⟩)⟩
  · obtain ⟨p, l, hl, flag, listed⟩ := executed.cover old new
    exact ⟨_, executed.child hl flag listed⟩

/-- A call hands out the ids of the slots that it adds. -/
theorem Linked.issues_iff (h : F.Linked) :
    Issues F call id ↔ F.slots.size ≤ id.slot ∧ id.slot < (call.run F).forest.slots.size := by
  constructor
  · rintro (⟨answer, done, named⟩ | ⟨dead, live⟩)
    · obtain ⟨n, ids, grows⟩ := h.ids_eq_block done
      obtain ⟨old, new⟩ := CellId.mem_block.mp (ids ▸ named)
      exact ⟨old, Nat.lt_of_lt_of_le new grows⟩
    · obtain ⟨d, hd⟩ := Option.isSome_iff_exists.mp live
      refine ⟨Nat.le_of_not_lt fun bound => ?_, slot_lt_size hd⟩
      obtain ⟨c, hc, -⟩ := (h.continues_run call.op).old bound hd
      simp [contains, hc] at dead
  · rintro ⟨old, new⟩
    obtain ⟨d, hd⟩ := h.exists_cell?_of_new old new
    exact Or.inr ⟨by simp [contains, cell?_eq_none_of_size_le old], by simp [contains, hd]⟩

/-! ### Histories -/

theorem exists_issues (reached : Reachable F) {calls : List Call} (old : F.slots.size ≤ id.slot)
    (new : id.slot < (F.replay calls).slots.size) :
    ∃ before call after, calls = before ++ call :: after ∧ Issues (F.replay before) call id := by
  induction calls generalizing F with
  | nil => exact absurd new (Nat.not_lt.mpr old)
  | cons call rest ih =>
    -- The id is handed out by the first call after which the arena has its slot.
    by_cases first : id.slot < (call.run F).forest.slots.size
    · exact ⟨[], call, rest, rfl, reached.linked.issues_iff.mpr ⟨old, first⟩⟩
    · obtain ⟨before, later, after, rfl, issues⟩ := ih (.step call.op reached) (Nat.le_of_not_lt first) new
      exact ⟨call :: before, later, after, rfl, issues⟩

/-- The ids handed out so far are those of the slots in the arena. -/
theorem handedOut_iff {past : List Call} :
    HandedOut D past id ↔ id.slot < (Forest.empty.replay past : Forest D).slots.size := by
  constructor
  · rintro ⟨before, call, after, rfl, issues⟩
    have reached : Reachable (Forest.empty.replay before : Forest D) := Reachable.empty.replay before
    have later := (Reachable.step call.op reached).continues_replay after
    rw [replay_append]
    exact Nat.lt_of_lt_of_le (reached.linked.issues_iff.mp issues).2 later.size_le
  · exact exists_issues .empty (Nat.zero_le _)

/-- Only an accepted execution ends the life of a cell, by merging its group. -/
theorem Linked.merged_of_gone (h : F.Linked) (hc : F.cell? id = some c) (gone : (call.run F).forest.cell? id = none) :
    ∃ fe summary, call.op = .execute fe ∧ (call.run F).answer = .ok (.executed summary) ∧
      ∃ l p d, F.leaf? id = some l ∧ l.flag = .coarsen ∧ l.parent = some p ∧ F.cell? p = some d ∧
        (∀ k ∈ d.children, F.coarsens k = true ∧ (call.run F).forest.contains k = false) ∧
        (call.run F).forest.isActive p = true := by
  obtain ⟨op⟩ := call
  rcases h.run_cases op with ⟨grown, -⟩ | ⟨index, rfl⟩ | ⟨fe, summary, op, answer, executed⟩
  · obtain ⟨d, hd⟩ := grown.contains hc
    cases gone.symm.trans hd
  · cases gone.symm.trans (cell?_addRoot_of_live hc)
  · obtain ⟨l, p, hl, flag, parent, merges⟩ := executed.leaf_of_gone h hc gone
    have ⟨d, hd, _, all⟩ := merges
    refine ⟨fe, summary, op, answer, l, p, d, hl, flag, parent, hd, fun k hk => ⟨all k hk, ?_⟩, ?_⟩
    · exact congrArg Option.isSome (executed.gone merges hd hk)
    · exact isActive_of_role (executed.merged merges hd) rfl

/-- In every history an id is handed out once and names one cell, which keeps its level and its parent while
it lives and lives until an execution merges its group; afterwards the id is unknown for good. -/
theorem ids_handed_out_once (past : List Call) : let F : Forest D := Forest.empty.replay past
    (∀ (call : Call) id, Issues F call id → ¬HandedOut D past id ∧ (call.run F).forest.contains id = true) ∧
      (∀ (call : Call) answer, (call.run F).answer = .ok answer → answer.ids.Nodup) ∧
      (∀ id, F.contains id = true → HandedOut D past id) ∧
      (∀ id, HandedOut D past id → F.contains id = false → ∀ future, Unknown (F.replay future) id) ∧
      (∀ future id c d, F.cell? id = some c → (F.replay future).cell? id = some d →
        d.level = c.level ∧ d.parent = c.parent) ∧
      ∀ (call : Call) id, F.contains id = true → (call.run F).forest.contains id = false →
        ∃ fe summary, call.op = .execute fe ∧ (call.run F).answer = .ok (.executed summary) ∧
          ∃ l p d, F.leaf? id = some l ∧ l.flag = .coarsen ∧ l.parent = some p ∧ F.cell? p = some d ∧
            (∀ k ∈ d.children, F.coarsens k = true ∧ (call.run F).forest.contains k = false) ∧
            (call.run F).forest.isActive p = true := by
  intro F
  have reached : Reachable F := Reachable.empty.replay past
  have h := reached.linked
  refine ⟨fun call id issues => ?_, fun call answer done => ?_, fun id live => ?_, fun id issued dead future => ?_,
    fun future id c d hc hd => ?_, fun call id live gone => ?_⟩
  · obtain ⟨old, new⟩ := h.issues_iff.mp issues
    obtain ⟨c, hc⟩ := h.exists_cell?_of_new old new
    exact ⟨fun before => absurd (handedOut_iff.mp before) (Nat.not_lt.mpr old), by simp [contains, hc]⟩
  · obtain ⟨n, ids, -⟩ := h.ids_eq_block done
    exact ids ▸ CellId.nodup_block _ _
  · obtain ⟨c, hc⟩ := Option.isSome_iff_exists.mp live
    exact handedOut_iff.mpr (slot_lt_size hc)
  · have dead : F.cell? id = none := by simpa [contains] using dead
    exact unknown_of_dead ((reached.continues_replay future).dead (handedOut_iff.mp issued) dead)
  · obtain ⟨b, hb, level, parent⟩ := (reached.continues_replay future).old (slot_lt_size hc) hd
    obtain rfl := Option.some.inj (hc.symm.trans hb)
    exact ⟨level.symm, parent.symm⟩
  · obtain ⟨c, hc⟩ := Option.isSome_iff_exists.mp live
    exact h.merged_of_gone hc (by simpa [contains] using gone)

/-- A group is merged after its cells have been handed out. -/
def mergedGroup : List Call := ([.addRoot 0, .refineCell ⟨0⟩, .setFlag ⟨1⟩ .coarsen, .setFlag ⟨2⟩ .coarsen,
  .execute .twoElements] : List (Operation Rat Rat)).map fun op => ⟨op⟩

theorem mergedGroup_unknown : let F : Forest 1 := Forest.empty.replay mergedGroup
    HandedOut 1 mergedGroup ⟨1⟩ ∧ F.contains ⟨1⟩ = false ∧ (∀ future, Unknown (F.replay future) ⟨1⟩) ∧
      ∀ id, Issues F ⟨(.refineCell ⟨0⟩ : Operation Rat Rat)⟩ id → id ≠ ⟨1⟩ := by
  obtain ⟨fresh, -, -, unknown, -⟩ := ids_handed_out_once (D := 1) mergedGroup
  have issued : HandedOut 1 mergedGroup ⟨1⟩ :=
    ⟨[⟨(.addRoot 0 : Operation Rat Rat)⟩], ⟨(.refineCell ⟨0⟩ : Operation Rat Rat)⟩, _, rfl,
      Or.inl ⟨.cells [⟨1⟩, ⟨2⟩], rfl, List.mem_cons_self⟩⟩
  have gone : (Forest.empty.replay mergedGroup : Forest 1).contains ⟨1⟩ = false := by decide +kernel
  refine ⟨issued, gone, unknown ⟨1⟩ issued gone, fun id issues same => ?_⟩
  exact (fresh _ id issues).1 (same ▸ issued)

end Forest
end HpForest
