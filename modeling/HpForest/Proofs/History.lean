import HpForest.History
import HpForest.Proofs.Decision
import HpForest.Proofs.Strategy
import Mathlib.Data.List.Nodup

/-! # Histories

Every operation keeps a forest linked, accepted or refused, also an execution that ends half-way.
Hence every reachable forest is linked, passes `Forest.check`, and its parents lead from each cell to a
root in as many steps as its level says. -/

namespace HpForest

theorem Outcome.andThen_keeps {D : Nat} {α β : Type} {I : Forest D → Prop} {o : Outcome D α}
    {next : α → Forest D → Outcome D β} (h : I o.forest) (keeps : ∀ {a G}, I G → I (next a G).forest) :
    I (o.andThen next).forest := by
  cases answer : o.answer with
  | ok a => simpa [andThen, answer] using keeps h
  | error e => simpa [andThen, answer, refuse] using h

theorem Outcome.andThen_eq_ok {D : Nat} {α β : Type} {o : Outcome D α} {next : α → Forest D → Outcome D β} {b : β}
    (h : (o.andThen next).answer = .ok b) : ∃ a, o.answer = .ok a ∧ (next a o.forest).answer = .ok b ∧
      (o.andThen next).forest = (next a o.forest).forest := by
  cases answer : o.answer with
  | error e => simp [andThen, answer, refuse] at h
  | ok a => exact ⟨a, rfl, by simpa [andThen, answer] using h, by simp [andThen, answer]⟩

namespace Forest
variable {D : Nat} {F G : Forest D} {id k p : CellId} {c : Cell} {fe : Collection}

/-! ### What each operation keeps -/

theorem SameCells.ofMarking {α : Type} {asked : Except AdaptError α} {f : Cell → Cell}
    (keeps : ∀ c, (f c).links = c.links) :
    SameCells F (Outcome.ofMarking F (do let _ ← asked; return F.modify id f)).forest := by
  cases asked with
  | error e => exact refl F
  | ok a => exact of_modify keeps

theorem SameCells.resolve (h : F.Linked) (decision : Decision) : SameCells F (decision.apply F).forest := by
  obtain ⟨n, -, forest⟩ := decision_accepts h decision
  rw [forest]
  exact of_remark _

theorem Linked.refineCell (h : F.Linked) (id : CellId) :
    (Outcome.ofExcept F (F.refineCell id)).forest.Linked := by
  cases refined : F.refineCell id with
  | error e => exact h
  | ok r =>
    obtain ⟨l, hl, room, forest, -⟩ := refineCell_eq_ok refined
    obtain rfl := leaf?_id hl
    show r.1.Linked
    rw [forest]
    exact h.split hl room

theorem Linked.execute (h : F.Linked) (fe : Collection) : (F.execute fe).forest.Linked := by
  rcases execute_ends h fe with ⟨-, -, forest⟩ | ⟨-, linked, -⟩ | ⟨-, -, executed⟩
  · rwa [forest]
  · exact linked
  · exact executed.linked

section Strategies
variable {P N : Type} [Scalar P] [Scalar N] [RoundsTo P N]

theorem SameCells.apply (s : Strategy P N) (fe : Collection) : SameCells F (s.apply F fe).forest := by
  rw [Strategy.apply_forest]
  exact of_remark _

theorem SameLinks.apply (s : Strategy P N) (fe : Collection) : SameLinks F (s.apply F fe).forest :=
  (SameCells.apply s fe).links

theorem SameCells.hpAdapt (h : F.Linked) (fe : Collection) (s : Strategy P N) (decision : Decision) :
    SameCells F (F.hpAdapt fe s decision).forest := by
  refine Outcome.andThen_keeps (I := SameCells F) (apply s fe) fun {_ G} same => ?_
  have resolved := same.trans (resolve (same.links.linked h) decision)
  exact Outcome.andThen_keeps (I := SameCells F) resolved fun same => same

theorem Linked.hpAdapt (h : F.Linked) (fe : Collection) (s : Strategy P N) (decision : Decision) :
    (F.hpAdapt fe s decision).forest.Linked := (SameCells.hpAdapt h fe s decision).links.linked h

/-- Only three kinds of operation touch more of the cells than their markers and elements. -/
theorem SameCells.run (h : F.Linked) (op : Operation P N) : (∃ index, op = .addRoot index) ∨
    (∃ id, op = .refineCell id) ∨ (∃ fe, op = .execute fe) ∨
    ((∀ index, op ≠ .addRoot index) ∧ SameCells F (op.run F).forest) := by
  cases op with
  | addRoot index => exact Or.inl ⟨index, rfl⟩
  | refineCell id => exact Or.inr (Or.inl ⟨id, rfl⟩)
  | execute fe => exact Or.inr (Or.inr (Or.inl ⟨fe, rfl⟩))
  | setElement id index =>
    exact Or.inr (Or.inr (Or.inr ⟨nofun, ofMarking (f := fun c => { c with element := index }) fun _ => rfl⟩))
  | choose =>
    obtain ⟨-, forest⟩ := chooseP_accepts h
    have same : SameCells F F.chooseP.forest := forest ▸ of_remark _
    exact Or.inr (Or.inr (Or.inr ⟨nofun, same⟩))
  | clean => exact Or.inr (Or.inr (Or.inr ⟨nofun, of_remark _⟩))
  | resolve decision => exact Or.inr (Or.inr (Or.inr ⟨nofun, resolve h decision⟩))
  | assign fe strategy => exact Or.inr (Or.inr (Or.inr ⟨nofun, apply strategy fe⟩))
  | hpAdapt fe strategy decision => exact Or.inr (Or.inr (Or.inr ⟨nofun, hpAdapt h fe strategy decision⟩))
  | setFlag | clearFlag | setFuture | clearFuture =>
    exact Or.inr (Or.inr (Or.inr ⟨nofun, ofMarking fun _ => Cell.links_mapMarkers⟩))

/-- Every operation keeps a forest linked, also when it is refused. -/
theorem Linked.run (h : F.Linked) (op : Operation P N) : (op.run F).forest.Linked := by
  rcases SameCells.run h op with ⟨index, rfl⟩ | ⟨id, rfl⟩ | ⟨fe, rfl⟩ | ⟨-, same⟩
  · exact h.addRoot index
  · exact h.refineCell id
  · exact h.execute fe
  · exact same.links.linked h

end Strategies

/-! ### Linked forests are forests -/

/-- The cell that is reached from the given one by following parents. -/
def ancestor? (F : Forest D) : Nat → CellId → Option CellId
  | 0, id => some id
  | n + 1, id => ((F.cell? id).bind (·.parent)).bind (F.ancestor? n)

theorem ancestor?_of_parent {n : Nat} (hc : F.cell? id = some c) (hp : c.parent = some p) :
    F.ancestor? (n + 1) id = F.ancestor? n p := by
  simp [ancestor?, hc, hp]

/-- Parents lead to a root in as many steps as the level of the cell says, and in no other number. -/
theorem Linked.ancestor?_root (h : F.Linked) (hc : F.cell? id = some c) (n : Nat) :
    (∃ r d, F.ancestor? n id = some r ∧ F.cell? r = some d ∧ d.parent = none) ↔ n = c.level := by
  induction n generalizing id c with
  | zero =>
    constructor
    · rintro ⟨r, d, hr, hd, top⟩
      cases hr
      rw [hc] at hd
      cases hd
      exact (h.root hc top).symm
    · intro level
      refine ⟨id, c, rfl, hc, ?_⟩
      cases hp : c.parent with
      | none => rfl
      | some p =>
        obtain ⟨q, -, -, below, -⟩ := h.above hc hp
        omega
  | succ n ih =>
    cases hp : c.parent with
    | none =>
      have level := h.root hc hp
      simp [ancestor?, hc, hp, level]
    | some p =>
      obtain ⟨q, hq, -, below, -⟩ := h.above hc hp
      rw [ancestor?_of_parent hc hp, ih hq, below]
      omega

theorem forM_eq_ok {α : Type} {f : α → Except AdaptError Unit} {xs : List α} (passed : ∀ x ∈ xs, f x = .ok ()) :
    xs.forM f = .ok () := by
  induction xs with
  | nil => rfl
  | cons x rest ih =>
    show (f x >>= fun _ => rest.forM f) = .ok ()
    rw [passed x (by simp)]
    exact ih fun y hy => passed y (by simp [hy])

theorem Linked.checkParent (h : F.Linked) (hc : F.cell? id = some c) : F.checkParent id c = .ok () := by
  unfold Forest.checkParent
  split
  · rfl
  · next p hp =>
    obtain ⟨q, hq, listed⟩ := h.parent hc hp
    simp [hq, listed]

theorem Linked.checkChildren (h : F.Linked) (hc : F.cell? id = some c) : F.checkChildren id c = .ok () := by
  unfold Forest.checkChildren
  split
  · rfl
  · next ks hr =>
    obtain rfl := Cell.children_of_role hr
    rw [if_pos (h.count hc (Cell.not_isActive_of_role hr))]
    refine forM_eq_ok fun k hk => ?_
    obtain ⟨d, hd, parent, below, -⟩ := h.child hc hk
    rw [checkChild, cell_eq_ok.mpr hd]
    show (if d.parent = some id ∧ d.level = c.level + 1 then _ else _) = _
    rw [if_pos ⟨parent, below⟩]
    rfl

theorem Linked.check (h : F.Linked) : F.check = .ok () := by
  refine forM_eq_ok fun ⟨id, c⟩ hmem => ?_
  have hc := mem_cells.mp hmem
  show (F.checkParent id c >>= fun _ => F.checkChildren id c) = _
  rw [h.checkParent hc]
  exact h.checkChildren hc

/-- The live cells form trees of levels up to the maximum, with all markers on the leaves. -/
structure Treelike (F : Forest D) : Prop where
  root : ∀ {id c}, F.cell? id = some c → c.parent = none → c.level = 0
  parent : ∀ {id c p}, F.cell? id = some c → c.parent = some p →
    ∃ q, F.cell? p = some q ∧ q.children.count id = 1 ∧ p.slot < id.slot ∧ c.level = q.level + 1
  split : ∀ {id c}, F.cell? id = some c → c.isActive = false →
    c.children.length = Nat.pow 2 D ∧ c.children.Nodup ∧ (∀ k ∈ c.children, F.contains k = true) ∧
      c.level ≤ 254 ∧ c.flag = .none ∧ c.future = none
  /-- No cell is the child of two cells. -/
  listed : ∀ {p q a b k}, F.cell? p = some a → F.cell? q = some b → k ∈ a.children → k ∈ b.children → p = q
  ancestor : ∀ {id c}, F.cell? id = some c → ∀ n,
    (∃ r d, F.ancestor? n id = some r ∧ F.cell? r = some d ∧ d.parent = none) ↔ n = c.level

theorem Linked.treelike (h : F.Linked) : F.Treelike where
  root := h.root
  parent hc hp := by
    obtain ⟨q, hq, listed, below, older⟩ := h.above hc hp
    exact ⟨q, hq, List.count_eq_one_of_mem (h.distinct hq) listed, older, below⟩
  split {id c} hc split := by
    have live : ∀ k ∈ c.children, F.contains k = true := fun k hk => by
      obtain ⟨d, hd, -⟩ := h.child hc hk
      simp [contains, hd]
    have bare : c.markers = {} := by
      simp [Cell.markers, Cell.markers?, Cell.role_of_not_isActive split]
    have room : c.level ≤ 254 := Nat.le_of_lt_succ (h.level_lt hc split)
    exact ⟨h.count hc split, h.distinct hc, live, room, by rw [Cell.flag, bare], by rw [Cell.future, bare]⟩
  listed := h.eq_of_mem
  ancestor := h.ancestor?_root

end Forest

/-! ### Histories -/

variable {D : Nat} {F : Forest D}

theorem Reachable.linked (h : Reachable F) : F.Linked := by
  induction h with
  | empty => exact .empty
  | step op _ ih => exact ih.run op

theorem Reachable.replay (reached : Reachable F) (calls : List Call) : Reachable (F.replay calls) := by
  induction calls generalizing F with
  | nil => exact reached
  | cons call rest ih => exact ih (.step call.op reached)

theorem Forest.replay_append (F : Forest D) (calls more : List Call) :
    F.replay (calls ++ more) = (F.replay calls).replay more := List.foldl_append

section
variable {P N : Type} [Scalar P] [Scalar N] [RoundsTo P N]

/-- The forest after operations on the empty forest, accepted or refused, that share their number types. -/
def Forest.after (ops : List (Operation P N)) : Forest D := empty.replay (ops.map fun op => ⟨op⟩)

theorem Reachable.after (ops : List (Operation P N)) : Reachable (Forest.after ops : Forest D) :=
  Reachable.empty.replay _

theorem Forest.after_concat (ops : List (Operation P N)) (op : Operation P N) :
    (after (ops ++ [op]) : Forest D) = (op.run (after ops)).forest := by
  rw [after, List.map_append, replay_append]
  rfl

end

/-- Elements of degrees one and two, for forests given as examples. -/
def Collection.twoElements : Collection := ⟨[⟨"FE_Q(1)", 1⟩, ⟨"FE_Q(2)", 2⟩], by simp, by simp⟩

/-- Every reachable forest passes its check and consists of trees, and so does what an execution
leaves. No cell that an execution or a decision looks up is missing or split. -/
theorem reachable_treelike (h : Reachable F) :
    F.check = .ok () ∧ F.Treelike ∧ (∀ fe, (F.execute fe).forest.check = .ok ()) ∧
      (∀ fe e, (F.execute fe).answer = .error e →
        (∃ i, e = .invalidElement i fe.size) ∨ ∃ id, e = .topology (.levelExhausted id)) ∧
      ∀ decision : Decision, ∃ n, (decision.apply F).answer = .ok n := by
  refine ⟨h.linked.check, h.linked.treelike, fun fe => (h.linked.execute fe).check, fun fe e refused => ?_,
    fun decision => ?_⟩
  · rcases Forest.execute_ends h.linked fe with ⟨-, ⟨i, answer⟩, -⟩ | ⟨-, -, l, -, answer⟩ | ⟨-, ⟨_, answer⟩, -⟩
    all_goals
      rw [answer] at refused
      cases refused
    · exact Or.inl ⟨i, rfl⟩
    · exact Or.inr ⟨l.id, rfl⟩
  · obtain ⟨n, answer, -⟩ := Forest.decision_accepts h.linked decision
    exact ⟨n, answer⟩

/-- A root that is split into four cells; the second split of it is refused. -/
def Forest.splitRoot : Forest 2 := after ([.addRoot 0, .refineCell ⟨0⟩, .refineCell ⟨0⟩] : List (Operation Rat Rat))

theorem Forest.splitRoot_treelike : Reachable splitRoot ∧ splitRoot.size = 5 ∧
    splitRoot.check = .ok () ∧ splitRoot.Treelike ∧ ∀ fe, (splitRoot.execute fe).forest.check = .ok () := by
  have reached : Reachable splitRoot := .after _
  obtain ⟨checked, treelike, executed, -⟩ := reachable_treelike reached
  exact ⟨reached, rfl, checked, treelike, executed⟩

end HpForest
