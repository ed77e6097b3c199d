import HpForest.Proofs.History

/-! # Cycles

After a cycle every leaf is scheduled for at most one kind of adaptation. A decision leaves alone what
is scheduled once, and drops one of two schedules: the flag, unless the leaf belongs to a sibling group
that is merged because not all of it is scheduled for another element. -/

namespace HpForest

/-! ### Intents -/

namespace Markers
variable {m : Markers}

theorem intent_eq_hAndP : m.intent = .hAndP ↔ m.conflicted = true := by
  obtain ⟨flag, future⟩ := m
  cases flag <;> cases future <;> simp [intent, conflicted]

theorem intent_clearFlag_of_conflicted (h : m.conflicted = true) : m.clearFlag.intent = .pureP := by
  have scheduled := (of_decide_eq_true h).2
  simp [intent, clearFlag, scheduled]

theorem intent_clearFuture_of_conflicted (h : m.conflicted = true) : m.clearFuture.intent = .pureH := by
  have flagged := (of_decide_eq_true h).1
  simp [intent, clearFuture, flagged]

end Markers

theorem IntentCounts.ofList_total (intents : List Intent) : (ofList intents).none + (ofList intents).pureH +
    (ofList intents).pureP + (ofList intents).hAndP = intents.length := by
  simp only [ofList]
  induction intents with
  | nil => rfl
  | cons i rest ih => cases i <;> simp <;> omega

namespace Forest
variable {D : Nat} {F : Forest D} {fe : Collection} {d : Decision} {l : Leaf} {p : CellId}

/-! ### What a decision makes of a leaf -/

/-- The leaf belongs to a sibling group that is flagged for coarsening as a whole and in which not every
cell is scheduled for another element. -/
def CoarsensUnscheduled (F : Forest D) (l : Leaf) : Prop :=
  ∃ p c, l.parent = some p ∧ F.cell? p = some c ∧ (∀ k ∈ c.children, F.coarsens k = true) ∧
    ¬∀ k ∈ c.children, F.schedules k = true

theorem resolution_eq_hCoarsening (hp : l.parent = some p) :
    F.resolution p = .hCoarsening ↔ F.CoarsensUnscheduled l := by
  rw [resolution_eq_hCoarsening_iff]
  cases hc : F.cell? p <;> simp [CoarsensUnscheduled, uneven, groupCoarsens, groupSchedules, hp, hc]

/-- The markers that a decision leaves on a leaf, by what the leaf was scheduled for. -/
structure Resolved (F : Forest D) (d : Decision) (l : Leaf) (m : Markers) : Prop where
  single : l.markers.intent ≠ .hAndP → m = l.markers
  both : l.markers.intent = .hAndP →
    (m.intent = .pureP ∧ m.future = l.future) ∨ (m.intent = .pureH ∧ m.flag = l.flag)
  /-- The flag is kept for a group that is merged, when p is not forced. -/
  keeps : l.markers.intent = .hAndP → (m.intent = .pureH ↔ d = .chooseP ∧ F.CoarsensUnscheduled l)

theorem Resolved.intent {m : Markers} (h : Resolved F d l m) : m.intent ≠ .hAndP := by
  by_cases both : l.markers.intent = .hAndP
  · rcases h.both both with ⟨p, -⟩ | ⟨p, -⟩ <;> simp [p]
  · rwa [h.single both]

theorem Resolved.of_clearFlag (conflicted : l.markers.conflicted = true)
    (free : ¬(d = .chooseP ∧ F.CoarsensUnscheduled l)) : Resolved F d l l.markers.clearFlag := by
  have intent := Markers.intent_clearFlag_of_conflicted conflicted
  have both := Markers.intent_eq_hAndP.mpr conflicted
  exact ⟨fun single => absurd both single, fun _ => Or.inl ⟨intent, rfl⟩,
    fun _ => by simp [intent, free]⟩

theorem Resolved.of_clearFuture (conflicted : l.markers.conflicted = true) (merged : F.CoarsensUnscheduled l) :
    Resolved F .chooseP l l.markers.clearFuture := by
  have intent := Markers.intent_clearFuture_of_conflicted conflicted
  have both := Markers.intent_eq_hAndP.mpr conflicted
  exact ⟨fun single => absurd both single, fun _ => Or.inr ⟨intent, rfl⟩,
    fun _ => by simp [intent, merged]⟩

theorem Resolved.of_single (single : l.markers.conflicted = false) : Resolved F d l l.markers := by
  have one : l.markers.intent ≠ .hAndP := fun both => by
    rw [Markers.intent_eq_hAndP.mp both] at single
    cases single
  exact ⟨fun _ => rfl, fun both => absurd both one, fun both => absurd both one⟩

theorem resolved_forced (free : ¬(d = .chooseP ∧ F.CoarsensUnscheduled l)) : Resolved F d l (forced l) := by
  cases conflicted : l.markers.conflicted with
  | false =>
    rw [forced_of_not_conflicted conflicted]
    exact .of_single conflicted
  | true =>
    rw [forced, if_pos conflicted]
    exact .of_clearFlag conflicted free

theorem resolve_of_not_conflicted {r : SiblingResolution} {m : Markers} (flag : m.flag = .coarsen)
    (single : m.conflicted = false) : r.resolve m = m := by
  obtain ⟨flag', future⟩ := m
  obtain rfl : flag' = .coarsen := flag
  cases future with
  | none => cases r <;> rfl
  | some i => cases single

theorem resolved_resolve (flag : l.flag = .coarsen) (hp : l.parent = some p) :
    Resolved F .chooseP l ((F.resolution p).resolve l.markers) := by
  cases conflicted : l.markers.conflicted with
  | false =>
    rw [resolve_of_not_conflicted flag conflicted]
    exact .of_single conflicted
  | true =>
    have both : l.markers.flag = .coarsen ∧ l.markers.future.isSome = true :=
      ⟨flag, (of_decide_eq_true conflicted).2⟩
    have merges := resolution_eq_hCoarsening (F := F) hp
    cases r : F.resolution p with
    | hCoarsening => exact .of_clearFuture conflicted (merges.mp r)
    | partialGroup | pCoarsening =>
      rw [SiblingResolution.resolve, if_pos both]
      exact .of_clearFlag conflicted fun unscheduled => by
        simp [merges.mpr unscheduled.2] at r

theorem resolved_decided {id : CellId} (h : F.Linked) (hl : F.leaf? id = some l) (d : Decision) :
    Resolved F d l (F.decided d l) := by
  cases d with
  | forceP => exact resolved_forced fun ⟨chosen, _⟩ => by cases chosen
  | chooseP =>
    show Resolved F .chooseP l (F.chosen l)
    unfold chosen
    split
    · next flag parent => exact resolved_resolve flag parent
    · next apart =>
      refine resolved_forced fun ⟨_, p, c, hp, hc, all, _⟩ => ?_
      have listed := (h.mem_children_iff hc (cell?_of_leaf? hl)).mpr hp
      obtain ⟨l', hl', flag⟩ := coarsens_iff.mp (all id listed)
      rw [hl] at hl'
      cases hl'
      exact apart p flag hp

/-- A decision changes nothing where no leaf has both. -/
theorem Linked.remark_decided (h : F.Linked) (single : ∀ l ∈ F.leaves, l.markers.conflicted = false) (d : Decision) :
    F.remark (F.decided d) = F := by
  have same : ∀ l ∈ F.leaves, F.decided d l = l.markers := fun l hl => by
    refine (resolved_decided h (mem_leaves_iff.mp hl) d).single fun both => ?_
    cases (single l hl).symm.trans (Markers.intent_eq_hAndP.mp both)
  exact (remark_congr same).trans F.remark_markers

/-- A decision leaves no leaf with both. -/
theorem Linked.single_of_decided (h : F.Linked) (d : Decision) :
    ∀ l ∈ (F.remark (F.decided d)).leaves, l.markers.conflicted = false := by
  intro m hm
  rw [leaves_remark] at hm
  obtain ⟨l, hl, rfl⟩ := List.mem_map.mp hm
  have resolved := (resolved_decided h (mem_leaves_iff.mp hl) d).intent
  exact Bool.eq_false_iff.mpr (mt Markers.intent_eq_hAndP.mpr resolved)

/-! ### A whole cycle -/

section Cycles
variable {P N : Type} [Scalar P] [Scalar N] [RoundsTo P N] {s : Strategy P N}
  {summary : HpSummary}

theorem hpAdapt_accepts {assigned : AssignmentReport} (h : F.Linked) (applied : (s.apply F fe).answer = .ok assigned) :
    ∃ summary, (F.hpAdapt fe s d).answer = .ok summary := by
  obtain ⟨n, accepted, -⟩ := decision_accepts ((SameLinks.apply s fe).linked h) d
  simp [hpAdapt, Outcome.andThen, applied, accepted, Outcome.accept]

/-- An accepted cycle leaves the decided markers on the forest of its strategy, and counts its intents. -/
theorem hpAdapt_eq_ok (h : F.Linked) (done : (F.hpAdapt fe s d).answer = .ok summary) :
    (F.hpAdapt fe s d).forest = (s.apply F fe).forest.remark ((s.apply F fe).forest.decided d) ∧
      summary.intents = .ofList (F.hpAdapt fe s d).forest.intents := by
  obtain ⟨assigned, -, done, forest⟩ := Outcome.andThen_eq_ok done
  obtain ⟨resolved, -, done, forest'⟩ := Outcome.andThen_eq_ok done
  obtain ⟨n, -, decided⟩ := decision_accepts ((SameLinks.apply s fe).linked h) d
  have result : (F.hpAdapt fe s d).forest = (d.apply (s.apply F fe).forest).forest := forest.trans forest'
  rw [result]
  cases done
  exact ⟨decided, rfl⟩

/-- An accepted cycle leaves no leaf scheduled for both kinds of adaptation, and its counts say so. Each
leaf is as the strategy left it, but for one of the schedules of a leaf that had two. -/
theorem hpAdapt_resolves (reached : Reachable F) (done : (F.hpAdapt fe s d).answer = .ok summary) :
    (∀ l ∈ (F.hpAdapt fe s d).forest.leaves, l.markers.intent ≠ .hAndP) ∧ summary.intents.hAndP = 0 ∧
      summary.intents.none + summary.intents.pureH + summary.intents.pureP =
        (F.hpAdapt fe s d).forest.leaves.length ∧
      ∃ m : Leaf → Markers, (F.hpAdapt fe s d).forest.leaves =
          (s.apply F fe).forest.leaves.map (fun l => { l with markers := m l }) ∧
        ∀ l ∈ (s.apply F fe).forest.leaves, Resolved (s.apply F fe).forest d l (m l) := by
  have h := (SameLinks.apply s fe).linked reached.linked
  obtain ⟨forest, counts⟩ := hpAdapt_eq_ok reached.linked done
  have resolved : ∀ l ∈ (s.apply F fe).forest.leaves,
      Resolved (s.apply F fe).forest d l ((s.apply F fe).forest.decided d l) := fun l hl =>
    resolved_decided h (mem_leaves_iff.mp hl) d
  have leaves := leaves_remark (F := (s.apply F fe).forest) ((s.apply F fe).forest.decided d)
  rw [← forest] at leaves
  have single : ∀ l ∈ (F.hpAdapt fe s d).forest.leaves, l.markers.intent ≠ .hAndP := fun l hl => by
    rw [leaves] at hl
    obtain ⟨before, hbefore, rfl⟩ := List.mem_map.mp hl
    exact (resolved before hbefore).intent
  have none_both : summary.intents.hAndP = 0 := by
    rw [counts]
    refine List.count_eq_zero.mpr fun hmem => ?_
    obtain ⟨l, hl, both⟩ := List.mem_map.mp hmem
    exact single l hl both
  refine ⟨single, none_both, ?_, _, leaves, resolved⟩
  have total := IntentCounts.ofList_total (F.hpAdapt fe s d).forest.intents
  rw [← counts, none_both, Nat.add_zero] at total
  rw [total, intents, List.length_map]

end Cycles

/-- A group flagged for coarsening with one cell scheduled for another element. -/
def unevenPair : Forest 1 := after ([.addRoot 0, .refineCell ⟨0⟩, .setFlag ⟨1⟩ .coarsen, .setFlag ⟨2⟩ .coarsen,
  .setFuture ⟨2⟩ 1] : List (Operation Rat Rat))

theorem unevenPair_resolved : Reachable unevenPair ∧ ∃ summary,
    (unevenPair.hpAdapt .twoElements (.flags [false, false] : Strategy Rat Rat) .chooseP).answer = .ok summary ∧
      summary.intents.hAndP = 0 ∧ summary.intents.none + summary.intents.pureH + summary.intents.pureP =
        (unevenPair.hpAdapt .twoElements (.flags [false, false] : Strategy Rat Rat) .chooseP).forest.leaves.length := by
  have reached : Reachable unevenPair := .after _
  have applied : ((.flags [false, false] : Strategy Rat Rat).apply unevenPair .twoElements).answer = .ok ⟨0, 0⟩ := rfl
  obtain ⟨summary, done⟩ := hpAdapt_accepts (d := .chooseP) reached.linked applied
  obtain ⟨-, none_both, total, -⟩ := hpAdapt_resolves reached done
  exact ⟨reached, summary, done, none_both, total⟩

end Forest
end HpForest
