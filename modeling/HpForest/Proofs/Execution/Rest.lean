import HpForest.Proofs.Choice.Absorption
import HpForest.Proofs.Coarsening.Groups
import HpForest.Proofs.Forest.Refusal
import HpForest.Proofs.Strategy.Mask

/-! # Rest after an execution

An execution uses up all markers (`Executed.atRest`), and a forest at rest stays as it is: a second execution and the
clean-up find no flag and no scheduled element, a decision finds no conflict, and a strategy schedules on flagged
cells only. -/

namespace HpForest

namespace Forest
variable {D : Nat} {F : Forest D} {fe : Collection}

/-! ### Forests at rest stay so -/

namespace AtRest
variable (h : F.AtRest fe)
include h

theorem unscheduled : ∀ l ∈ F.leaves, l.future = none := fun l hl => by rw [Leaf.future, h.bare l hl]

/-- An execution of a forest at rest reports that it did nothing. -/
theorem execute_idle : F.execute fe = .accept F ⟨0, 0, 0, 0⟩ [ExecutionSummary.message ⟨0, 0, 0, 0⟩] := by
  have switched : F.switched = F := switched_eq_self_iff.mpr fun l hl =>
    ⟨h.unscheduled l hl, by simp [strayCoarsen, h.unflagged l hl]⟩
  have adapted : F.leaves.countP Leaf.switches = 0 := List.countP_eq_zero.mpr fun l hl => by
    simp [Leaf.switches, h.target_eq (mem_leaves_iff.mp hl)]
  rw [execute_of_unflagged h.unflagged h.linked h.within, switched, adapted]

theorem decision_idle (d : Decision) : (d.apply F).answer = .ok 0 ∧ (d.apply F).forest = F :=
  h.linked.decision_idle (fun l hl => Markers.conflicted_eq_false_iff.mpr (Or.inl (h.unflagged l hl))) d

/-- A strategy schedules on flagged leaves only. -/
theorem strategy_idle {P N : Type} [Scalar P] [Scalar N] [RoundsTo P N] (s : Strategy P N)
    (fe' : Collection) : (s.apply F fe').forest = F ∧
      ∀ report, (s.apply F fe').answer = .ok report → report = ⟨0, 0⟩ := by
  cases planned : s.plan F fe' with
  | error e =>
    rw [Strategy.apply_of_plan_error planned]
    exact ⟨rfl, nofun⟩
  | ok leaves =>
    have none : leaves = [] := by
      obtain ⟨-, mask, -, rfl⟩ := Strategy.plan_eq_ok.mp planned
      refine List.eq_nil_iff_forall_not_mem.mpr fun l hl => ?_
      obtain ⟨q, -, -, flagged⟩ := mem_qualified.mp hl
      exact flagged (h.unflagged l (mem_of_mem_qualified hl))
    subst none
    obtain ⟨answer, forest⟩ := Strategy.apply_of_plan planned
    refine ⟨forest.trans remark_markOn_nil, fun report accepted => ?_⟩
    exact (Except.ok.inj (answer.symm.trans accepted)).symm

end AtRest

/-- An accepted execution leaves no marker and only elements of the collection. Nothing is left to do for a second
execution, the clean-up, a decision or a strategy: each leaves the forest as it is. -/
theorem execute_settles (reached : Reachable F) {summary : ExecutionSummary}
    (done : (F.execute fe).answer = .ok summary) :
    let G := (F.execute fe).forest
    (∀ l ∈ G.leaves, l.markers.intent = .none ∧ l.element < fe.size) ∧
    (∀ id c, G.cell? id = some c → c.isActive = false → c.flag = .none ∧ c.future = none) ∧
    (G.execute fe).answer = .ok ⟨0, 0, 0, 0⟩ ∧ (G.execute fe).forest = G ∧
    G.clean = (G, 0) ∧ G.forceP.forest = G ∧ G.chooseP.forest = G ∧
    (∀ d : Decision, (d.apply G).answer = .ok 0 ∧ (d.apply G).forest = G) ∧
    ∀ (P N : Type) [Scalar P] [Scalar N] [RoundsTo P N] (s : Strategy P N) (fe' : Collection),
      (s.apply G fe').forest = G ∧ ∀ report, (s.apply G fe').answer = .ok report → report = ⟨0, 0⟩ := by
  intro G
  have h := reached.linked
  obtain ⟨within, executed⟩ := execute_eq_ok h done
  have rest : G.AtRest fe := executed.atRest h within
  have chosen : G.chooseP.forest = G := by
    obtain ⟨-, forest⟩ := chooseP_accepts rest.linked
    obtain ⟨-, accepted, decided⟩ := decision_accepts rest.linked .chooseP
    exact forest.trans (decided.symm.trans (rest.decision_idle .chooseP).2)
  refine ⟨fun l hl => ⟨?_, rest.valid l hl⟩, fun id c hc split => ?_, ?_, ?_, clean_of_unflagged rest.unflagged, ?_,
    chosen, rest.decision_idle, fun P N _ _ _ s fe' => rest.strategy_idle s fe'⟩
  · rw [rest.bare l hl]
    rfl
  · exact ((executed.linked.treelike.split hc split).2.2.2.2 :)
  · rw [rest.execute_idle]
    rfl
  · rw [rest.execute_idle]
    rfl
  · exact (rest.decision_idle .forceP).2

theorem twoGroups_settled : Reachable twoGroups ∧ (∃ l ∈ twoGroups.leaves, l.markers.intent = .hAndP) ∧
    (twoGroups.execute .twoElements).answer = .ok ⟨3, 2, 1, 2⟩ ∧
    let G := (twoGroups.execute .twoElements).forest
    G = ⟨#[some ⟨0, none, 1, .active {}⟩, some ⟨0, none, 0, .split [⟨4⟩, ⟨5⟩]⟩, none, none,
        some ⟨1, some ⟨1⟩, 1, .active {}⟩, some ⟨1, some ⟨1⟩, 1, .split [⟨8⟩, ⟨9⟩]⟩, some ⟨0, none, 0, .active {}⟩,
        some ⟨0, none, 0, .split [⟨10⟩, ⟨11⟩]⟩, some ⟨2, some ⟨5⟩, 1, .active {}⟩, some ⟨2, some ⟨5⟩, 1, .active {}⟩,
        some ⟨1, some ⟨7⟩, 0, .active {}⟩, some ⟨1, some ⟨7⟩, 0, .active {}⟩]⟩ ∧
      (∀ l ∈ G.leaves, l.markers.intent = .none ∧ l.element < Collection.twoElements.size) ∧
      (G.execute .twoElements).answer = .ok ⟨0, 0, 0, 0⟩ ∧ (G.execute .twoElements).forest = G ∧
      G.clean = (G, 0) ∧ G.forceP.forest = G ∧ G.chooseP.forest = G ∧
      ((.flags [] : Strategy Rat Rat).apply G .twoElements).forest = G := by
  have reached : Reachable twoGroups := .after _
  have both : ∃ l ∈ twoGroups.leaves, l.markers.intent = .hAndP := by rw [twoGroups_eq]; decide
  have answer : (twoGroups.execute .twoElements).answer = .ok ⟨3, 2, 1, 2⟩ := by rw [twoGroups_eq]; decide +kernel
  obtain ⟨bare, -, again, same, clean, forced, chosen, -, assigned⟩ := execute_settles reached answer
  refine ⟨reached, both, answer, ?_, bare, again, same, clean, forced, chosen, (assigned Rat Rat (.flags []) _).1⟩
  rw [twoGroups_eq]
  decide +kernel

end Forest
end HpForest
