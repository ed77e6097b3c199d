import HpForest.Proofs.Choice.Changes

/-! # Decisions absorb each other

A decision changes conflicted leaves only, those that are scheduled for both kinds of adaptation, and it leaves
none of them. So on what a decision leaves, any decision finds nothing to do: its answer is the number of conflicted
leaves, and choosing p again, though it judges the groups anew that are still flagged, changes none of them. -/

namespace HpForest

namespace Markers
variable {m : Markers}

theorem conflicted_eq_false_iff : m.conflicted = false ↔ m.flag = .none ∨ m.future = none := by
  obtain ⟨flag, future⟩ := m
  cases flag <;> cases future <;> simp [conflicted]

end Markers

theorem Reachable.resolve {D : Nat} {F : Forest D} (reached : Reachable F) (d : Decision) :
    Reachable (d.apply F).forest := .step (.resolve d : Operation Rat Rat) reached

namespace Forest
variable {D : Nat} {F : Forest D}

/-- On a forest without conflict a decision finds nothing to do. -/
theorem Linked.decision_idle (h : F.Linked) (single : ∀ l ∈ F.leaves, l.markers.conflicted = false) (d : Decision) :
    (d.apply F).answer = .ok 0 ∧ (d.apply F).forest = F := by
  obtain ⟨n, -, forest⟩ := decision_accepts h d
  have none : F.leaves.countP (fun l => l.markers.conflicted) = 0 :=
    List.countP_eq_zero.mpr fun l hl => by simp [single l hl]
  exact ⟨(h.decision_answer d).trans (congrArg Except.ok none), forest.trans (h.remark_decided single d)⟩

/-- After a decision neither that decision nor the other one changes any cell, and they count none. The same
holds on every reachable forest on which no leaf has both a flag and a scheduled element. -/
theorem decisions_absorb (reached : Reachable F) :
    (∀ d₁ d₂ : Decision, (∃ n, (d₁.apply F).answer = .ok n) ∧ (d₂.apply (d₁.apply F).forest).answer = .ok 0 ∧
      (d₂.apply (d₁.apply F).forest).forest = (d₁.apply F).forest) ∧
    ((∀ l ∈ F.leaves, l.flag = .none ∨ l.future = none) →
      ∀ d : Decision, (d.apply F).answer = .ok 0 ∧ (d.apply F).forest = F) := by
  have h := reached.linked
  constructor
  · intro d₁ d₂
    obtain ⟨n, answer, forest⟩ := decision_accepts h d₁
    have linked : (d₁.apply F).forest.Linked := (SameCells.resolve h d₁).links.linked h
    have single : ∀ l ∈ (d₁.apply F).forest.leaves, l.markers.conflicted = false := by
      rw [forest]
      exact h.single_of_decided d₁
    exact ⟨⟨n, answer⟩, linked.decision_idle single d₂⟩
  · intro apart d
    exact h.decision_idle (fun l hl => Markers.conflicted_eq_false_iff.mpr (apart l hl)) d

theorem twoGroups_absorbed : Reachable twoGroups ∧ (Decision.forceP.apply twoGroups).answer = .ok 3 ∧
    (∀ d : Decision, (d.apply (Decision.chooseP.apply twoGroups).forest).answer = .ok 0 ∧
      (d.apply (Decision.chooseP.apply twoGroups).forest).forest = (Decision.chooseP.apply twoGroups).forest) ∧
    (∀ l ∈ (Decision.forceP.apply twoGroups).forest.leaves, l.flag = .none ∨ l.future = none) ∧
    ∀ d : Decision, (d.apply (Decision.forceP.apply twoGroups).forest).answer = .ok 0 ∧
      (d.apply (Decision.forceP.apply twoGroups).forest).forest = (Decision.forceP.apply twoGroups).forest := by
  have reached : Reachable twoGroups := .after _
  have forced : Reachable (Decision.forceP.apply twoGroups).forest := reached.resolve .forceP
  have cleared : (Decision.forceP.apply twoGroups).answer = .ok 3 := by
    rw [twoGroups_eq]
    rfl
  have apart : ∀ l ∈ (Decision.forceP.apply twoGroups).forest.leaves, l.flag = .none ∨ l.future = none := by
    rw [twoGroups_eq]
    decide
  exact ⟨reached, cleared, fun d => ((decisions_absorb reached).1 .chooseP d).2, apart,
    (decisions_absorb forced).2 apart⟩

end Forest
end HpForest
