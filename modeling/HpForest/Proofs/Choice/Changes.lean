import HpForest.Proofs.Choice.Anticipation
import HpForest.Proofs.Choice.ByCell
import HpForest.Proofs.Cycle
import Mathlib.Data.Finset.Card

/-! # What a decision changes

A decision changes conflicted leaves only, and every one of them, so its answer is their number
(`Forest.Linked.decision_answer`). Choosing p changes each in one of its two passes: the single leaves first, and
then, group by group, the leaves whose coarsening is contested. Forcing p differs from it in uneven groups only. -/

namespace HpForest

theorem countP_or {α : Type} {q r : α → Bool} {xs : List α} (apart : ∀ x ∈ xs, ¬(q x = true ∧ r x = true)) :
    xs.countP (fun x => q x || r x) = xs.countP q + xs.countP r := by
  induction xs with
  | nil => rfl
  | cons x rest ih =>
    have tail := ih fun y hy => apart y (by simp [hy])
    have head := apart x (by simp)
    rw [List.countP_cons, List.countP_cons, List.countP_cons, tail]
    cases hq : q x <;> cases hr : r x <;> simp [hq, hr] at head ⊢ <;> omega

/-! ### Conflicted leaves -/

namespace Markers
variable {m : Markers}

theorem flag_of_pureP (h : m.intent = .pureP) : m.flag = .none := by
  obtain ⟨flag, future⟩ := m
  cases flag <;> cases future <;> first | rfl | cases h

theorem future_of_pureH (h : m.intent = .pureH) : m.future = none := by
  obtain ⟨flag, future⟩ := m
  cases flag <;> cases future <;> first | rfl | cases h

end Markers

namespace Leaf
variable {l : Leaf} {p : CellId}

/-- A scheduled leaf whose coarsening depends on its siblings. -/
def contested (l : Leaf) : Bool := l.flag = .coarsen ∧ l.parent.isSome ∧ l.future.isSome

theorem contested_of_group (flag : l.flag = .coarsen) (hp : l.parent = some p) :
    l.contested = l.markers.conflicted := by
  simp [contested, Markers.conflicted, hp, flag, show l.markers.flag = .coarsen from flag, future]

theorem not_contested (single : l.flag = .coarsen → l.parent = none) : l.contested = false := by
  cases hp : l.parent with
  | none => simp [contested, hp]
  | some p =>
    simp [contested, unflagged_of_single single hp]

/-- A conflicted leaf yields by itself, for one of two reasons, or it is contested. -/
theorem conflicted_eq : l.markers.conflicted = (l.yieldsRefine || l.yieldsRootCoarsen || l.contested) := by
  obtain ⟨_, _, parent, _, flag, future⟩ := l
  cases flag <;> cases future <;> cases parent <;> rfl

theorem not_contested_of_yields (yields : (l.yieldsRefine || l.yieldsRootCoarsen) = true) : l.contested = false := by
  refine not_contested fun flag => ?_
  simp only [Bool.or_eq_true, yieldsRefine, yieldsRootCoarsen, flag, decide_eq_true_eq] at yields
  rcases yields with ⟨refines, -⟩ | ⟨-, root, -⟩
  · cases refines
  · exact root

theorem countP_conflicted (ls : List Leaf) : ls.countP (fun l => l.markers.conflicted) =
    ls.countP yieldsRefine + ls.countP yieldsRootCoarsen + ls.countP contested := by
  simp only [conflicted_eq]
  rw [countP_or fun l _ ⟨yields, contested⟩ => by simp [not_contested_of_yields yields] at contested,
    countP_or fun _ _ => not_yields_both]

end Leaf

namespace Forest
variable {D : Nat} {F : Forest D} {id p : CellId} {l : Leaf} {f g : Leaf → Markers}

/-! ### Counting changes -/

/-- The number of leaves of `F` whose markers differ in `G`. -/
def changes (F G : Forest D) : Nat := F.leaves.countP fun l => G.markers? l.id ≠ some l.markers

theorem changes_remark_remark : (F.remark f).changes (F.remark g) = F.leaves.countP fun l => g l ≠ f l := by
  rw [changes, leaves_remark, List.countP_map]
  refine List.countP_congr fun l hl => ?_
  simp [markers?_remark, mem_leaves_iff.mp hl]

theorem changes_remark : F.changes (F.remark g) = F.leaves.countP fun l => g l ≠ l.markers := by
  rw [← changes_remark_remark, F.remark_markers]

theorem Linked.decided_ne_iff (h : F.Linked) (hl : F.leaf? id = some l) (d : Decision) :
    F.decided d l ≠ l.markers ↔ l.markers.conflicted = true := by
  have resolved := resolved_decided h hl d
  rw [← Markers.intent_eq_hAndP]
  constructor
  · exact fun changed => by_contra fun single => changed (resolved.single single)
  · exact fun both same => resolved.intent (same ▸ both)

/-- A decision changes the conflicted leaves. -/
theorem Linked.changes_decided (h : F.Linked) (d : Decision) :
    F.changes (F.remark (F.decided d)) = F.leaves.countP fun l => l.markers.conflicted := by
  rw [changes_remark]
  refine List.countP_congr fun l hl => ?_
  rw [decide_eq_true_iff, h.decided_ne_iff (mem_leaves_iff.mp hl) d]

/-! ### The two passes of a choice -/

theorem singled_ne_iff : singled l ≠ l.markers ↔ (l.yieldsRefine || l.yieldsRootCoarsen) = true := by
  obtain ⟨_, _, parent, _, flag, future⟩ := l
  cases flag <;> cases future <;> cases parent <;>
    simp [singled, Leaf.yieldsRefine, Leaf.yieldsRootCoarsen, Leaf.flag, Leaf.future, Markers.clearFlag]

theorem changes_yieldSingles :
    F.changes F.yieldSingles = F.leaves.countP Leaf.yieldsRefine + F.leaves.countP Leaf.yieldsRootCoarsen := by
  rw [yieldSingles_eq, changes_remark, ← countP_or fun _ _ => Leaf.not_yields_both]
  refine List.countP_congr fun l _ => ?_
  rw [decide_eq_true_iff, singled_ne_iff]

theorem Linked.chosen_ne_singled_iff (h : F.Linked) (hl : F.leaf? id = some l) :
    F.chosen l ≠ singled l ↔ l.contested = true := by
  rcases l.grouped_or_single with ⟨flag, p, hp⟩ | single
  · rw [singled_of_group hp (by simp [flag]), Leaf.contested_of_group flag hp]
    exact h.decided_ne_iff hl .chooseP
  · simp [chosen_of_single single, singled_eq_forced single, Leaf.not_contested single]

theorem Linked.changes_groups (h : F.Linked) :
    F.yieldSingles.changes F.chooseP.forest = F.leaves.countP Leaf.contested := by
  rw [(chooseP_accepts h).2, yieldSingles_eq, changes_remark_remark]
  refine List.countP_congr fun l hl => ?_
  rw [decide_eq_true_iff, h.chosen_ne_singled_iff (mem_leaves_iff.mp hl)]

/-! ### The count of the group pass -/

/-- Whether the id names a contested leaf. -/
def contests (F : Forest D) (id : CellId) : Bool := (F.leaf? id).any Leaf.contested

theorem Linked.verdict_changed (h : F.Linked) : (F.verdict p).changed = (F.childrenOf p).countP F.contests := by
  cases hc : F.cell? p with
  | none => simp [verdict, childrenOf, hc]
  | some c =>
    simp only [verdict, hc, Option.elim_some, childrenOf_eq hc]
    refine List.countP_congr fun k hk => ?_
    rw [markers?_eq, contests]
    cases hl : F.leaf? k with
    | none => rfl
    | some l =>
      have hp : l.parent = some p := h.parent_of_mem hc hk (cell?_of_leaf? hl)
      rw [Option.map_some, Option.any_some, Option.any_some, decide_eq_true_iff]
      rcases l.grouped_or_single with ⟨flag, -⟩ | single
      · rw [← chosen_of_group flag hp, Leaf.contested_of_group flag hp]
        exact h.decided_ne_iff hl .chooseP
      · -- The group is partial, which leaves the markers of a child that is not flagged for coarsening.
        simp [h.resolve_of_single hl hp single, Leaf.not_contested single]

theorem Linked.changedCells_verdicts (h : F.Linked) (ps : List CellId) :
    ResolvedGroup.changedCells (ps.map F.verdict) = (ps.flatMap F.childrenOf).countP F.contests := by
  induction ps with
  | nil => rfl
  | cons p rest ih =>
    rw [List.map_cons, ResolvedGroup.changedCells, ih, h.verdict_changed, List.flatMap_cons, List.countP_append]

/-- Each contested leaf is a child of exactly one parent whose group is resolved. -/
theorem Linked.contested_perm (h : F.Linked) :
    (((coarsenParents F.leaves).flatMap F.childrenOf).filter F.contests).Perm
      ((F.leaves.filter Leaf.contested).map (·.id)) := by
  have parents : (coarsenParents F.leaves).Nodup := nodup_coarsenParents
  have distinct := (h.nodup_flatMap_childrenOf parents).filter F.contests
  have leaves : ((F.leaves.filter Leaf.contested).map (·.id)).Nodup :=
    nodup_leaves_ids.sublist (List.filter_sublist.map _)
  refine (List.perm_ext_iff_of_nodup distinct leaves).mpr fun k => ?_
  rw [mem_ids_filter_leaves, List.mem_filter, contests, Option.any_eq_true]
  refine ⟨And.right, fun ⟨l, hl, contested⟩ => ⟨?_, l, hl, contested⟩⟩
  obtain ⟨flag, grouped, -⟩ := of_decide_eq_true contested
  obtain ⟨p, hp⟩ := Option.isSome_iff_exists.mp grouped
  obtain ⟨c, hc, listed⟩ := h.parent (cell?_of_leaf? hl) hp
  have resolved : p ∈ coarsenParents F.leaves := mem_coarsenParents.mpr ⟨l, mem_leaves_of_leaf? hl, flag, hp⟩
  exact List.mem_flatMap.mpr ⟨p, resolved, mem_childrenOf.mpr ⟨c, hc, listed⟩⟩

theorem Linked.choiceReport_changedCells (h : F.Linked) :
    F.choiceReport.changedCells = F.leaves.countP fun l => l.markers.conflicted := by
  have groups : ResolvedGroup.changedCells ((coarsenParents F.leaves).map F.verdict) =
      F.leaves.countP Leaf.contested := by
    rw [h.changedCells_verdicts, List.countP_eq_length_filter, h.contested_perm.length_eq, List.length_map,
      List.countP_eq_length_filter]
  rw [Leaf.countP_conflicted, ← groups]
  rfl

/-- A decision answers with the number of conflicted leaves. -/
theorem Linked.decision_answer (h : F.Linked) (d : Decision) :
    (d.apply F).answer = .ok (F.leaves.countP fun l => l.markers.conflicted) := by
  cases d with
  | forceP => rfl
  | chooseP =>
    obtain ⟨accepted, -⟩ := chooseP_accepts h
    simp [Decision.apply, Outcome.andThen, accepted, Outcome.accept, h.choiceReport_changedCells]

/-! ### The count of the groups -/

/-- The parents of the leaves that are flagged for coarsening. -/
def flaggedParents (F : Forest D) : Finset CellId :=
  (F.leaves.filterMap fun l => if l.flag = .coarsen then l.parent else none).toFinset

theorem mem_flaggedParents : p ∈ F.flaggedParents ↔ p ∈ coarsenParents F.leaves := by
  rw [flaggedParents, List.mem_toFinset, mem_coarsenParents]
  simp

theorem card_flaggedParents (q : CellId → Prop) [DecidablePred q] :
    (F.flaggedParents.filter q).card = (coarsenParents F.leaves).countP fun p => q p := by
  have listed : F.flaggedParents.filter q = ((coarsenParents F.leaves).filter fun p => q p).toFinset := by
    ext p
    simp [mem_flaggedParents]
  rw [listed, List.toFinset_card_of_nodup (nodup_coarsenParents.filter _), List.countP_eq_length_filter]

theorem countP_verdicts {r : SiblingResolution} {q : CellId → Prop} [DecidablePred q]
    (same : ∀ p, F.resolution p = r ↔ q p) :
    ((coarsenParents F.leaves).map F.verdict).countP (fun g => g.resolution = r) =
      (F.flaggedParents.filter q).card := by
  rw [card_flaggedParents, List.countP_map]
  refine List.countP_congr fun p _ => ?_
  rw [Function.comp_apply, decide_eq_true_iff, decide_eq_true_iff]
  exact same p

/-! ### Exact reports -/

/-- `G` is `F` but for markers that have been taken off its leaves. -/
structure Unmarked (F G : Forest D) : Prop where
  size : G.slots.size = F.slots.size
  inactive : ∀ {id}, F.isActive id = false → G.cell? id = F.cell? id
  leaf : ∀ {id l}, F.leaf? id = some l → ∃ m : Markers, G.leaf? id = some { l with markers := m } ∧
    (m.flag = .none ∨ m.flag = l.flag) ∧ (m.future = none ∨ m.future = l.future)

theorem Linked.unmarked_decision (h : F.Linked) (d : Decision) : Unmarked F (d.apply F).forest := by
  obtain ⟨n, -, forest⟩ := decision_accepts h d
  rw [forest]
  refine ⟨size_remark _, fun inactive => cell?_remark_of_inactive inactive _, fun {id l} hl => ?_⟩
  have resolved := resolved_decided h hl d
  refine ⟨_, leaf?_remark_of_leaf? hl _, ?_⟩
  by_cases both : l.markers.intent = .hAndP
  · rcases resolved.both both with ⟨pureP, future⟩ | ⟨pureH, flag⟩
    · exact ⟨Or.inl (Markers.flag_of_pureP pureP), Or.inr future⟩
    · exact ⟨Or.inr flag, Or.inl (Markers.future_of_pureH pureH)⟩
  · rw [resolved.single both]
    exact ⟨Or.inr rfl, Or.inr rfl⟩

/-- The report of a choice counts the leaves whose markers differ and the groups it resolved. -/
structure ExactReport (F : Forest D) (r : ChoiceReport) : Prop where
  refineFlags : r.refineFlagsCleared = F.leaves.countP fun l => l.flag = .refine ∧ l.future.isSome
  rootFlags : r.rootCoarsenFlagsCleared =
    F.leaves.countP fun l => l.flag = .coarsen ∧ l.parent = none ∧ l.future.isSome
  partialGroups : r.partialGroups = (F.flaggedParents.filter fun p => ¬F.groupCoarsens p).card
  hCoarsenedGroups :
    r.hCoarsenedGroups = (F.flaggedParents.filter fun p => F.groupCoarsens p ∧ ¬F.groupSchedules p).card
  pCoarsenedGroups :
    r.pCoarsenedGroups = (F.flaggedParents.filter fun p => F.groupCoarsens p ∧ F.groupSchedules p).card
  singles : r.refineFlagsCleared + r.rootCoarsenFlagsCleared = F.changes F.yieldSingles
  changedCells : r.changedCells = F.changes F.chooseP.forest
  /-- No leaf is changed in both passes. -/
  passes : r.changedCells = F.changes F.yieldSingles + F.yieldSingles.changes F.chooseP.forest ∧
    ∀ l ∈ F.leaves, F.yieldSingles.markers? l.id = some l.markers ∨
      F.chooseP.forest.markers? l.id = F.yieldSingles.markers? l.id

theorem Linked.changed_once (h : F.Linked) (hl : l ∈ F.leaves) : F.yieldSingles.markers? l.id = some l.markers ∨
    F.chooseP.forest.markers? l.id = F.yieldSingles.markers? l.id := by
  have hl := mem_leaves_iff.mp hl
  rw [(chooseP_accepts h).2, yieldSingles_eq, markers?_remark, markers?_remark, hl, Option.map_some, Option.map_some,
    Option.some.injEq, Option.some.injEq]
  by_contra both
  obtain ⟨first, second⟩ := not_or.mp both
  have contested := (h.chosen_ne_singled_iff hl).mp second
  cases contested.symm.trans (Leaf.not_contested_of_yields (singled_ne_iff.mp first))

theorem Linked.exactReport (h : F.Linked) : F.ExactReport F.choiceReport where
  refineFlags := rfl
  rootFlags := rfl
  partialGroups := countP_verdicts fun _ => resolution_eq_partialGroup_iff
  hCoarsenedGroups := countP_verdicts fun _ => resolution_eq_hCoarsening_iff.trans (by simp [uneven])
  pCoarsenedGroups := countP_verdicts fun _ => resolution_eq_pCoarsening_iff
  singles := changes_yieldSingles.symm
  changedCells := by
    rw [h.choiceReport_changedCells, ← h.changes_decided .chooseP, (chooseP_accepts h).2]
    rfl
  passes := by
    refine ⟨?_, fun l hl => h.changed_once hl⟩
    rw [h.choiceReport_changedCells, Leaf.countP_conflicted, changes_yieldSingles, h.changes_groups]

theorem chooseP_apply : Decision.chooseP.apply F = F.chooseP.map (·.changedCells) := by
  rw [Decision.apply, Outcome.andThen, Outcome.map]
  cases F.chooseP.answer <;> simp [Outcome.accept, Outcome.refuse, Except.map]

/-- On a reachable forest both decisions are accepted, answer with the number of leaves that they change, and do
nothing but take off markers. They are the two procedures, of whose outcomes it does not matter whether the cells are
written at once or one after the other, and the report of choosing p is exact. -/
theorem decisions_count_changes (reached : Reachable F) :
    (∀ d : Decision, (d.apply F).answer = .ok (F.changes (d.apply F).forest) ∧ Unmarked F (d.apply F).forest) ∧
    (Decision.forceP.apply F = F.forceP ∧ F.forceP = F.forcePByCell) ∧
    (Decision.chooseP.apply F = F.chooseP.map (·.changedCells) ∧ F.chooseP = F.choosePByCell) ∧
    ∃ report, F.chooseP.answer = .ok report ∧ F.ExactReport report := by
  have h := reached.linked
  refine ⟨fun d => ⟨?_, h.unmarked_decision d⟩, ⟨rfl, forceP_eq_byCell⟩, ⟨chooseP_apply, h.chooseP_eq_byCell⟩, _,
    (chooseP_accepts h).1, h.exactReport⟩
  obtain ⟨n, -, forest⟩ := decision_accepts h d
  rw [h.decision_answer, forest, h.changes_decided]

theorem twoGroups_changes : Reachable twoGroups ∧ (Decision.forceP.apply twoGroups).answer = .ok 3 ∧
    twoGroups.changes (Decision.forceP.apply twoGroups).forest = 3 ∧
    (Decision.chooseP.apply twoGroups).answer = .ok 3 ∧
    (Decision.chooseP.apply twoGroups).forest = twoGroups.choosePByCell.forest ∧
    ∃ report, twoGroups.chooseP.answer = .ok report ∧ report.refineFlagsCleared = 1 ∧ report.partialGroups = 1 ∧
      report.hCoarsenedGroups = 1 ∧ report.pCoarsenedGroups = 0 ∧ report.rootCoarsenFlagsCleared = 0 ∧
      report.changedCells = 3 ∧ twoGroups.changes twoGroups.yieldSingles = 1 := by
  have reached : Reachable twoGroups := .after _
  obtain ⟨decisions, -, ⟨applied, byCell⟩, report, accepted, exact⟩ := decisions_count_changes reached
  have cleared : (Decision.forceP.apply twoGroups).answer = .ok 3 := by rw [twoGroups_eq]; rfl
  have forced := (decisions .forceP).1
  have chosen : twoGroups.chooseP.forest = twoGroups.remark twoGroups.chosen := (chooseP_accepts reached.linked).2
  have changed : twoGroups.changes twoGroups.chooseP.forest = 3 := by
    rw [chosen, twoGroups_eq]
    decide +kernel
  have three : report.changedCells = 3 := exact.changedCells.trans changed
  refine ⟨reached, cleared, Except.ok.inj (forced.symm.trans cleared), ?_, ?_, report, accepted,
    exact.refineFlags.trans ?_, exact.partialGroups.trans ?_, exact.hCoarsenedGroups.trans ?_,
    exact.pCoarsenedGroups.trans ?_, exact.rootFlags.trans ?_, three, ?_⟩
  · rw [applied, Outcome.map, accepted, ← three]
    rfl
  · rw [applied, ← byCell]
    rfl
  all_goals
    rw [twoGroups_eq]
    decide +kernel

/-! ### The two decisions compared -/

theorem parent_uneven_iff : l.parent.any F.uneven = true ↔ F.CoarsensUnscheduled l := by
  cases hp : l.parent with
  | none => simp [CoarsensUnscheduled, hp]
  | some p => rw [Option.any_some, ← resolution_eq_hCoarsening_iff, resolution_eq_hCoarsening hp]

/-- In an uneven group forcing p takes the flags off the scheduled leaves and choosing p the elements. -/
theorem Linked.decided_of_uneven (h : F.Linked) (hl : F.leaf? id = some l) (scheduled : l.future.isSome = true)
    (uneven : F.CoarsensUnscheduled l) : forced l = ⟨.none, l.future⟩ ∧ F.chosen l = ⟨.coarsen, none⟩ := by
  have merged := parent_uneven_iff.mpr uneven
  obtain ⟨p, hp, group⟩ := Option.any_eq_true _ _ |>.mp merged
  rw [forced_eq, h.chosen_eq hl, if_pos scheduled, if_pos merged]
  have flag : l.markers.flag = .coarsen := h.flag_of_uneven hl hp group
  exact ⟨rfl, by rw [Markers.clearFuture, flag]⟩

theorem Linked.forced_eq_chosen (h : F.Linked) (hl : F.leaf? id = some l)
    (apart : ¬(l.future.isSome = true ∧ F.CoarsensUnscheduled l)) : forced l = F.chosen l := by
  rw [forced_eq, h.chosen_eq hl]
  split
  · next scheduled => rw [if_neg fun uneven => apart ⟨scheduled, parent_uneven_iff.mp uneven⟩]
  · next unscheduled =>
    have none : l.markers.future = none := Option.not_isSome_iff_eq_none.mp unscheduled
    simp [Markers.clearFuture, ← none]

theorem Linked.leaf?_of_uneven (h : F.Linked) (hl : F.leaf? id = some l) (scheduled : l.future.isSome = true)
    (uneven : F.CoarsensUnscheduled l) : (F.remark forced).leaf? id = some { l with markers := ⟨.none, l.future⟩ } ∧
      (F.remark F.chosen).leaf? id = some { l with markers := ⟨.coarsen, none⟩ } := by
  obtain ⟨forced, chosen⟩ := h.decided_of_uneven hl scheduled uneven
  rw [leaf?_remark_of_leaf? hl, leaf?_remark_of_leaf? hl, forced, chosen]
  exact ⟨rfl, rfl⟩

theorem Linked.cell?_forced_eq_chosen (h : F.Linked)
    (apart : ∀ l, F.leaf? id = some l → ¬(l.future.isSome = true ∧ F.CoarsensUnscheduled l)) :
    (F.remark forced).cell? id = (F.remark F.chosen).cell? id := by
  cases hl : F.leaf? id with
  | none =>
    have inactive : F.isActive id = false := by simp [isActive_eq, hl]
    rw [cell?_remark_of_inactive inactive, cell?_remark_of_inactive inactive]
  | some l => rw [cell?_remark_of_leaf? hl, cell?_remark_of_leaf? hl, h.forced_eq_chosen hl (apart l hl)]

/-- Forcing p and choosing p differ in the scheduled leaves of uneven groups, and nowhere else. -/
theorem forceP_chooseP_differ (reached : Reachable F) : let G := F.forceP.forest; let H := F.chooseP.forest
    (∃ n, F.forceP.answer = .ok n) ∧ (∃ report, F.chooseP.answer = .ok report) ∧ G.slots.size = H.slots.size ∧
    (∀ id, G.cell? id ≠ H.cell? id ↔
      ∃ l, F.leaf? id = some l ∧ l.future.isSome = true ∧ F.CoarsensUnscheduled l) ∧
    ∀ id l, F.leaf? id = some l → l.future.isSome = true → F.CoarsensUnscheduled l →
      G.leaf? id = some { l with markers := ⟨.none, l.future⟩ } ∧
        H.leaf? id = some { l with markers := ⟨.coarsen, none⟩ } := by
  intro G H
  have h := reached.linked
  have forced : G = F.remark forced := forceP_forest
  obtain ⟨accepted, (chosen : H = F.remark F.chosen)⟩ := chooseP_accepts h
  rw [forced, chosen]
  refine ⟨⟨_, rfl⟩, ⟨_, accepted⟩, by rw [size_remark, size_remark], fun id => ⟨fun differ => ?_, ?_⟩,
    fun id l => h.leaf?_of_uneven⟩
  · by_contra apart
    exact differ (h.cell?_forced_eq_chosen fun l hl uneven => apart ⟨l, hl, uneven⟩)
  · rintro ⟨l, hl, scheduled, uneven⟩ same
    obtain ⟨inForced, inChosen⟩ := h.leaf?_of_uneven hl scheduled uneven
    rw [leaf?, same, ← leaf?, inChosen] at inForced
    cases inForced

theorem twoGroups_differ : Reachable twoGroups ∧
    twoGroups.forceP.forest.leaf? ⟨2⟩ = some ⟨⟨2⟩, 1, some ⟨0⟩, 0, ⟨.none, some 1⟩⟩ ∧
    twoGroups.chooseP.forest.leaf? ⟨2⟩ = some ⟨⟨2⟩, 1, some ⟨0⟩, 0, ⟨.coarsen, none⟩⟩ ∧
    twoGroups.forceP.forest.cell? ⟨4⟩ = twoGroups.chooseP.forest.cell? ⟨4⟩ := by
  have reached : Reachable twoGroups := .after _
  obtain ⟨-, -, -, differ, leaves⟩ := forceP_chooseP_differ reached
  have hl : twoGroups.leaf? ⟨2⟩ = some ⟨⟨2⟩, 1, some ⟨0⟩, 0, ⟨.coarsen, some 1⟩⟩ := by rw [twoGroups_eq]; rfl
  have hc : twoGroups.cell? ⟨0⟩ = some ⟨0, none, 0, .split [⟨2⟩, ⟨3⟩]⟩ := by rw [twoGroups_eq]; rfl
  have hd : twoGroups.cell? ⟨1⟩ = some ⟨0, none, 0, .split [⟨4⟩, ⟨5⟩]⟩ := by rw [twoGroups_eq]; rfl
  have hm : twoGroups.leaf? ⟨4⟩ = some ⟨⟨4⟩, 1, some ⟨1⟩, 0, ⟨.coarsen, some 1⟩⟩ := by rw [twoGroups_eq]; rfl
  have uneven : twoGroups.CoarsensUnscheduled ⟨⟨2⟩, 1, some ⟨0⟩, 0, ⟨.coarsen, some 1⟩⟩ :=
    ⟨_, _, rfl, hc, by rw [twoGroups_eq]; decide, by rw [twoGroups_eq]; decide⟩
  obtain ⟨forced, chosen⟩ := leaves ⟨2⟩ _ hl rfl uneven
  refine ⟨reached, forced, chosen, not_not.mp fun other => ?_⟩
  obtain ⟨l, hl, -, p, c, hp, hc, all, -⟩ := (differ ⟨4⟩).mp other
  obtain rfl := Option.some.inj (hm.symm.trans hl)
  obtain rfl := Option.some.inj hp
  obtain rfl := Option.some.inj (hd.symm.trans hc)
  exact absurd (all ⟨5⟩ (by decide)) (by rw [twoGroups_eq]; decide)

end Forest
end HpForest
