import HpForest.Proofs.History

/-! # Choosing p in any order

Choosing p judges every sibling group before it writes to any. It might as well judge each group when its
turn comes, on the forest as it is rewritten by then, and resolve it at once: the groups may come in any
order, and the single leaves at any point between two of them. Every such run passes through forests of
the form `Forest.chosenIn`, where a group still to come is judged and resolved as it was at the start. -/

namespace HpForest

theorem ResolvedGroup.changedCells_perm {groups groups' : List ResolvedGroup} (perm : groups.Perm groups') :
    changedCells groups = changedCells groups' := by
  induction perm with
  | nil => rfl
  | cons g _ ih => rw [changedCells, changedCells, ih]
  | swap g g' rest => simp only [changedCells, Nat.add_left_comm]
  | trans _ _ ih ih' => exact ih.trans ih'

/-- A report does not depend on the order of the groups. -/
theorem ChoiceReport.ofGroups_perm {refine root : Nat} {groups groups' : List ResolvedGroup}
    (perm : groups.Perm groups') : ofGroups refine root groups = ofGroups refine root groups' := by
  simp only [ofGroups, perm.countP_eq, ResolvedGroup.changedCells_perm perm]

namespace Forest
variable {D : Nat} {F : Forest D} {p : CellId} {c : Cell} {ps first later : List CellId}

/-- Judges a group by the markers that the forest has now, and resolves it at once. -/
def resolveNow (F : Forest D) (p : CellId) : Except AdaptError (Forest D × ResolvedGroup) := do
  let r ← F.siblingResolution p
  let (G, changed) ← F.applyResolution p r
  return (G, ⟨p, r, changed⟩)

/-- Judges and resolves one group after the other. -/
def resolveInTurn (F : Forest D) : List CellId → Except AdaptError (Forest D × List ResolvedGroup)
  | [] => .ok (F, [])
  | p :: rest => do
    let (G, group) ← F.resolveNow p
    let (H, groups) ← G.resolveInTurn rest
    return (H, group :: groups)

/-- Chooses p with every group judged in its turn: some groups, the single leaves, the other groups. -/
def chooseInTurn (F : Forest D) (first later : List CellId) : Except AdaptError (Forest D × ChoiceReport) := do
  let (G, groups) ← F.resolveInTurn first
  let (H, groups') ← G.yieldSingles.resolveInTurn later
  let refine := G.leaves.countP Leaf.yieldsRefine
  let root := G.leaves.countP Leaf.yieldsRootCoarsen
  return (H, .ofGroups refine root (groups ++ groups'))

theorem Linked.resolveNow_chosenIn (h : F.Linked) (singles : Bool) {done : List CellId} (hc : F.cell? p = some c)
    (fresh : p ∉ done) : (F.remark (F.chosenIn singles done)).resolveNow p =
      .ok (F.remark (F.chosenIn singles (done ++ [p])), F.verdict p) := by
  have marks : SameLinks F (F.remark (F.chosenIn singles done)) := .of_remark _
  obtain ⟨d, hd, -⟩ := marks.symm.cell hc
  have judged := siblingResolution_eq_ok (marks.linked h) hd
  rw [h.resolution_chosenIn hc fresh] at judged
  rw [resolveNow, judged]
  show (applyResolution _ _ _ >>= _) = _
  rw [h.applyResolution_chosenIn hc fresh]
  rfl

theorem Linked.resolveInTurn_chosenIn (h : F.Linked) (singles : Bool) (done : List CellId)
    (live : ∀ p ∈ ps, ∃ c, F.cell? p = some c) (distinct : (done ++ ps).Nodup) :
    (F.remark (F.chosenIn singles done)).resolveInTurn ps =
      .ok (F.remark (F.chosenIn singles (done ++ ps)), ps.map F.verdict) := by
  induction ps generalizing done with
  | nil => rw [List.append_nil]; rfl
  | cons p rest ih =>
    obtain ⟨c, hc⟩ := live p (by simp)
    have fresh : p ∉ done := fun hp => (List.nodup_append.mp distinct).2.2 p hp p (by simp) rfl
    have tail := ih (done ++ [p]) (fun q hq => live q (by simp [hq])) (by simpa using distinct)
    rw [resolveInTurn, h.resolveNow_chosenIn singles hc fresh]
    show (resolveInTurn _ _ >>= _) = _
    rw [tail, List.append_assoc]
    rfl

/-- Judging and resolving the groups one at a time, in any order and with the single leaves anywhere
between them, leaves the same forest and gives the same report as judging them all first. -/
theorem chooseInTurn_eq_chooseP (reached : Reachable F) (distinct : (first ++ later).Nodup)
    (all : ∀ p, p ∈ first ++ later ↔ ∃ l ∈ F.leaves, l.flag = .coarsen ∧ l.parent = some p) :
    ∃ report, F.chooseP.answer = .ok report ∧
      F.chooseInTurn first later = .ok (F.chooseP.forest, report) := by
  have h := reached.linked
  have members : ∀ p, p ∈ first ++ later ↔ p ∈ coarsenParents F.leaves := fun p =>
    (all p).trans mem_coarsenParents.symm
  have live : ∀ p ∈ first ++ later, ∃ c, F.cell? p = some c := fun p hp =>
    h.cell?_of_mem_coarsenParents ((members p).mp hp)
  obtain ⟨accepted, forest⟩ := chooseP_accepts h
  have before := h.resolveInTurn_chosenIn false [] (fun p hp => live p (by simp [hp]))
    (List.nodup_append.mp distinct).1
  have after := h.resolveInTurn_chosenIn true first (fun p hp => live p (by simp [hp])) distinct
  rw [remark_chosenIn_nil, List.nil_append] at before
  rw [remark_chosenIn_all fun l hl flag p hp => (all p).mpr ⟨l, hl, flag, hp⟩, ← forest] at after
  have perm : (first.map F.verdict ++ later.map F.verdict).Perm ((coarsenParents F.leaves).map F.verdict) := by
    rw [← List.map_append]
    exact ((List.perm_ext_iff_of_nodup distinct nodup_coarsenParents).mpr members).map _
  refine ⟨F.choiceReport, accepted, ?_⟩
  rw [chooseInTurn, before]
  show (resolveInTurn _ _ >>= _) = _
  rw [yieldSingles_chosenIn, after]
  show Except.ok (_, ChoiceReport.ofGroups _ _ _) = _
  rw [countP_chosenIn fun _ unflagged => Leaf.not_yieldsRefine unflagged,
    countP_chosenIn fun hp _ => Leaf.not_yieldsRootCoarsen hp, ChoiceReport.ofGroups_perm perm]
  rfl

/-- A group that is flagged as a whole and scheduled in part, a group of which one cell is flagged for
coarsening and one for refinement, both scheduled, and a root with either flag. -/
def twoGroups : Forest 1 := after ([.addRoot 0, .addRoot 0, .refineCell ⟨0⟩, .refineCell ⟨1⟩,
  .setFlag ⟨2⟩ .coarsen, .setFlag ⟨3⟩ .coarsen, .setFuture ⟨2⟩ 1, .setFlag ⟨4⟩ .coarsen, .setFuture ⟨4⟩ 1,
  .setFlag ⟨5⟩ .refine, .setFuture ⟨5⟩ 1, .addRoot 0, .setFlag ⟨6⟩ .coarsen, .addRoot 0,
  .setFlag ⟨7⟩ .refine] : List (Operation Rat Rat))

theorem twoGroups_eq : twoGroups = ⟨#[some ⟨0, none, 0, .split [⟨2⟩, ⟨3⟩]⟩, some ⟨0, none, 0, .split [⟨4⟩, ⟨5⟩]⟩,
    some ⟨1, some ⟨0⟩, 0, .active ⟨.coarsen, some 1⟩⟩, some ⟨1, some ⟨0⟩, 0, .active ⟨.coarsen, none⟩⟩,
    some ⟨1, some ⟨1⟩, 0, .active ⟨.coarsen, some 1⟩⟩, some ⟨1, some ⟨1⟩, 0, .active ⟨.refine, some 1⟩⟩,
    some ⟨0, none, 0, .active ⟨.coarsen, none⟩⟩, some ⟨0, none, 0, .active ⟨.refine, none⟩⟩]⟩ := by decide +kernel

theorem twoGroups_within : twoGroups.Within .twoElements := by rw [twoGroups_eq]; decide

theorem twoGroups_room : ∀ l ∈ twoGroups.leaves, l.flag = .refine → l.level < maxLevel := by rw [twoGroups_eq]; decide

theorem twoGroups_inTurn : Reachable twoGroups ∧ twoGroups.chooseP.answer = .ok ⟨1, 1, 1, 0, 0, 3⟩ ∧
    ∃ report, twoGroups.chooseInTurn [⟨1⟩] [⟨0⟩] = .ok (twoGroups.chooseP.forest, report) := by
  have reached : Reachable twoGroups := .after _
  have leaves : twoGroups.leaves = [⟨⟨2⟩, 1, some ⟨0⟩, 0, ⟨.coarsen, some 1⟩⟩, ⟨⟨3⟩, 1, some ⟨0⟩, 0, ⟨.coarsen, none⟩⟩,
    ⟨⟨4⟩, 1, some ⟨1⟩, 0, ⟨.coarsen, some 1⟩⟩, ⟨⟨5⟩, 1, some ⟨1⟩, 0, ⟨.refine, some 1⟩⟩,
    ⟨⟨6⟩, 0, none, 0, ⟨.coarsen, none⟩⟩, ⟨⟨7⟩, 0, none, 0, ⟨.refine, none⟩⟩] := by rw [twoGroups_eq]; rfl
  have all : ∀ p, p ∈ [⟨1⟩] ++ [⟨0⟩] ↔ ∃ l ∈ twoGroups.leaves, l.flag = .coarsen ∧ l.parent = some p := fun p => by
    rw [leaves]
    simp [Leaf.flag, eq_comm, or_comm]
  obtain ⟨report, accepted, inTurn⟩ := chooseInTurn_eq_chooseP reached (by decide) all
  have run : (twoGroups.chooseInTurn [⟨1⟩] [⟨0⟩]).map Prod.snd = .ok ⟨1, 1, 1, 0, 0, 3⟩ := by decide +kernel
  rw [inTurn] at run
  cases run
  exact ⟨reached, accepted, _, inTurn⟩

end Forest
end HpForest
