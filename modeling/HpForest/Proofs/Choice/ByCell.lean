import HpForest.Forest.Marking
import HpForest.Proofs.Decision

/-! # Decisions cell by cell

A decision takes markers off many cells, and it is said as one change of the forest. Here the cells come one after
the other: each is looked up when its turn comes, in the forest as it is by then, and what is done is counted as it
is done (`Forest.forcePByCell`, `Forest.choosePByCell`). The forest, the answer and the log are the same, so no
lookup fails and no counter is off. -/

namespace HpForest

/-- Whether the resolution drops a marker of the cell. A split cell has none. -/
def SiblingResolution.drops (r : SiblingResolution) (c : Cell) : Bool :=
  match r with
  | .hCoarsening => c.future.isSome
  | .partialGroup | .pCoarsening => c.flag = .coarsen ∧ c.future.isSome

namespace ChoiceReport

/-- Counts the leaf if it gives way to p by itself. -/
def countSingle (r : ChoiceReport) (l : Leaf) : ChoiceReport :=
  if l.yieldsRefine then
    { r with refineFlagsCleared := r.refineFlagsCleared + 1, changedCells := r.changedCells + 1 }
  else if l.yieldsRootCoarsen then
    { r with rootCoarsenFlagsCleared := r.rootCoarsenFlagsCleared + 1, changedCells := r.changedCells + 1 }
  else r

/-- Counts a group that has been resolved. -/
def countGroup (r : ChoiceReport) (g : ResolvedGroup) : ChoiceReport :=
  let r := { r with changedCells := r.changedCells + g.changed }
  match g.resolution with
  | .partialGroup => { r with partialGroups := r.partialGroups + 1 }
  | .hCoarsening => { r with hCoarsenedGroups := r.hCoarsenedGroups + 1 }
  | .pCoarsening => { r with pCoarsenedGroups := r.pCoarsenedGroups + 1 }

end ChoiceReport

namespace Forest
variable {D : Nat} {F G : Forest D} {id k p : CellId} {ids ks : List CellId} {c : Cell} {l : Leaf}
  {r : SiblingResolution} {n : Nat} {report : ChoiceReport}

/-! ### The steps -/

/-- Forces p on the cells that are scheduled twice, one after the other. -/
def forcePByCell (F : Forest D) : Outcome D Nat :=
  let targets := (F.leaves.filter fun l => l.markers.conflicted).map (·.id)
  (stepEach clearFlag targets F).andThen fun _ G =>
    .accept G targets.length [⟨.debug, s!"force p over h: cleared {targets.length} h flags"⟩]

/-- Clears the flag of a leaf that gives way to p by itself. -/
def yieldSingle (F : Forest D) (l : Leaf) : Except AdaptError (Forest D) :=
  if l.yieldsRefine ∨ l.yieldsRootCoarsen then F.clearFlag l.id else .ok F

/-- Drops the marker that the resolution does not keep. -/
def dropMarker (F : Forest D) (r : SiblingResolution) (id : CellId) : Except AdaptError (Forest D) :=
  match r with
  | .hCoarsening => F.clearFuture id
  | .partialGroup | .pCoarsening => F.clearFlag id

/-- Resolves a sibling by the markers that it has now. -/
def resolveChild (r : SiblingResolution) (F : Forest D) (changed : Nat) (id : CellId) : Outcome D Nat :=
  .ofExcept F do
    let c ← F.cell id
    if r.drops c then return (← F.dropMarker r id, changed + 1) else return (F, changed)

/-- Resolves a group that has been judged, child by child. -/
def resolveByCell (F : Forest D) (report : ChoiceReport) (judged : CellId × SiblingResolution) :
    Outcome D ChoiceReport :=
  match F.cell judged.1 with
  | .error e => .refuse F e []
  | .ok c =>
    (runEach (resolveChild judged.2) c.children F 0).andThen fun changed G =>
      let group : ResolvedGroup := ⟨judged.1, judged.2, changed⟩
      .accept G (report.countGroup group) [group.message]

/-- Prefers p wherever all related cells ask for it, cell by cell. Every group is judged before any is resolved. -/
def choosePByCell (F : Forest D) : Outcome D ChoiceReport :=
  let leaves := F.leaves
  (runEach (counting yieldSingle .countSingle) leaves F ⟨0, 0, 0, 0, 0, 0⟩).andThen fun report single =>
    match (coarsenParents leaves).mapM fun p => return (p, ← single.siblingResolution p) with
    | .error e => .refuse single e []
    | .ok judged =>
      (runEach resolveByCell judged single report).andThen fun report resolved =>
        .accept resolved report [report.message]

/-! ### Clearing flags in turn -/

theorem clearFlag_eq_ok (hl : F.leaf? id = some l) :
    F.clearFlag id = .ok (F.remark (Leaf.markOn (·.markers.clearFlag) [id])) := by
  rw [clearFlag, cell_eq_ok.mpr (cell?_of_leaf? hl)]
  exact congrArg Except.ok (modify_eq_markOn hl rfl)

/-- Flags are cleared one after the other without a refusal, and that comes to clearing them at once. -/
theorem clearEach_accepts (live : ∀ id ∈ ids, ∃ l, F.leaf? id = some l) :
    stepEach clearFlag ids F = .accept (F.remark (Leaf.markOn (·.markers.clearFlag) ids)) () [] := by
  have run := stepEach_accepts clearFlag ids (F := F)
    (I := fun rest G => ∃ done, ids = done ++ rest ∧ G = F.remark (Leaf.markOn (·.markers.clearFlag) done)) ?_
    ⟨[], rfl, remark_markOn_nil.symm⟩
  · obtain ⟨G, accepted, done, all, rfl⟩ := run
    rw [accepted, all, List.append_nil]
  · rintro id rest G ⟨done, all, rfl⟩
    obtain ⟨l, hl⟩ := live id (by simp [all])
    refine ⟨_, clearFlag_eq_ok (leaf?_remark_of_leaf? hl _), done ++ [id], by simp [all], ?_⟩
    exact remark_markOn_append fun _ => rfl

theorem clearEach_filter (q : Leaf → Bool) : stepEach clearFlag ((F.leaves.filter q).map (·.id)) F =
    .accept (F.remark fun l => if q l then l.markers.clearFlag else l.markers) () [] := by
  rw [clearEach_accepts fun id listed => ?_, remark_markOn_filter]
  obtain ⟨l, hl, -⟩ := mem_ids_filter_leaves.mp listed
  exact ⟨l, hl⟩

theorem forceP_eq_byCell : F.forceP = F.forcePByCell := by
  rw [forcePByCell, clearEach_filter, forceP, List.length_map, ← List.countP_eq_length_filter]
  rfl

theorem yieldEach_accepts : stepEach yieldSingle F.leaves F = .accept F.yieldSingles () [] := by
  have steps : yieldSingle (D := D) = fun F l =>
      if l.yieldsRefine || l.yieldsRootCoarsen then F.clearFlag l.id else .ok F :=
    funext fun F => funext fun l => if_congr Bool.or_eq_true_iff.symm rfl rfl
  rw [steps, ← stepEach_filter, ← stepEach_map, clearEach_filter, yieldSingles]
  simp only [Bool.or_eq_true]

/-! ### Resolving in turn -/

theorem modify_congr {f g : Cell → Cell} (hc : F.cell? id = some c) (same : f c = g c) :
    F.modify id f = F.modify id g := by
  refine eq_of_cell? (by simp) fun j => ?_
  rw [cell?_modify, cell?_modify]
  split
  · next here => rw [← here, hc, Option.map_some, Option.map_some, same]
  · rfl

/-- A marker is dropped where the resolution changes the markers. -/
theorem drops_eq : r.drops c = c.markers?.any fun m => r.resolve m ≠ m := by
  cases hr : c.role with
  | split ks => cases r <;> simp [SiblingResolution.drops, Cell.flag, Cell.future, Cell.markers, Cell.markers?, hr]
  | active m =>
    obtain ⟨flag, future⟩ := m
    cases r <;> cases flag <;> cases future <;>
      simp [SiblingResolution.drops, SiblingResolution.resolve, Markers.clearFlag, Markers.clearFuture, Cell.flag,
        Cell.future, Cell.markers, Cell.markers?, hr]

theorem dropMarker_eq_ok (hc : F.cell? k = some c) (drops : r.drops c = true) :
    F.dropMarker r k = .ok (F.modify k (Cell.mapMarkers r.resolve)) := by
  have resolved {f : Markers → Markers} (same : ∀ m, c.role = .active m → f m = r.resolve m) :
      F.modify k (Cell.mapMarkers f) = F.modify k (Cell.mapMarkers r.resolve) := modify_congr hc <| by
    cases hr : c.role with
    | split ks => simp [Cell.mapMarkers, hr]
    | active m => simp [Cell.mapMarkers, hr, same m hr]
  cases r with
  | hCoarsening =>
    rw [dropMarker, clearFuture, cell_eq_ok.mpr hc]
    exact congrArg Except.ok (resolved fun _ _ => rfl)
  | partialGroup | pCoarsening =>
    rw [dropMarker, clearFlag, cell_eq_ok.mpr hc]
    refine congrArg Except.ok (resolved fun m hr => ?_)
    have asked : m.flag = .coarsen ∧ m.future.isSome := by
      simpa [SiblingResolution.drops, Cell.flag, Cell.future, Cell.markers, Cell.markers?, hr] using drops
    rw [SiblingResolution.resolve, if_pos asked]

theorem resolveChild_eq (hc : F.cell? k = some c) : resolveChild r F n k =
    if r.drops c then .accept (F.modify k (Cell.mapMarkers r.resolve)) (n + 1) [] else .accept F n [] := by
  rw [resolveChild, cell_eq_ok.mpr hc]
  show Outcome.ofExcept F (if r.drops c then _ else _) = _
  cases asked : r.drops c with
  | false => rfl
  | true =>
    rw [if_pos rfl, if_pos rfl, dropMarker_eq_ok hc asked]
    rfl

/-- The children whose markers the resolution changes. -/
def changing (F : Forest D) (r : SiblingResolution) (ks : List CellId) : List CellId :=
  ks.filter fun k => (F.markers? k).any fun m => r.resolve m ≠ m

/-- The children are resolved one after the other without a refusal, and those whose markers change are counted. -/
theorem resolveChildren_eq (distinct : ks.Nodup) (live : ∀ k ∈ ks, ∃ c, F.cell? k = some c) :
    runEach (resolveChild r) ks F n =
      .accept (F.modifyEach (F.changing r ks) (Cell.mapMarkers r.resolve)) (n + (F.changing r ks).length) [] := by
  induction ks generalizing F n with
  | nil => rfl
  | cons k rest ih =>
    obtain ⟨fresh, distinct⟩ := List.nodup_cons.mp distinct
    obtain ⟨c, hc⟩ := live k List.mem_cons_self
    have drops : ((F.markers? k).any fun m => r.resolve m ≠ m) = r.drops c := by
      rw [drops_eq, markers?, hc, Option.bind_some]
    rw [runEach, resolveChild_eq hc]
    cases asked : r.drops c with
    | false =>
      have idle : ¬((F.markers? k).any fun m => r.resolve m ≠ m) = true := by
        rw [drops, asked]
        exact Bool.false_ne_true
      have stays : F.changing r (k :: rest) = F.changing r rest := List.filter_cons_of_neg idle
      rw [stays]
      exact ih distinct fun j hj => live j (List.mem_cons_of_mem k hj)
    | true =>
      have changes : F.changing r (k :: rest) = k :: F.changing r rest := List.filter_cons_of_pos (drops.trans asked)
      -- Writing to one child leaves the others as they are.
      have others : ∀ j ∈ rest, (F.modify k (Cell.mapMarkers r.resolve)).cell? j = F.cell? j := fun j hj => by
        have ne : k ≠ j := fun same => fresh (same ▸ hj)
        rw [cell?_modify, if_neg ne]
      have judged : (F.modify k (Cell.mapMarkers r.resolve)).changing r rest = F.changing r rest :=
        List.filter_congr fun j hj => by rw [markers?, others j hj, markers?]
      have tail := ih (F := F.modify k (Cell.mapMarkers r.resolve)) (n := n + 1) distinct fun j hj => by
        rw [others j hj]
        exact live j (List.mem_cons_of_mem k hj)
      rw [judged, Nat.add_assoc, Nat.add_comm 1] at tail
      rw [changes]
      exact tail

variable (report) in
/-- A group that is resolved at once is so child by child, and then reported and counted. -/
theorem Linked.resolveByCell_eq (h : F.Linked) (applied : F.applyResolution p r = .ok (G, n)) :
    F.resolveByCell report (p, r) =
      .accept G (report.countGroup ⟨p, r, n⟩) [(⟨p, r, n⟩ : ResolvedGroup).message] := by
  obtain ⟨c, asked, applied⟩ := bind_eq_ok.mp applied
  cases applied
  have hc := cell_eq_ok.mp asked
  have run := resolveChildren_eq (r := r) (n := 0) (h.distinct hc) (h.children_live hc)
  rw [Nat.zero_add] at run
  rw [resolveByCell, asked]
  exact congrArg (Outcome.andThen · _) run

theorem SameLinks.applyResolution (applied : F.applyResolution p r = .ok (G, n)) : SameLinks F G := by
  obtain ⟨c, -, applied⟩ := bind_eq_ok.mp applied
  cases applied
  exact .of_modifyEach (by simp) _

/-- Groups that are resolved one at a time may be resolved child by child. -/
theorem Linked.resolveEach_eq (h : F.Linked) {judged : List (CellId × SiblingResolution)} {groups : List ResolvedGroup}
    (resolved : F.resolveGroups judged = .ok (G, groups)) : runEach resolveByCell judged F report =
      .accept G (groups.foldl .countGroup report) (groups.map (·.message)) := by
  induction judged generalizing F groups report with
  | nil =>
    cases resolved
    rfl
  | cons group rest ih =>
    obtain ⟨p, r⟩ := group
    obtain ⟨⟨H, n⟩, applied, resolved⟩ := bind_eq_ok.mp resolved
    obtain ⟨⟨_, tail⟩, later, resolved⟩ := bind_eq_ok.mp resolved
    cases resolved
    have linked : H.Linked := (SameLinks.applyResolution applied).linked h
    rw [runEach, h.resolveByCell_eq report applied]
    exact congrArg (fun o : Outcome D ChoiceReport => { o with log := ResolvedGroup.message ⟨p, r, n⟩ :: o.log })
      (ih linked later)

end Forest

/-! ### Counting in turn -/

namespace ChoiceReport
variable {r : ChoiceReport}

theorem foldl_countSingle (ls : List Leaf) : ls.foldl countSingle r = { r with
    refineFlagsCleared := r.refineFlagsCleared + ls.countP Leaf.yieldsRefine
    rootCoarsenFlagsCleared := r.rootCoarsenFlagsCleared + ls.countP Leaf.yieldsRootCoarsen
    changedCells := r.changedCells + ls.countP Leaf.yieldsRefine + ls.countP Leaf.yieldsRootCoarsen } := by
  induction ls generalizing r with
  | nil => rfl
  | cons l rest ih =>
    have apart := l.not_yields_both
    rw [List.foldl_cons, ih, List.countP_cons, List.countP_cons, countSingle]
    cases refine : l.yieldsRefine <;> cases root : l.yieldsRootCoarsen <;> simp [refine, root] at apart ⊢ <;> omega

theorem foldl_countGroup (groups : List ResolvedGroup) : groups.foldl countGroup r = { r with
    partialGroups := r.partialGroups + groups.countP fun g => g.resolution = .partialGroup
    hCoarsenedGroups := r.hCoarsenedGroups + groups.countP fun g => g.resolution = .hCoarsening
    pCoarsenedGroups := r.pCoarsenedGroups + groups.countP fun g => g.resolution = .pCoarsening
    changedCells := r.changedCells + ResolvedGroup.changedCells groups } := by
  induction groups generalizing r with
  | nil => rfl
  | cons g rest ih =>
    rw [List.foldl_cons, ih, ResolvedGroup.changedCells]
    cases resolution : g.resolution <;> simp [countGroup, resolution] <;> omega

end ChoiceReport

namespace Forest
variable {D : Nat} {F : Forest D}

/-- Choosing p cell by cell makes no difference, nor does counting as it goes. -/
theorem Linked.chooseP_eq_byCell (h : F.Linked) : F.chooseP = F.choosePByCell := by
  have singles (report : ChoiceReport) : runEach (counting yieldSingle .countSingle) F.leaves F report =
      .accept F.yieldSingles (F.leaves.foldl .countSingle report) [] := by
    rw [runEach_counting, yieldEach_accepts]
    rfl
  have linked : F.yieldSingles.Linked := (SameLinks.of_remark singled).linked h
  rw [h.chooseP_eq, choosePByCell]
  simp only [singles, Outcome.accept_nil_andThen, h.judged_yieldSingles,
    linked.resolveEach_eq h.resolveGroups_yieldSingles, ChoiceReport.foldl_countSingle, ChoiceReport.foldl_countGroup,
    Nat.zero_add]
  rfl

end Forest
end HpForest
