import HpForest.Decision
import HpForest.Proofs.Forest.Merging

/-! # What a decision does

On a linked forest both decisions are accepted and change nothing but markers. Choosing p leaves each
leaf markers that are chosen from the forest before (`Forest.chosen`). It gets there group by group:
`Forest.chosenIn` says what the leaves carry when some groups are resolved and others are not yet, and
since a cell has one parent, resolving a group changes neither how another is judged nor what is then
written to it. -/

namespace HpForest

namespace Leaf
variable {l : Leaf} {p : CellId}

/-- A leaf is judged with its group if it is flagged for coarsening and is no root, else by itself. -/
theorem grouped_or_single (l : Leaf) :
    (l.flag = .coarsen ∧ ∃ p, l.parent = some p) ∨ (l.flag = .coarsen → l.parent = none) := by
  cases hp : l.parent <;> simp [Classical.em]

theorem unflagged_of_single (single : l.flag = .coarsen → l.parent = none) (hp : l.parent = some p) :
    l.flag ≠ .coarsen := fun flag => by simp [single flag] at hp

theorem not_yieldsRootCoarsen (hp : l.parent = some p) : l.yieldsRootCoarsen = false := by
  simp [yieldsRootCoarsen, hp]

theorem not_yieldsRefine (unflagged : l.flag ≠ .refine) : l.yieldsRefine = false := by
  simp [yieldsRefine, unflagged]

theorem not_yields_both : ¬(l.yieldsRefine = true ∧ l.yieldsRootCoarsen = true) := by
  simp +contextual [yieldsRefine, yieldsRootCoarsen]

end Leaf

namespace Forest
variable {D : Nat} {F G H : Forest D} {id j k p : CellId} {c d : Cell} {l : Leaf} {f g : Leaf → Markers}
  {r : SiblingResolution} {singles : Bool} {ks ps done : List CellId}

/-! ### Judging a group -/

def schedules (F : Forest D) (id : CellId) : Bool := (F.markers? id).any fun m => m.future.isSome

def groupSchedules (F : Forest D) (p : CellId) : Bool := (F.cell? p).any fun c => c.children.all F.schedules

/-- The resolution of a group by the markers of the forest. -/
def resolution (F : Forest D) (p : CellId) : SiblingResolution :=
  match F.groupCoarsens p, F.groupSchedules p with
  | false, _ => .partialGroup
  | true, false => .hCoarsening
  | true, true => .pCoarsening

/-- All children of the cell are active and flagged for coarsening, but not all of them are scheduled for
another element. -/
def uneven (F : Forest D) (p : CellId) : Bool := F.groupCoarsens p && !F.groupSchedules p

theorem resolution_eq_partialGroup_iff : F.resolution p = .partialGroup ↔ ¬F.groupCoarsens p = true := by
  rw [resolution]
  cases F.groupCoarsens p <;> cases F.groupSchedules p <;> simp

theorem resolution_eq_hCoarsening_iff : F.resolution p = .hCoarsening ↔ F.uneven p = true := by
  rw [resolution, uneven]
  cases F.groupCoarsens p <;> cases F.groupSchedules p <;> simp

theorem resolution_eq_pCoarsening_iff :
    F.resolution p = .pCoarsening ↔ F.groupCoarsens p = true ∧ F.groupSchedules p = true := by
  rw [resolution]
  cases F.groupCoarsens p <;> cases F.groupSchedules p <;> simp

theorem all_filterMap_cell? (live : ∀ k ∈ ks, ∃ d, F.cell? k = some d) (q : Markers → Bool) :
    ((ks.filterMap F.cell?).all fun d => d.markers?.any q) = ks.all fun k => (F.markers? k).any q := by
  rw [List.all_filterMap]
  refine Bool.eq_iff_iff.mpr ?_
  simp only [List.all_eq_true]
  refine forall₂_congr fun k hk => ?_
  obtain ⟨d, hd⟩ := live k hk
  simp [markers?, hd]

theorem siblingResolution_eq_ok (h : F.Linked) (hc : F.cell? p = some c) :
    F.siblingResolution p = .ok (F.resolution p) := by
  have live := h.children_live hc
  rw [siblingResolution, cell_eq_ok.mpr hc]
  show (c.children.mapM F.cell >>= _) = _
  rw [mapM_cell live]
  show Except.ok _ = _
  rw [all_filterMap_cell? live, all_filterMap_cell? live, resolution, groupCoarsens, groupSchedules, hc]
  rfl

theorem resolution_of_not_coarsens (hc : F.cell? p = some c) (hk : k ∈ c.children)
    (unflagged : F.coarsens k = false) : F.resolution p = .partialGroup := by
  have group : F.groupCoarsens p = false := by
    rw [groupCoarsens, hc, Option.any_some, List.all_eq_false]
    exact ⟨k, hk, by simp [unflagged]⟩
  rw [resolution, group]

theorem Linked.resolution_of_unflagged (h : F.Linked) (hl : F.leaf? id = some l) (hp : l.parent = some p)
    (unflagged : l.flag ≠ .coarsen) : F.resolution p = .partialGroup := by
  obtain ⟨c, hc, listed⟩ := h.parent (cell?_of_leaf? hl) hp
  exact resolution_of_not_coarsens hc listed (by simp [coarsens_eq, hl, unflagged])

theorem resolution_congr (hc : F.cell? p = some c) (hd : G.cell? p = some d) (children : d.children = c.children)
    (coarsens : ∀ k ∈ c.children, G.coarsens k = F.coarsens k)
    (schedules : ∀ k ∈ c.children, G.schedules k = F.schedules k) : G.resolution p = F.resolution p := by
  have all : ∀ {q r : CellId → Bool}, (∀ k ∈ c.children, r k = q k) → d.children.all r = c.children.all q :=
    fun {q r} same => by
      rw [children, Bool.eq_iff_iff, List.all_eq_true, List.all_eq_true]
      exact forall₂_congr fun k hk => by rw [same k hk]
  have flags : G.groupCoarsens p = F.groupCoarsens p := by
    rw [groupCoarsens, groupCoarsens, hc, hd]
    exact all coarsens
  have futures : G.groupSchedules p = F.groupSchedules p := by
    rw [groupSchedules, groupSchedules, hc, hd]
    exact all schedules
  rw [resolution, resolution, flags, futures]

/-- A group is judged as before when its leaves have kept what is asked about them. -/
theorem Linked.resolution_remark (h : F.Linked) (hc : F.cell? p = some c)
    (flags : ∀ l ∈ F.leaves, l.parent = some p → ((f l).flag = .coarsen ↔ l.flag = .coarsen))
    (futures : ∀ l ∈ F.leaves, l.parent = some p → (f l).future.isSome = l.future.isSome) :
    (F.remark f).resolution p = F.resolution p := by
  obtain ⟨d, hd, -, -, -, children⟩ := (SameLinks.of_remark f).symm.cell hc
  refine resolution_congr hc hd children (fun k hk => ?_) fun k hk => ?_
  · rw [coarsens, markers?_remark, coarsens_eq]
    cases hl : F.leaf? k with
    | none => rfl
    | some l =>
      have parent : l.parent = some p := h.parent_of_mem hc hk (cell?_of_leaf? hl)
      exact decide_eq_decide.mpr (flags l (mem_leaves_of_leaf? hl) parent)
  · rw [schedules, markers?_remark, schedules, markers?_eq]
    cases hl : F.leaf? k with
    | none => rfl
    | some l => exact futures l (mem_leaves_of_leaf? hl) (h.parent_of_mem hc hk (cell?_of_leaf? hl))

/-! ### Resolving a group -/

theorem applyResolution_eq_ok (hc : F.cell? p = some c) (r : SiblingResolution) :
    F.applyResolution p r =
      let changing := c.children.filter fun k => (F.markers? k).any fun m => r.resolve m ≠ m
      .ok (F.modifyEach changing (Cell.mapMarkers r.resolve), changing.length) := by
  rw [applyResolution, cell_eq_ok.mpr hc]
  rfl

theorem cell?_resolved (h : F.Linked) (hc : F.cell? p = some c) (r : SiblingResolution) (j : CellId) :
    (F.modifyEach (c.children.filter fun k => (F.markers? k).any fun m => r.resolve m ≠ m)
        (Cell.mapMarkers r.resolve)).cell? j =
      if j ∈ c.children then (F.cell? j).map (Cell.mapMarkers r.resolve) else F.cell? j := by
  rw [cell?_modifyEach ((h.distinct hc).sublist List.filter_sublist)]
  by_cases child : j ∈ c.children
  · rw [if_pos child]
    split
    · rfl
    · next fixed =>
      -- A child that is left out has markers that the resolution does not change.
      cases hd : F.cell? j with
      | none => rfl
      | some d =>
        refine congrArg some (Cell.mapMarkers_eq_self fun m hm => ?_).symm
        simpa [child, markers?, hd, hm] using fixed
  · rw [if_neg child, if_neg fun changes => child (List.mem_filter.mp changes).1]

/-- Resolving a group rewrites the leaves under its parent, and counts those whose markers change. -/
theorem Linked.applyResolution_remark (h : F.Linked) (hc : F.cell? p = some c)
    (inside : ∀ l ∈ F.leaves, l.parent = some p → r.resolve (f l) = g l)
    (outside : ∀ l ∈ F.leaves, l.parent ≠ some p → f l = g l) : (F.remark f).applyResolution p r =
      .ok (F.remark g, c.children.countP fun k => (F.leaf? k).any fun l => g l ≠ f l) := by
  have linked : (F.remark f).Linked := (SameLinks.of_remark f).linked h
  obtain ⟨d, hd, -, -, -, children⟩ := (SameLinks.of_remark f).symm.cell hc
  have view := cell?_resolved linked hd r
  rw [children] at view
  rw [applyResolution_eq_ok hd, children]
  refine congrArg Except.ok (Prod.ext ?_ ?_)
  · refine eq_remark (by simp) (fun dead => ?_) (fun {id l} hl => ?_) fun hd split => ?_
    · rw [view, cell?_remark_of_none dead, Option.map_none, ite_self]
    · rw [view, cell?_remark_of_leaf? hl]
      by_cases child : id ∈ c.children
      · have parent : l.parent = some p := h.parent_of_mem hc child (cell?_of_leaf? hl)
        rw [if_pos child, ← inside l (mem_leaves_of_leaf? hl) parent]
        rfl
      · have parent : l.parent ≠ some p := fun hp =>
          child ((h.mem_children_iff hc (cell?_of_leaf? hl)).mpr hp)
        rw [if_neg child, outside l (mem_leaves_of_leaf? hl) parent]
    · rw [view, cell?_remark_of_split hd split, Option.map_some, Cell.mapMarkers_of_not_isActive split, ite_self]
  · rw [← List.countP_eq_length_filter]
    refine List.countP_congr fun k hk => ?_
    rw [markers?_remark]
    cases hl : F.leaf? k with
    | none => rfl
    | some l =>
      have parent : l.parent = some p := h.parent_of_mem hc hk (cell?_of_leaf? hl)
      rw [Option.map_some, Option.any_some, Option.any_some, inside l (mem_leaves_of_leaf? hl) parent]

/-! ### The markers that are left -/

def forced (l : Leaf) : Markers := if l.markers.conflicted then l.markers.clearFlag else l.markers

/-- The markers of a leaf after p has been chosen. -/
def chosen (F : Forest D) (l : Leaf) : Markers :=
  match l.flag, l.parent with
  | .coarsen, some p => (F.resolution p).resolve l.markers
  | _, _ => forced l

/-- The markers of a leaf when p has been chosen in the groups of the given parents only, and on the
leaves that are judged by themselves if `singles` holds. -/
def chosenIn (F : Forest D) (singles : Bool) (ps : List CellId) (l : Leaf) : Markers :=
  match l.flag, l.parent with
  | .coarsen, some p => if p ∈ ps then (F.resolution p).resolve l.markers else l.markers
  | _, _ => if singles then forced l else l.markers

def singled (l : Leaf) : Markers :=
  if l.yieldsRefine ∨ l.yieldsRootCoarsen then l.markers.clearFlag else l.markers

theorem forceP_forest : F.forceP.forest = F.remark forced := rfl

theorem yieldSingles_eq : F.yieldSingles = F.remark singled := rfl

theorem resolve_of_unflagged {m : Markers} (unflagged : m.flag ≠ .coarsen) :
    SiblingResolution.partialGroup.resolve m = m := by
  simp [SiblingResolution.resolve, unflagged]

theorem forced_of_not_conflicted (h : l.markers.conflicted = false) : forced l = l.markers := by
  simp [forced, h]

theorem forced_future : (forced l).future = l.future := by
  unfold forced
  split <;> rfl

theorem forced_flag_ne_coarsen (unflagged : l.flag ≠ .coarsen) : (forced l).flag ≠ .coarsen := by
  unfold forced
  split
  · exact nofun
  · exact unflagged

theorem singled_eq_forced (single : l.flag = .coarsen → l.parent = none) : singled l = forced l := by
  cases flag : l.flag with
  | none => simp [singled, forced, Leaf.yieldsRefine, Leaf.yieldsRootCoarsen, Markers.conflicted, flag,
      show l.markers.flag = .none from flag]
  | refine => simp [singled, forced, Leaf.yieldsRefine, Leaf.yieldsRootCoarsen, Markers.conflicted, flag,
      show l.markers.flag = .refine from flag, Leaf.future]
  | coarsen => simp [singled, forced, Leaf.yieldsRefine, Leaf.yieldsRootCoarsen, Markers.conflicted, flag,
      show l.markers.flag = .coarsen from flag, Leaf.future, single flag]

theorem singled_of_group (hp : l.parent = some p) (unflagged : l.flag ≠ .refine) : singled l = l.markers := by
  simp [singled, Leaf.not_yieldsRefine unflagged, Leaf.not_yieldsRootCoarsen hp]

theorem resolve_flag_ne_refine {m : Markers} (flag : m.flag = .coarsen) : (r.resolve m).flag ≠ .refine := by
  cases r <;> simp only [SiblingResolution.resolve]
  case hCoarsening => simp [Markers.clearFuture, flag]
  all_goals split <;> simp [Markers.clearFlag, flag]

theorem chosen_of_group (flag : l.flag = .coarsen) (hp : l.parent = some p) :
    F.chosen l = (F.resolution p).resolve l.markers := by
  simp [chosen, flag, hp]

theorem chosen_of_single (single : l.flag = .coarsen → l.parent = none) : F.chosen l = forced l := by
  unfold chosen
  split
  · next flag parent => simp [single flag] at parent
  · rfl

theorem chosenIn_of_group (flag : l.flag = .coarsen) (hp : l.parent = some p) :
    F.chosenIn singles ps l = if p ∈ ps then (F.resolution p).resolve l.markers else l.markers := by
  simp [chosenIn, flag, hp]

theorem chosenIn_of_single (single : l.flag = .coarsen → l.parent = none) :
    F.chosenIn singles ps l = if singles then forced l else l.markers := by
  unfold chosenIn
  split
  · next flag parent => simp [single flag] at parent
  · rfl

theorem Linked.resolve_of_single (h : F.Linked) (hl : F.leaf? id = some l) (hp : l.parent = some p)
    (single : l.flag = .coarsen → l.parent = none) : (F.resolution p).resolve l.markers = l.markers := by
  have unflagged := Leaf.unflagged_of_single single hp
  rw [h.resolution_of_unflagged hl hp unflagged, resolve_of_unflagged unflagged]

theorem chosenIn_flag_ne_refine (flag : l.flag = .coarsen) (hp : l.parent = some p) :
    (F.chosenIn singles ps l).flag ≠ .refine := by
  rw [chosenIn_of_group flag hp]
  split
  · exact resolve_flag_ne_refine flag
  · exact fun refines => by simp [show l.markers.flag = .coarsen from flag] at refines

/-! ### From group to group -/

theorem remark_chosenIn_nil (F : Forest D) : F.remark (F.chosenIn false []) = F := by
  have untouched : F.chosenIn false [] = Leaf.markers := funext fun l => by
    rcases l.grouped_or_single with ⟨flag, p, hp⟩ | single
    · rw [chosenIn_of_group flag hp, if_neg List.not_mem_nil]
    · rw [chosenIn_of_single single, if_neg Bool.false_ne_true]
  rw [untouched, remark_markers]

theorem remark_chosenIn_all (all : ∀ l ∈ F.leaves, l.flag = .coarsen → ∀ p, l.parent = some p → p ∈ ps) :
    F.remark (F.chosenIn true ps) = F.remark F.chosen := by
  refine remark_congr fun l hl => ?_
  rcases l.grouped_or_single with ⟨flag, p, hp⟩ | single
  · rw [chosenIn_of_group flag hp, if_pos (all l hl flag p hp), chosen_of_group flag hp]
  · rw [chosenIn_of_single single, if_pos rfl, chosen_of_single single]

theorem resolve_chosenIn (h : F.Linked) (hl : F.leaf? id = some l) (hp : l.parent = some p) (fresh : p ∉ done) :
    (F.resolution p).resolve (F.chosenIn singles done l) = F.chosenIn singles (done ++ [p]) l := by
  rcases l.grouped_or_single with ⟨flag, -⟩ | single
  · rw [chosenIn_of_group flag hp, chosenIn_of_group flag hp, if_neg fresh, if_pos (by simp)]
  · have unflagged := Leaf.unflagged_of_single single hp
    rw [h.resolution_of_unflagged hl hp unflagged, chosenIn_of_single single, chosenIn_of_single single]
    refine resolve_of_unflagged ?_
    split
    · exact forced_flag_ne_coarsen unflagged
    · exact unflagged

theorem chosenIn_concat_of_ne (ne : l.parent ≠ some p) :
    F.chosenIn singles (done ++ [p]) l = F.chosenIn singles done l := by
  rcases l.grouped_or_single with ⟨flag, q, hq⟩ | single
  · have other : q ≠ p := fun same => ne (same ▸ hq)
    simp [chosenIn_of_group flag hq, other]
  · rw [chosenIn_of_single single, chosenIn_of_single single]

theorem chosenIn_concat_ne_iff (h : F.Linked) (hl : F.leaf? id = some l) (hp : l.parent = some p)
    (fresh : p ∉ done) : F.chosenIn singles (done ++ [p]) l ≠ F.chosenIn singles done l ↔
      (F.resolution p).resolve l.markers ≠ l.markers := by
  rcases l.grouped_or_single with ⟨flag, -⟩ | single
  · rw [chosenIn_of_group flag hp, chosenIn_of_group flag hp, if_neg fresh, if_pos (by simp)]
  · rw [h.resolve_of_single hl hp single, chosenIn_of_single single, chosenIn_of_single single]
    exact ⟨fun ne => absurd rfl ne, fun ne => absurd rfl ne⟩

/-- A group that is not yet resolved is judged as at the start. -/
theorem Linked.resolution_chosenIn (h : F.Linked) (hc : F.cell? p = some c) (fresh : p ∉ done) :
    (F.remark (F.chosenIn singles done)).resolution p = F.resolution p := by
  refine h.resolution_remark hc (fun l _ hp => ?_) fun l _ hp => ?_ <;>
    rcases l.grouped_or_single with ⟨flag, -⟩ | single
  · rw [chosenIn_of_group flag hp, if_neg fresh, Leaf.flag]
  · have unflagged := Leaf.unflagged_of_single single hp
    rw [chosenIn_of_single single]
    split
    · simp [forced_flag_ne_coarsen unflagged, unflagged]
    · exact Iff.rfl
  · rw [chosenIn_of_group flag hp, if_neg fresh, Leaf.future]
  · rw [chosenIn_of_single single]
    split
    · rw [forced_future]
    · rfl

/-- How a group is resolved, by the markers of the forest. -/
def verdict (F : Forest D) (p : CellId) : ResolvedGroup :=
  let changes := fun k => (F.markers? k).any fun m => (F.resolution p).resolve m ≠ m
  ⟨p, F.resolution p, (F.cell? p).elim 0 fun c => c.children.countP changes⟩

/-- Resolving one group more is the same whichever groups are resolved already. -/
theorem Linked.applyResolution_chosenIn (h : F.Linked) (hc : F.cell? p = some c) (fresh : p ∉ done) :
    (F.remark (F.chosenIn singles done)).applyResolution p (F.resolution p) =
      .ok (F.remark (F.chosenIn singles (done ++ [p])), (F.verdict p).changed) := by
  rw [h.applyResolution_remark hc (fun l hl hp => resolve_chosenIn h (mem_leaves_iff.mp hl) hp fresh)
    fun l _ ne => (chosenIn_concat_of_ne ne).symm]
  refine congrArg (fun n => Except.ok (_, n)) ?_
  rw [verdict, hc]
  refine List.countP_congr fun k hk => ?_
  rw [markers?_eq]
  cases hl : F.leaf? k with
  | none => rfl
  | some l =>
    have hp : l.parent = some p := h.parent_of_mem hc hk (cell?_of_leaf? hl)
    simpa using not_congr (not_iff_not.mp (chosenIn_concat_ne_iff h hl hp fresh))

variable (singles done) in
theorem Linked.resolveGroups_chosenIn (h : F.Linked) (live : ∀ p ∈ ps, ∃ c, F.cell? p = some c)
    (distinct : (done ++ ps).Nodup) :
    (F.remark (F.chosenIn singles done)).resolveGroups (ps.map fun p => (p, F.resolution p)) =
      .ok (F.remark (F.chosenIn singles (done ++ ps)), ps.map F.verdict) := by
  induction ps generalizing done with
  | nil => rw [List.append_nil]; rfl
  | cons p rest ih =>
    obtain ⟨c, hc⟩ := live p (by simp)
    have fresh : p ∉ done := fun hp => (List.nodup_append.mp distinct).2.2 p hp p (by simp) rfl
    have tail := ih (done ++ [p]) (fun q hq => live q (by simp [hq])) (by simpa using distinct)
    rw [List.map_cons, resolveGroups, h.applyResolution_chosenIn hc fresh]
    show (resolveGroups _ _ >>= _) = _
    rw [tail, List.append_assoc]
    rfl

/-- Clearing the flags of single leaves is the same whichever groups are resolved already. -/
theorem yieldSingles_chosenIn :
    (F.remark (F.chosenIn false done)).yieldSingles = F.remark (F.chosenIn true done) := by
  rw [yieldSingles_eq, remark_remark]
  refine remark_congr fun l _ => ?_
  rcases l.grouped_or_single with ⟨flag, p, hp⟩ | single
  · have unflagged : (F.chosenIn false done l).flag ≠ .refine := chosenIn_flag_ne_refine flag hp
    refine (singled_of_group (l := { l with markers := F.chosenIn false done l }) hp unflagged).trans ?_
    rw [chosenIn_of_group flag hp, chosenIn_of_group flag hp]
  · rw [chosenIn_of_single single, chosenIn_of_single single, if_neg Bool.false_ne_true, if_pos rfl]
    exact singled_eq_forced single

theorem countP_chosenIn {q : Leaf → Bool} (idle : ∀ {l p}, l.parent = some p → l.flag ≠ .refine → q l = false) :
    (F.remark (F.chosenIn false done)).leaves.countP q = F.leaves.countP q := by
  rw [leaves_remark, List.countP_map]
  refine List.countP_congr fun l _ => ?_
  rcases l.grouped_or_single with ⟨flag, p, hp⟩ | single
  · have unflagged : (F.chosenIn false done l).flag ≠ .refine := chosenIn_flag_ne_refine flag hp
    have after : q { l with markers := F.chosenIn false done l } = false := idle hp unflagged
    rw [Function.comp_apply, after, idle hp (by simp [flag])]
  · rw [Function.comp_apply, chosenIn_of_single single, if_neg Bool.false_ne_true]

end Forest

/-- The report on groups resolved in some order, with the flags cleared on single leaves. -/
def ChoiceReport.ofGroups (refine root : Nat) (groups : List ResolvedGroup) : ChoiceReport :=
  let count r := groups.countP fun g => g.resolution = r
  ⟨refine, count .partialGroup, count .hCoarsening, count .pCoarsening, root,
    refine + root + ResolvedGroup.changedCells groups⟩

namespace Forest
variable {D : Nat} {F : Forest D} {p : CellId} {l : Leaf}

/-- The report of choosing p, by the markers of the forest. -/
def choiceReport (F : Forest D) : ChoiceReport :=
  .ofGroups (F.leaves.countP Leaf.yieldsRefine) (F.leaves.countP Leaf.yieldsRootCoarsen)
    ((coarsenParents F.leaves).map F.verdict)

theorem Linked.cell?_of_mem_coarsenParents (h : F.Linked) (hp : p ∈ coarsenParents F.leaves) :
    ∃ c, F.cell? p = some c := by
  obtain ⟨l, hl, -, parent⟩ := mem_coarsenParents.mp hp
  obtain ⟨c, hc, -⟩ := h.parent (cell?_of_leaf? (mem_leaves_iff.mp hl)) parent
  exact ⟨c, hc⟩

theorem yieldSingles_eq_chosenIn : F.yieldSingles = F.remark (F.chosenIn true []) := by
  rw [← yieldSingles_chosenIn, remark_chosenIn_nil]

/-- The flags of single leaves do not matter to how the groups are judged. -/
theorem Linked.judged_yieldSingles (h : F.Linked) :
    (coarsenParents F.leaves).mapM (fun p => return (p, ← F.yieldSingles.siblingResolution p)) =
      .ok ((coarsenParents F.leaves).map fun p => (p, F.resolution p)) :=
  mapM_eq_pure fun p hp => by
    obtain ⟨c, hc⟩ := h.cell?_of_mem_coarsenParents hp
    obtain ⟨d, hd, -⟩ := (SameLinks.of_remark (F.chosenIn true [])).symm.cell hc
    rw [yieldSingles_eq_chosenIn, siblingResolution_eq_ok ((SameLinks.of_remark _).linked h) hd,
      h.resolution_chosenIn hc List.not_mem_nil]
    rfl

theorem remark_chosenIn_coarsenParents : F.remark (F.chosenIn true (coarsenParents F.leaves)) = F.remark F.chosen :=
  remark_chosenIn_all fun l hl flag _ hp => mem_coarsenParents.mpr ⟨l, hl, flag, hp⟩

theorem Linked.resolveGroups_yieldSingles (h : F.Linked) :
    F.yieldSingles.resolveGroups ((coarsenParents F.leaves).map fun p => (p, F.resolution p)) =
      .ok (F.remark F.chosen, (coarsenParents F.leaves).map F.verdict) := by
  have live := fun p hp => h.cell?_of_mem_coarsenParents (p := p) hp
  rw [yieldSingles_eq_chosenIn, h.resolveGroups_chosenIn true [] live nodup_coarsenParents, List.nil_append,
    remark_chosenIn_coarsenParents]

/-- On a linked forest choosing p is accepted, leaves each leaf its chosen markers, and tells of each group. -/
theorem Linked.chooseP_eq (h : F.Linked) : F.chooseP = .accept (F.remark F.chosen) F.choiceReport
    (((coarsenParents F.leaves).map F.verdict).map (·.message) ++ [F.choiceReport.message]) := by
  have outcome : (do
      let judged ← (coarsenParents F.leaves).mapM fun p => return (p, ← F.yieldSingles.siblingResolution p)
      F.yieldSingles.resolveGroups judged) =
        .ok (F.remark F.chosen, (coarsenParents F.leaves).map F.verdict) := by
    rw [h.judged_yieldSingles]
    exact h.resolveGroups_yieldSingles
  unfold chooseP
  simp only [outcome]
  rfl

theorem chooseP_accepts (h : F.Linked) :
    F.chooseP.answer = .ok F.choiceReport ∧ F.chooseP.forest = F.remark F.chosen := by
  rw [h.chooseP_eq]
  exact ⟨rfl, rfl⟩

def decided (F : Forest D) : Decision → Leaf → Markers
  | .forceP => forced
  | .chooseP => F.chosen

theorem resolve_future {r : SiblingResolution} {m : Markers} {i : Nat} (after : (r.resolve m).future = some i) :
    m.future = some i := by
  cases r with
  | hCoarsening => cases after
  | partialGroup | pCoarsening =>
    rw [SiblingResolution.resolve] at after
    split at after <;> exact after

/-- A decision schedules no element. -/
theorem decided_future {decision : Decision} {i : Nat} (after : (F.decided decision l).future = some i) :
    l.future = some i := by
  cases decision with
  | forceP => exact forced_future (l := l) ▸ after
  | chooseP =>
    have after : (F.chosen l).future = some i := after
    rcases l.grouped_or_single with ⟨flag, p, hp⟩ | single
    · rw [chosen_of_group flag hp] at after
      exact resolve_future after
    · rwa [chosen_of_single single, forced_future] at after

theorem decision_accepts (h : F.Linked) (decision : Decision) : ∃ n, (decision.apply F).answer = .ok n ∧
    (decision.apply F).forest = F.remark (F.decided decision) := by
  cases decision with
  | forceP => exact ⟨_, rfl, forceP_forest⟩
  | chooseP =>
    obtain ⟨accepted, forest⟩ := chooseP_accepts h
    refine ⟨F.choiceReport.changedCells, ?_, ?_⟩
    · simp [Decision.apply, Outcome.andThen, accepted, Outcome.accept]
    · simpa [Decision.apply, Outcome.andThen, accepted, Outcome.accept, decided] using forest

end Forest
end HpForest
