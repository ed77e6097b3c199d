import HpForest.Proofs.Strategy.Contract
import Mathlib.Algebra.Order.Ring.Unbundled.Rat
import Mathlib.Data.List.Induction

/-! # Strategies as masks

All a strategy decides is which of the flagged leaves qualify. `Strategy.Qualifies` says which, for each strategy
in terms of the entries of its vectors, and a mask with these verdicts on the flagged leaves stands for the
strategy: selecting by the mask has the same answer and leaves the same forest. On the leaves that qualify the next
element is scheduled. Everything else in the forest is as before. -/

namespace HpForest

/-! ### Extremes -/

/-- The first best value of a list under a strict order is a value of it that none of them surpasses. -/
theorem foldl_best {α : Type} (better : α → α → Bool) (irrefl : ∀ x, better x x = false)
    (trans : ∀ x y z, better x y = true → better y z = true → better x z = true) (first : α) (rest : List α) :
    let best := rest.foldl (fun m x => if better x m then x else m) first
    best ∈ first :: rest ∧ ∀ x ∈ first :: rest, better x best = false := by
  -- The fold replaces the best value at the end, so the list is taken apart from there.
  induction rest using List.reverseRecOn with
  | nil => simp [irrefl]
  | append_singleton rest y ih =>
    obtain ⟨member, unsurpassed⟩ := ih
    simp only [List.foldl_append, List.foldl_cons, List.foldl_nil, ← List.cons_append, List.mem_append,
      List.mem_singleton]
    split
    · next replaces =>
      refine ⟨Or.inr rfl, ?_⟩
      rintro x (hx | rfl)
      · refine Bool.eq_false_iff.mpr fun surpasses => ?_
        exact absurd (trans _ _ _ surpasses replaces) (Bool.eq_false_iff.mp (unsurpassed x hx))
      · exact irrefl x
    · next kept =>
      refine ⟨Or.inl member, ?_⟩
      rintro x (hx | rfl)
      · exact unsurpassed x hx
      · exact Bool.eq_false_iff.mpr kept

namespace Scalar

/-- The numbers are strictly ordered. -/
structure Strict (N : Type) [Scalar N] : Prop where
  irrefl : ∀ x : N, lt x x = false
  trans : ∀ x y z : N, lt x y = true → lt y z = true → lt x z = true

theorem strict_rat : Strict Rat where
  irrefl _ := decide_eq_false (lt_irrefl _)
  trans _ _ _ below above := decide_eq_true (lt_trans (of_decide_eq_true below) (of_decide_eq_true above))

end Scalar

section
variable {P N : Type} [Scalar N]

/-- The numbers are two of the values, and no value is less than the one or greater than the other. -/
def Bound (lo hi : N) (values : List N) : Prop :=
  lo ∈ values ∧ hi ∈ values ∧ ∀ x ∈ values, Scalar.lt x lo = false ∧ Scalar.lt hi x = false

/-- The extremes of a list are its least and its greatest value. -/
theorem extremes_bound (strict : Scalar.Strict N) (first : N) (rest : List N) :
    Bound (extremes first rest).1 (extremes first rest).2 (first :: rest) := by
  obtain ⟨least, below⟩ := foldl_best Scalar.lt strict.irrefl strict.trans first rest
  obtain ⟨greatest, above⟩ := foldl_best (fun x y => Scalar.lt y x) strict.irrefl
    (fun x y z above above' => strict.trans z y x above' above) first rest
  exact ⟨least, greatest, fun x hx => ⟨below x hx, above x hx⟩⟩

/-- Whether an indicator lies beyond a threshold: above it to be refined, below it to be coarsened. -/
def HFlag.beyond (flag : HFlag) (t x : N) : Bool :=
  match flag with
  | .refine => Scalar.lt t x
  | _ => Scalar.lt x t

/-- The fraction of the class with the given flag. -/
def ThresholdOptions.fraction (o : ThresholdOptions P) : HFlag → P
  | .refine => o.refineFraction
  | _ => o.coarsenFraction

/-- The indicator lies beyond the threshold at the given fraction of the way from one number to another. -/
def BeyondThreshold [RoundsTo P N] (fraction : P) (flag : HFlag) (lo hi x : N) : Prop :=
  ∃ f, RoundsTo.round? fraction = some f ∧ flag.beyond (lo + f * (hi - lo)) x = true

/-- The indicator qualifies in a class of these values: the class has no other value, or its extremes coincide, or
the indicator lies beyond the threshold between them. -/
def QualifiesAmong [RoundsTo P N] (fraction : P) (flag : HFlag) (values : List N) (x : N) : Prop :=
  ∃ first rest, values = first :: rest ∧
    let (lo, hi) := extremes first rest
    rest = [] ∨ Scalar.eq lo hi = true ∨ BeyondThreshold fraction flag lo hi x

theorem qualifiesAmong_cons [RoundsTo P N] {fraction : P} {flag : HFlag} {first : N} {rest : List N} {x : N} :
    QualifiesAmong fraction flag (first :: rest) x ↔
      let (lo, hi) := extremes first rest
      rest = [] ∨ Scalar.eq lo hi = true ∨ BeyondThreshold fraction flag lo hi x := by
  constructor
  · rintro ⟨_, _, same, qualifies⟩
    cases same
    exact qualifies
  · exact fun qualifies => ⟨first, rest, rfl, qualifies⟩

theorem Cutoff.passes_ofValues [Scalar P] [RoundsTo P N] {p : Parameter} {fraction : P} {flag : HFlag}
    {values : List N} {c : Cutoff N} {x : N} (found : ofValues p fraction values = .ok c) :
    c.passes flag x = true ↔ QualifiesAmong fraction flag values x := by
  match values with
  | [] =>
    cases found
    simp [QualifiesAmong, passes]
  | [first] =>
    cases found
    simp [qualifiesAmong_cons, passes]
  | first :: second :: rest =>
    rw [qualifiesAmong_cons]
    simp only [ofValues] at found
    split at found
    · next coincide =>
      cases found
      simp [passes, coincide]
    · next apart =>
      obtain ⟨f, converted, found⟩ := bind_eq_ok.mp found
      cases found
      have converted := orRefuse_eq_ok.mp converted
      cases flag <;> simp [passes, BeyondThreshold, HFlag.beyond, apart, converted]

end

/-! ### The leaves that qualify -/

section
variable {leaves : List Leaf} {l : Leaf} {q : Bool} {m m' : List Bool}

theorem qualified_cons : qualified (l :: leaves) (q :: m) =
    if q = true ∧ l.flag ≠ .none then l :: qualified leaves m else qualified leaves m := by
  by_cases picked : q = true ∧ l.flag ≠ .none <;> simp [qualified, picked]

/-- Only the entries of flagged leaves matter. -/
theorem qualified_congr (same : m.length = leaves.length) (same' : m'.length = leaves.length)
    (agree : ∀ (i : Nat) (l : Leaf), leaves[i]? = some l → l.flag ≠ .none → m[i]? = m'[i]?) :
    qualified leaves m = qualified leaves m' := by
  induction leaves generalizing m m' with
  | nil => rfl
  | cons l rest ih =>
    cases m with
    | nil => cases same
    | cons q m =>
      cases m' with
      | nil => cases same'
      | cons q' m' =>
        have tail := ih (Nat.succ.inj same) (Nat.succ.inj same') fun i l' hl => agree (i + 1) l' hl
        rw [qualified_cons, qualified_cons, tail]
        by_cases flagged : l.flag = .none
        · simp [flagged]
        · rw [Option.some.inj (agree 0 l rfl flagged)]

theorem mem_qualified : l ∈ qualified leaves m ↔ ∃ q, (l, q) ∈ leaves.zip m ∧ q = true ∧ l.flag ≠ .none := by
  simp [qualified]

/-- Among leaves of different ids the id tells whether the leaf qualifies. -/
theorem mem_qualified_ids (distinct : (leaves.map (·.id)).Nodup) (same : m.length = leaves.length)
    (h : (l, q) ∈ leaves.zip m) : l.id ∈ (qualified leaves m).map (·.id) ↔ q = true ∧ l.flag ≠ .none := by
  have ids : ((leaves.zip m).map fun p => p.1.id).Nodup := by
    rwa [← List.map_fst_zip (Nat.le_of_eq same.symm), List.map_map] at distinct
  constructor
  · intro picked
    obtain ⟨l', hl', same_id⟩ := List.mem_map.mp picked
    obtain ⟨q', h', picked⟩ := mem_qualified.mp hl'
    cases List.inj_on_of_nodup_map ids h' h same_id
    exact picked
  · exact fun picked => List.mem_map_of_mem (mem_qualified.mpr ⟨q, h, picked⟩)

end

/-! ### The verdict on a leaf -/

namespace Strategy
variable {D : Nat} {P N : Type} {F : Forest D} {fe : Collection} {s : Strategy P N} {leaves : List Leaf} {l : Leaf}
  {m m' : List Bool}

section
variable [Scalar N] [RoundsTo P N]

/-- Whether the flagged leaf at the given place of the list of leaves is to change its element. -/
def Qualifies (fe : Collection) (leaves : List Leaf) (i : Nat) (l : Leaf) : Strategy P N → Prop
  | full => True
  | flags selected => selected[i]? = some true
  | threshold smoothness o => ∃ x, smoothness[i]? = some x ∧
    QualifiesAmong (o.fraction l.flag) l.flag (classValues l.flag leaves smoothness) x
  | regularity sobolev => ∃ x k t, sobolev[i]? = some x ∧ fe.degree (l.next fe) = .ok k ∧
    Scalar.ofDegree? k = some t ∧ l.flag.beyond t x = true
  | prediction errors predictions => ∃ error predicted, errors[i]? = some error ∧ predictions[i]? = some predicted ∧
    Scalar.lt error predicted = true

/-- The mask has one entry per leaf, and those of flagged leaves say whether the leaf qualifies. -/
structure IsMask (s : Strategy P N) (fe : Collection) (leaves : List Leaf) (m : List Bool) : Prop where
  length : m.length = leaves.length
  verdict : ∀ {i : Nat} {l : Leaf} {q : Bool}, leaves[i]? = some l → m[i]? = some q → l.flag ≠ .none →
    (q = true ↔ s.Qualifies fe leaves i l)

theorem IsMask.unique (h : s.IsMask fe leaves m) (h' : s.IsMask fe leaves m') :
    qualified leaves m = qualified leaves m' := by
  refine qualified_congr h.length h'.length fun i l hl flagged => ?_
  have bound := (List.getElem?_eq_some_iff.mp hl).1
  have hq := List.getElem?_eq_getElem (h.length ▸ bound)
  have hq' := List.getElem?_eq_getElem (h'.length ▸ bound)
  rw [hq, hq', Option.some_inj, Bool.eq_iff_iff]
  exact (h.verdict hl hq flagged).trans (h'.verdict hl hq' flagged).symm

theorem isMask_flags (same : m.length = leaves.length) : (flags m : Strategy P N).IsMask fe leaves m :=
  ⟨same, fun _ hq _ => by rw [Qualifies, hq, Option.some_inj]⟩

theorem isMask_of_judge {α : Type} {xs : List α} {verdict : Leaf → α → Except AdaptError Bool}
    (judged : judge leaves xs verdict = .ok m) (same : leaves.length = xs.length)
    (agree : ∀ {i : Nat} {l : Leaf} {x : α} {q : Bool}, leaves[i]? = some l → xs[i]? = some x → l.flag ≠ .none →
      verdict l x = .ok q → (q = true ↔ s.Qualifies fe leaves i l)) : s.IsMask fe leaves m := by
  obtain ⟨length, each⟩ := List.forall₂_iff_zip.mp (mapM_eq_ok.mp judged)
  rw [List.length_zip, ← same, Nat.min_self] at length
  refine ⟨length.symm, fun {i l q} hl hq flagged => ?_⟩
  have bound : i < xs.length := same ▸ (List.getElem?_eq_some_iff.mp hl).1
  have hx := List.getElem?_eq_getElem bound
  have judged : ((leaves.zip xs).zip m)[i]? = some ((l, xs[i]), q) :=
    List.getElem?_zip_eq_some.mpr ⟨List.getElem?_zip_eq_some.mpr ⟨hl, hx⟩, hq⟩
  exact agree hl hx flagged ((if_neg flagged).symm.trans (each (List.mem_of_getElem? judged)))

theorem passes_iff [Scalar P] {smoothness : List N} {o : ThresholdOptions P} {c : Cutoffs N} {x : N}
    (found : Cutoffs.ofLeaves o leaves smoothness = .ok c) (flagged : l.flag ≠ .none) :
    c.passes l.flag x = true ↔
      QualifiesAmong (o.fraction l.flag) l.flag (classValues l.flag leaves smoothness) x := by
  obtain ⟨refines, coarsens⟩ := Cutoffs.ofLeaves_eq_ok.mp found
  cases flag : l.flag with
  | none => exact absurd flag flagged
  | refine => exact Cutoff.passes_ofValues refines
  | coarsen => exact Cutoff.passes_ofValues coarsens

theorem beyond_of_supports {x : N} {q : Bool} (flagged : l.flag ≠ .none) (valid : l.element < fe.size)
    (supported : supports fe l x = .ok q) :
    ∃ k t, fe.degree (l.next fe) = .ok k ∧ Scalar.ofDegree? k = some t ∧ l.flag.beyond t x = q := by
  obtain ⟨k, degree, verdict⟩ := supports_eq valid x
  rw [supported] at verdict
  cases converted : (Scalar.ofDegree? k : Option N) with
  | none =>
    rw [converted] at verdict
    cases verdict
  | some t =>
    rw [converted] at verdict
    refine ⟨k, t, degree, converted, ?_⟩
    rw [Except.ok.inj verdict]
    cases flag : l.flag with
    | none => exact absurd flag flagged
    | refine => rfl
    | coarsen => rfl

end

section
variable [Scalar P] [Scalar N] [RoundsTo P N]

/-- The mask that a strategy computes says which leaves qualify. -/
theorem isMask_of_mask (passed : s.check F fe = .ok ()) (masked : s.mask fe F.leaves = .ok m) :
    s.IsMask fe F.leaves m := by
  have input {v : CellVector} {n : Nat} : (v, n) ∈ s.lengths → F.leaves.length = n := length_of_check passed
  unfold mask at masked
  cases s with
  | full =>
    refine isMask_of_judge masked rfl fun _ _ _ verdict => ?_
    cases verdict
    exact ⟨fun _ => trivial, fun _ => rfl⟩
  | flags selected =>
    refine isMask_of_judge masked (input (List.mem_singleton.mpr rfl)) fun _ hx _ verdict => ?_
    cases verdict
    rw [Qualifies, hx, Option.some_inj]
  | threshold smoothness o =>
    obtain ⟨cutoffs, found, judged⟩ := bind_eq_ok.mp masked
    refine isMask_of_judge judged (input (List.mem_singleton.mpr rfl)) fun _ hx flagged verdict => ?_
    cases verdict
    rw [passes_iff found flagged, Qualifies]
    constructor
    · exact fun qualifies => ⟨_, hx, qualifies⟩
    · rintro ⟨x', hx', qualifies⟩
      cases hx.symm.trans hx'
      exact qualifies
  | regularity sobolev =>
    refine isMask_of_judge masked (input (List.mem_singleton.mpr rfl)) fun {i l x q} hl hx flagged verdict => ?_
    have valid := (within_of_check passed).element (List.mem_of_getElem? hl)
    obtain ⟨k, t, degree, converted, rfl⟩ := beyond_of_supports flagged valid verdict
    constructor
    · exact fun qualifies => ⟨x, k, t, hx, degree, converted, qualifies⟩
    · rintro ⟨x', k', t', hx', degree', converted', qualifies⟩
      cases hx.symm.trans hx'
      cases degree.symm.trans degree'
      cases converted.symm.trans converted'
      exact qualifies
  | prediction errors predictions =>
    have first : F.leaves.length = errors.length := input List.mem_cons_self
    have second : F.leaves.length = predictions.length := input (List.mem_cons_of_mem _ (List.mem_singleton.mpr rfl))
    have zipped : F.leaves.length = (errors.zip predictions).length := by
      rw [List.length_zip, ← first, ← second, Nat.min_self]
    refine isMask_of_judge masked zipped fun {i l x q} hl hx flagged verdict => ?_
    obtain ⟨error, predicted⟩ := x
    obtain ⟨hx, hy⟩ := List.getElem?_zip_eq_some.mp hx
    cases verdict
    constructor
    · exact fun qualifies => ⟨error, predicted, hx, hy, qualifies⟩
    · rintro ⟨error', predicted', hx', hy', qualifies⟩
      cases hx.symm.trans hx'
      cases hy.symm.trans hy'
      exact qualifies

/-- The plan of a strategy is to change the leaves that qualify. -/
theorem plan_of_mask (passed : s.check F fe = .ok ()) (judged : ∃ m', s.mask fe F.leaves = .ok m')
    (h : s.IsMask fe F.leaves m) : s.plan F fe = .ok (qualified F.leaves m) := by
  obtain ⟨m', masked⟩ := judged
  exact plan_eq_ok.mpr ⟨passed, m', masked, (isMask_of_mask passed masked).unique h⟩

theorem plan_of_apply_isMask {report : AssignmentReport} (accepted : (s.apply F fe).answer = .ok report)
    (h : s.IsMask fe F.leaves m) : s.plan F fe = .ok (qualified F.leaves m) := by
  obtain ⟨leaves, planned⟩ := plan_of_apply accepted
  obtain ⟨passed, m', masked, -⟩ := plan_eq_ok.mp planned
  exact plan_of_mask passed ⟨m', masked⟩ h

/-- Selecting by a mask plans to change the flagged leaves that it selects. -/
theorem plan_flags (within : F.Within fe) (same : m.length = F.leaves.length) :
    (flags m : Strategy P N).plan F fe = .ok (qualified F.leaves m) :=
  plan_of_mask (check_flags within same) (exists_mask_flags m) (isMask_flags same)

theorem exists_isMask [RoundsTo.Total P N] (passed : s.check F fe = .ok ()) :
    ∃ m, s.mask fe F.leaves = .ok m ∧ s.IsMask fe F.leaves m := by
  obtain ⟨m, masked⟩ := exists_mask_eq_ok (s := s) fun l => (within_of_check passed).element (l := l)
  exact ⟨m, masked, isMask_of_mask passed masked⟩

end

end Strategy

/-! ### What selecting by a mask does -/

/-- `G` is `F` with the next element scheduled on the flagged leaves that the mask selects, and the report counts
them. Links, flags, the elements in use and all other schedules are as before. -/
structure Selects {D : Nat} (fe : Collection) (m : List Bool) (F G : Forest D) (report : AssignmentReport) : Prop where
  size : G.slots.size = F.slots.size
  inactive : ∀ {id}, F.isActive id = false → G.cell? id = F.cell? id
  leaves : G.leaves = (F.leaves.zip m).map fun (l, q) =>
    if q = true ∧ l.flag ≠ .none then { l with markers := { l.markers with future := some (l.next fe) } } else l
  pRefined : report.pRefined = (F.leaves.zip m).countP fun (l, q) => q && l.flag = .refine
  pCoarsened : report.pCoarsened = (F.leaves.zip m).countP fun (l, q) => q && l.flag = .coarsen

section
variable {D : Nat} {F : Forest D} {fe : Collection} {leaves : List Leaf} {m : List Bool}

theorem countP_assignments {flag : HFlag} (flagged : flag ≠ .none) :
    ((qualified leaves m).map (Leaf.assignment fe)).countP (fun a => a.leaf.flag = flag) =
      (leaves.zip m).countP fun (l, q) => q && l.flag = flag := by
  rw [qualified, List.map_map, List.countP_map, List.countP_filter]
  congr 1
  funext (l, q)
  by_cases same : l.flag = flag <;> simp [Leaf.assignment, same, flagged]

theorem selects_scheduledOn (same : m.length = F.leaves.length) :
    Selects fe m F (F.remark (Leaf.scheduledOn fe ((qualified F.leaves m).map (·.id))))
      (Assignment.report ((qualified F.leaves m).map (Leaf.assignment fe))) where
  size := Forest.size_remark _
  inactive inactive := Forest.cell?_remark_of_inactive inactive _
  leaves := by
    have fst : (F.leaves.zip m).map Prod.fst = F.leaves := List.map_fst_zip (Nat.le_of_eq same.symm)
    rw [Forest.leaves_remark, ← fst, List.map_map, fst]
    refine List.map_congr_left fun (l, q) h => ?_
    have picks := mem_qualified_ids Forest.nodup_leaves_ids same h
    by_cases selected : q = true ∧ l.flag ≠ .none
    · simp only [Function.comp_apply, Leaf.scheduledOn, Leaf.markOn, if_pos (picks.mpr selected), if_pos selected]
    · simp only [Function.comp_apply, Leaf.scheduledOn, Leaf.markOn, if_neg (mt picks.mp selected), if_neg selected]
  pRefined := countP_assignments nofun
  pCoarsened := countP_assignments nofun

end

namespace Strategy
variable {D : Nat} {P N : Type} [Scalar P] [Scalar N] [RoundsTo P N]
  {F : Forest D} {fe : Collection} {s : Strategy P N} {m : List Bool} {report : AssignmentReport}

/-- An accepted strategy does what selecting by its mask does, whatever the mask says of leaves without a flag: it
schedules the next element on the leaves that qualify, and nothing else changes. For strictly ordered numbers the
extremes that a threshold lies between are the least and the greatest value of its class. -/
theorem apply_eq_flags (accepted : (s.apply F fe).answer = .ok report) (mask : s.IsMask fe F.leaves m) :
    ((flags m : Strategy P N).apply F fe).answer = .ok report ∧
    ((flags m : Strategy P N).apply F fe).forest = (s.apply F fe).forest ∧
    Selects fe m F (s.apply F fe).forest report ∧
    (Scalar.Strict N → ∀ (flag : HFlag) (xs : List N) (first : N) (rest : List N),
      classValues flag F.leaves xs = first :: rest →
        Bound (extremes first rest).1 (extremes first rest).2 (classValues flag F.leaves xs)) := by
  have planned := plan_of_apply_isMask accepted mask
  have selected : (flags m : Strategy P N).plan F fe = .ok _ := plan_flags (within_of_plan planned) mask.length
  obtain ⟨answer, forest⟩ := apply_of_plan planned
  obtain ⟨answer', forest'⟩ := apply_of_plan selected
  refine ⟨answer'.trans (answer.symm.trans accepted), forest'.trans forest.symm, ?_, ?_⟩
  · rw [answer] at accepted
    cases accepted
    rw [forest]
    exact selects_scheduledOn mask.length
  · intro strict flag xs first rest values
    rw [values]
    exact extremes_bound strict first rest

end Strategy

/-- A split root with two cells flagged for refinement, one for coarsening, and an older schedule on the last. -/
def Forest.flaggedQuad : Forest 2 := after ([.addRoot 0, .refineCell ⟨0⟩, .setFlag ⟨1⟩ .refine, .setFlag ⟨2⟩ .refine,
  .setFlag ⟨3⟩ .coarsen, .setFuture ⟨4⟩ 1] : List (Operation Rat Rat))

theorem Forest.flaggedQuad_selected : let s : Strategy Rat Rat := .threshold [0, 1, 5, 9] ⟨1 / 2, 1 / 2⟩
    let m := [false, true, true, false]
    Reachable flaggedQuad ∧ (s.apply flaggedQuad .twoElements).answer = .ok ⟨1, 1⟩ ∧
      s.IsMask .twoElements flaggedQuad.leaves m ∧
      ((.flags m : Strategy Rat Rat).apply flaggedQuad .twoElements).answer = .ok ⟨1, 1⟩ ∧
      Selects .twoElements m flaggedQuad (s.apply flaggedQuad .twoElements).forest ⟨1, 1⟩ ∧
      Bound 0 1 (classValues .refine flaggedQuad.leaves [(0 : Rat), 1, 5, 9]) ∧
      (s.apply flaggedQuad .twoElements).forest.leaves.map (·.future) = [none, some 1, some 0, some 1] := by
  intro s m
  have accepted : (s.apply flaggedQuad .twoElements).answer = .ok ⟨1, 1⟩ := by decide +kernel
  have mask : s.IsMask .twoElements flaggedQuad.leaves m :=
    Strategy.isMask_of_mask (F := flaggedQuad) (by decide +kernel) (by decide +kernel)
  obtain ⟨answer, -, selects, bound⟩ := Strategy.apply_eq_flags accepted mask
  have extremes : Bound 0 1 (classValues .refine flaggedQuad.leaves [(0 : Rat), 1, 5, 9]) :=
    bound Scalar.strict_rat .refine [0, 1, 5, 9] 0 [1] rfl
  exact ⟨.after _, accepted, mask, answer, selects, extremes, by rw [selects.leaves]; rfl⟩

end HpForest
