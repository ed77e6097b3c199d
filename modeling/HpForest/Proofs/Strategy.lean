import HpForest.Proofs.Collection
import HpForest.Proofs.Forest.Execution
import HpForest.Strategy.Assignment

/-! # What a strategy does

A strategy that goes on to judge the leaves has found every element index of the forest in its collection. The
elements next to these are in the collection too, so from then on nothing is refused: neither while the leaves
are judged nor while elements are scheduled on them, one leaf after the other. An accepted strategy schedules
the next element on the leaves of its plan and changes nothing else. -/

namespace HpForest

/-! ### Refusals of element indices -/

/-- The answer is no refusal of an element index. -/
def FindsElements {α : Type} : Except AdaptError α → Prop
  | .ok _ => True
  | .error e => ∀ i n, e ≠ .invalidElement i n

namespace FindsElements
variable {α β : Type} {x : Except AdaptError α} {f : α → Except AdaptError β} {xs : List α}

theorem ne (h : FindsElements x) (i n : Nat) : x ≠ .error (.invalidElement i n) := by
  rintro rfl
  exact h i n rfl

theorem ok (a : α) : FindsElements (.ok a) := trivial

theorem bind (first : FindsElements x) (next : ∀ a, x = .ok a → FindsElements (f a)) : FindsElements (x >>= f) := by
  cases x with
  | ok a => exact next a rfl
  | error e => exact first

theorem map (h : FindsElements x) (g : α → β) : FindsElements (x.map g) := by
  cases x with
  | ok a => exact ok (g a)
  | error e => exact h

theorem mapM (each : ∀ a ∈ xs, FindsElements (f a)) : FindsElements (xs.mapM f) := by
  induction xs with
  | nil => exact ok []
  | cons a rest ih =>
    rw [List.mapM_cons]
    have tail := ih fun b hb => each b (List.mem_cons_of_mem a hb)
    exact (each a List.mem_cons_self).bind fun _ _ => tail.bind fun _ _ => ok _

theorem forM {g : α → Except AdaptError Unit} (each : ∀ a ∈ xs, FindsElements (g a)) : FindsElements (xs.forM g) := by
  induction xs with
  | nil => exact ok ()
  | cons a rest ih =>
    have tail := ih fun b hb => each b (List.mem_cons_of_mem a hb)
    exact (each a List.mem_cons_self).bind fun _ _ => tail

section Outcomes
variable {D : Nat} {F : Forest D} {o : Outcome D α} {next : α → Forest D → Outcome D β}

theorem ofExcept {r : Except AdaptError (Forest D × α)} (h : FindsElements r) :
    FindsElements (Outcome.ofExcept F r).answer := by
  cases r with
  | ok a => exact ok a.2
  | error e => exact h

theorem andThen (first : FindsElements o.answer) (second : ∀ a, FindsElements (next a o.forest).answer) :
    FindsElements (o.andThen next).answer := by
  unfold Outcome.andThen
  split
  · next a _ => exact second a
  · next e refused =>
    rw [refused] at first
    exact first

end Outcomes

end FindsElements

/-! ### Neighbouring elements -/

namespace Leaf
variable {fe : Collection} {l : Leaf}

/-- The element next to the leaf's own in the direction of its flag, and the last or the first one at the ends
of the collection. -/
def next (fe : Collection) (l : Leaf) : Nat :=
  match l.flag with
  | .none => l.element
  | .refine => min (l.element + 1) (fe.size - 1)
  | .coarsen => l.element - 1

def assignment (fe : Collection) (l : Leaf) : Assignment := ⟨l, l.next fe⟩

theorem neighbour_eq_ok (valid : l.element < fe.size) : l.neighbour fe = .ok (l.next fe) := by
  unfold neighbour next
  cases l.flag with
  | none => rfl
  | refine => exact Collection.superordinate_eq_ok valid
  | coarsen => exact Collection.subordinate_eq_ok valid

theorem next_lt (valid : l.element < fe.size) : l.next fe < fe.size := by
  have positive := fe.size_pos
  unfold next
  cases l.flag with
  | none => exact valid
  | refine => exact Nat.lt_of_le_of_lt (Nat.min_le_right _ _) (Nat.sub_one_lt (Nat.ne_of_gt positive))
  | coarsen => exact Nat.lt_of_le_of_lt (Nat.sub_le _ _) valid

theorem next_congr {m : Leaf} (flag : m.flag = l.flag) (element : m.element = l.element) : m.next fe = l.next fe := by
  rw [next, next, flag, element]

end Leaf

theorem Forest.Within.element {D : Nat} {F : Forest D} {fe : Collection} (within : F.Within fe) {l : Leaf}
    (hl : l ∈ F.leaves) : l.element < fe.size := within l hl l.element List.mem_cons_self

/-! ### Judging the leaves -/

theorem exists_mapM_eq_ok {ε α β : Type} {f : α → Except ε β} {xs : List α} (each : ∀ x ∈ xs, ∃ y, f x = .ok y) :
    ∃ ys, xs.mapM f = .ok ys := by
  induction xs with
  | nil => exact ⟨[], rfl⟩
  | cons x rest ih =>
    obtain ⟨y, head⟩ := each x List.mem_cons_self
    obtain ⟨ys, tail⟩ := ih fun z hz => each z (List.mem_cons_of_mem x hz)
    exact ⟨y :: ys, mapM_eq_ok.mpr (.cons head (mapM_eq_ok.mp tail))⟩

theorem judge_finds {α : Type} {leaves : List Leaf} {xs : List α} {verdict : Leaf → α → Except AdaptError Bool}
    (each : ∀ l ∈ leaves, ∀ x, FindsElements (verdict l x)) : FindsElements (judge leaves xs verdict) := by
  refine FindsElements.mapM fun (l, x) hmem => ?_
  show FindsElements (if l.flag = .none then _ else _)
  split
  · exact .ok false
  · exact each l (List.of_mem_zip hmem).1 x

theorem orRefuse_finds {α : Type} {x : Option α} {e : AdaptError} (other : ∀ i n, e ≠ .invalidElement i n) :
    FindsElements (orRefuse x e) := by
  cases x with
  | some a => exact .ok a
  | none => exact other

theorem Cutoff.ofValues_finds {P N : Type} [Scalar P] [Scalar N] [RoundsTo P N] {p : Parameter} {fraction : P}
    {values : List N} : FindsElements (ofValues p fraction values) := by
  match values with
  | [] => exact .ok _
  | [_] => exact .ok _
  | first :: second :: rest =>
    simp only [ofValues]
    split
    · exact .ok _
    · exact (orRefuse_finds (by nofun)).bind fun _ _ => .ok _

theorem Cutoffs.ofLeaves_eq_ok {P N : Type} [Scalar P] [Scalar N] [RoundsTo P N] {o : ThresholdOptions P}
    {leaves : List Leaf} {xs : List N} {c : Cutoffs N} : ofLeaves o leaves xs = .ok c ↔
      Cutoff.ofValues .refineFraction o.refineFraction (classValues .refine leaves xs) = .ok c.refine ∧
        Cutoff.ofValues .coarsenFraction o.coarsenFraction (classValues .coarsen leaves xs) = .ok c.coarsen := by
  constructor
  · intro found
    obtain ⟨refine, refines, found⟩ := bind_eq_ok.mp found
    obtain ⟨coarsen, coarsens, found⟩ := bind_eq_ok.mp found
    cases found
    exact ⟨refines, coarsens⟩
  · rintro ⟨refines, coarsens⟩
    exact bind_eq_ok.mpr ⟨_, refines, bind_eq_ok.mpr ⟨_, coarsens, rfl⟩⟩

theorem exists_judge_eq_ok {α : Type} {leaves : List Leaf} {xs : List α} {verdict : Leaf → α → Except AdaptError Bool}
    (each : ∀ l ∈ leaves, ∀ x, ∃ q, verdict l x = .ok q) : ∃ mask, judge leaves xs verdict = .ok mask := by
  refine exists_mapM_eq_ok fun (l, x) hmem => ?_
  show ∃ q, (if l.flag = .none then _ else _) = _
  split
  · exact ⟨false, rfl⟩
  · exact each l (List.of_mem_zip hmem).1 x

theorem mem_of_mem_qualified {leaves : List Leaf} {mask : List Bool} {l : Leaf} (h : l ∈ qualified leaves mask) :
    l ∈ leaves := by
  obtain ⟨⟨m, q⟩, hm, rfl⟩ := List.mem_map.mp h
  exact (List.of_mem_zip (List.mem_filter.mp hm).1).1

namespace Strategy
variable {D : Nat} {P N : Type} {F : Forest D} {fe : Collection} {s : Strategy P N} {leaves : List Leaf} {l : Leaf}

section
variable [Scalar N]

/-- The regularity of a leaf is compared with the degree of its next element. -/
theorem supports_eq (valid : l.element < fe.size) (regularity : N) : ∃ k, fe.degree (l.next fe) = .ok k ∧
    supports fe l regularity = (orRefuse (Scalar.ofDegree? k) (.degreeTooLarge k)).map fun reached => match l.flag with
      | .none => false
      | .refine => Scalar.lt reached regularity
      | .coarsen => Scalar.lt regularity reached := by
  obtain ⟨k, found⟩ := Collection.degree_eq_ok (Leaf.next_lt valid)
  refine ⟨k, found, ?_⟩
  rw [supports, Leaf.neighbour_eq_ok valid]
  show (fe.degree (l.next fe) >>= _) = _
  rw [found]
  show (orRefuse (Scalar.ofDegree? k : Option N) _ >>= _) = _
  cases orRefuse (Scalar.ofDegree? k : Option N) (.degreeTooLarge k) <;> rfl

variable [Scalar P] [RoundsTo P N]

theorem mask_finds (valid : ∀ l ∈ leaves, l.element < fe.size) : FindsElements (s.mask fe leaves) := by
  unfold mask
  cases s with
  | threshold smoothness o =>
    have cutoffs : FindsElements (Cutoffs.ofLeaves o leaves smoothness) :=
      Cutoff.ofValues_finds.bind fun _ _ => Cutoff.ofValues_finds.bind fun _ _ => .ok _
    exact cutoffs.bind fun _ _ => judge_finds fun _ _ _ => .ok _
  | regularity sobolev =>
    refine judge_finds fun l hl x => ?_
    obtain ⟨k, -, supported⟩ := supports_eq (valid l hl) x
    rw [supported]
    exact (orRefuse_finds (by nofun)).map _
  | full | flags | prediction => exact judge_finds fun _ _ _ => .ok _

theorem exists_mask_full : ∃ mask, (full : Strategy P N).mask fe leaves = .ok mask := by
  unfold mask
  exact exists_judge_eq_ok fun _ _ _ => ⟨_, rfl⟩

theorem exists_mask_flags (selected : List Bool) :
    ∃ mask, (flags selected : Strategy P N).mask fe leaves = .ok mask := by
  unfold mask
  exact exists_judge_eq_ok fun _ _ _ => ⟨_, rfl⟩

end

/-! With conversions that cannot fail every leaf is judged by every strategy. -/

section
variable [Scalar P] [Scalar N] [RoundsTo P N] [RoundsTo.Total P N]

theorem exists_cutoff_eq_ok (p : Parameter) (fraction : P) (values : List N) :
    ∃ c, Cutoff.ofValues p fraction values = .ok c := by
  match values with
  | [] => exact ⟨_, rfl⟩
  | [_] => exact ⟨_, rfl⟩
  | first :: second :: rest =>
    obtain ⟨f, hf⟩ := Option.isSome_iff_exists.mp (RoundsTo.Total.round?_isSome (N := N) fraction)
    simp only [Cutoff.ofValues, orRefuse_eq_ok.mpr hf]
    split <;> exact ⟨_, rfl⟩

theorem exists_ofLeaves_eq_ok (o : ThresholdOptions P) (leaves : List Leaf) (xs : List N) :
    ∃ c, Cutoffs.ofLeaves o leaves xs = .ok c := by
  obtain ⟨c, refine⟩ := exists_cutoff_eq_ok .refineFraction o.refineFraction (classValues .refine leaves xs)
  obtain ⟨d, coarsen⟩ := exists_cutoff_eq_ok .coarsenFraction o.coarsenFraction (classValues .coarsen leaves xs)
  exact ⟨⟨c, d⟩, Cutoffs.ofLeaves_eq_ok.mpr ⟨refine, coarsen⟩⟩

theorem exists_mask_eq_ok (valid : ∀ l ∈ leaves, l.element < fe.size) : ∃ mask, s.mask fe leaves = .ok mask := by
  cases s with
  | full => exact exists_mask_full
  | flags selected => exact exists_mask_flags selected
  | threshold smoothness o =>
    obtain ⟨c, cutoffs⟩ := exists_ofLeaves_eq_ok o leaves smoothness
    have judged : ∃ mask, judge leaves smoothness (fun l x => .ok (c.passes l.flag x)) = .ok mask :=
      exists_judge_eq_ok fun _ _ _ => ⟨_, rfl⟩
    obtain ⟨mask, judged⟩ := judged
    exact ⟨mask, bind_eq_ok.mpr ⟨c, cutoffs, judged⟩⟩
  | regularity =>
    refine exists_judge_eq_ok fun l hl x => ?_
    obtain ⟨k, -, supported⟩ := supports_eq (valid l hl) x
    obtain ⟨t, ht⟩ := Option.isSome_iff_exists.mp (RoundsTo.Total.ofDegree?_isSome P (N := N) k)
    rw [orRefuse_eq_ok.mpr ht] at supported
    exact ⟨_, supported⟩
  | prediction =>
    unfold mask
    exact exists_judge_eq_ok fun _ _ _ => ⟨_, rfl⟩

end

/-! ### The contract -/

section
variable [Scalar P] [Scalar N]

theorem check_finds (within : F.Within fe) : FindsElements (s.check F fe) := by
  have options : FindsElements s.checkOptions := by
    cases s with
    | threshold smoothness o =>
      refine FindsElements.forM fun (parameter, value) _ => ?_
      dsimp only
      split
      · exact .ok ()
      · exact nofun
    | _ => exact .ok ()
  have lengths : FindsElements (s.lengths.forM fun x => x.1.checkLength F.leaves.length x.2) := by
    refine FindsElements.forM fun x _ => ?_
    show FindsElements (if F.leaves.length = x.2 then _ else _)
    split
    · exact .ok ()
    · exact nofun
  have indicators : FindsElements (s.checkIndicators F.leaves) := by
    cases s with
    | threshold smoothness o =>
      show FindsElements (checkFinite F.leaves smoothness)
      unfold checkFinite
      split
      · exact nofun
      · exact .ok ()
    | _ => exact .ok ()
  refine options.bind fun _ _ => ?_
  rw [Forest.checkElements_eq_ok.mpr within]
  exact lengths.bind fun _ _ => indicators

theorem within_of_check (passed : s.check F fe = .ok ()) : F.Within fe := by
  obtain ⟨_, -, passed⟩ := bind_eq_ok.mp passed
  obtain ⟨_, elements, -⟩ := bind_eq_ok.mp passed
  exact Forest.checkElements_eq_ok.mp elements

variable [RoundsTo P N]

theorem plan_eq_ok : s.plan F fe = .ok leaves ↔
    s.check F fe = .ok () ∧ ∃ mask, s.mask fe F.leaves = .ok mask ∧ qualified F.leaves mask = leaves := by
  simp only [plan, bind_eq_ok, pure, Except.pure, Except.ok.injEq]
  exact ⟨fun ⟨(), accepted⟩ => accepted, fun accepted => ⟨(), accepted⟩⟩

theorem plan_finds (within : F.Within fe) : FindsElements (s.plan F fe) := by
  refine (check_finds within).bind fun _ _ => FindsElements.bind ?_ fun _ _ => .ok _
  exact mask_finds fun l => within.element (l := l)

theorem check_of_plan (planned : s.plan F fe = .ok leaves) : s.check F fe = .ok () := (plan_eq_ok.mp planned).1

/-- Only the contract makes a plan fail. -/
theorem plan_eq_error [RoundsTo.Total P N] {e : AdaptError} : s.plan F fe = .error e ↔ s.check F fe = .error e := by
  cases checked : s.check F fe with
  | error e' => simp [plan, checked, bind, Except.bind]
  | ok passed =>
    obtain ⟨mask, masked⟩ := exists_mask_eq_ok (s := s) (fun l => (within_of_check checked).element (l := l))
    have planned : s.plan F fe = .ok (qualified F.leaves mask) := plan_eq_ok.mpr ⟨checked, mask, masked, rfl⟩
    simp [planned]

theorem mem_leaves_of_plan (planned : s.plan F fe = .ok leaves) (hl : l ∈ leaves) : l ∈ F.leaves := by
  obtain ⟨-, mask, -, rfl⟩ := plan_eq_ok.mp planned
  exact mem_of_mem_qualified hl

theorem within_of_plan (planned : s.plan F fe = .ok leaves) : F.Within fe := within_of_check (check_of_plan planned)

end

end Strategy

/-! ### Scheduling -/

namespace Leaf
variable {fe : Collection} {l : Leaf} {ids : List CellId}

/-- The markers of the leaf when the next element has been scheduled on the leaves with the given ids. -/
def scheduledOn (fe : Collection) : List CellId → Leaf → Markers :=
  markOn fun l => { l.markers with future := some (l.next fe) }

theorem scheduledOn_flag : (l.scheduledOn fe ids).flag = l.flag := by
  unfold scheduledOn markOn
  split <;> rfl

theorem scheduledOn_future {i : Nat} (valid : l.element < fe.size) (h : (l.scheduledOn fe ids).future = some i) :
    l.future = some i ∨ i < fe.size := by
  unfold scheduledOn markOn at h
  split at h
  · exact Or.inr (Option.some.inj h ▸ next_lt valid)
  · exact Or.inl h

end Leaf

namespace Forest
variable {D : Nat} {F : Forest D} {fe : Collection} {leaves : List Leaf} {l : Leaf} {id : CellId} {ids₁ ids₂ : List CellId}

theorem remark_scheduledOn : (F.remark (Leaf.scheduledOn fe ids₁)).remark (Leaf.scheduledOn fe ids₂) =
    F.remark (Leaf.scheduledOn fe (ids₁ ++ ids₂)) := remark_markOn_append fun _ => rfl

theorem setFuture_eq_ok (hl : F.leaf? id = some l) :
    F.setFuture id (l.next fe) = .ok (F.remark (Leaf.scheduledOn fe [id])) := by
  rw [setFuture, leaf_eq_ok.mpr hl]
  exact congrArg Except.ok (modify_eq_markOn hl rfl)

/-- The leaf is in the forest with the same flag and element, whatever may be scheduled on it by now. -/
def Keeps (F : Forest D) (l : Leaf) : Prop := ∃ m, F.leaf? l.id = some m ∧ m.flag = l.flag ∧ m.element = l.element

theorem Keeps.of_mem (hl : l ∈ F.leaves) : F.Keeps l := ⟨l, mem_leaves_iff.mp hl, rfl, rfl⟩

theorem Keeps.remark {f : Leaf → Markers} (keeps : F.Keeps l) (flags : ∀ m, (f m).flag = m.flag) :
    (F.remark f).Keeps l := by
  obtain ⟨m, hm, flag, element⟩ := keeps
  exact ⟨_, leaf?_remark_of_leaf? hm f, (flags m).trans flag, element⟩

theorem scheduleNeighbour_eq_ok (keeps : F.Keeps l) (valid : l.element < fe.size) :
    F.scheduleNeighbour fe l = .ok (F.remark (Leaf.scheduledOn fe [l.id]), l.assignment fe) := by
  obtain ⟨m, hm, flag, element⟩ := keeps
  rw [scheduleNeighbour, Leaf.neighbour_eq_ok valid]
  show (F.setFuture l.id (l.next fe) >>= _) = _
  have next : m.next fe = l.next fe := Leaf.next_congr flag element
  rw [← next, setFuture_eq_ok hm, Leaf.assignment, next]
  rfl

/-- Scheduling one leaf after the other is accepted, and comes to scheduling all of them at once. -/
theorem scheduleEach_accepts (each : ∀ l ∈ leaves, F.Keeps l ∧ l.element < fe.size) :
    F.scheduleEach fe leaves = .accept (F.remark (Leaf.scheduledOn fe (leaves.map (·.id))))
      (leaves.map (Leaf.assignment fe)) (leaves.map fun l => (l.assignment fe).message) := by
  induction leaves generalizing F with
  | nil =>
    have unchanged : F.remark (Leaf.scheduledOn fe []) = F := remark_markOn_nil
    rw [scheduleEach, List.map_nil, unchanged]
    rfl
  | cons l rest ih =>
    obtain ⟨keeps, valid⟩ := each l List.mem_cons_self
    have rest_accepted := ih (F := F.remark (Leaf.scheduledOn fe [l.id])) fun m hm =>
      (each m (List.mem_cons_of_mem l hm)).imp_left (·.remark fun _ => Leaf.scheduledOn_flag)
    rw [remark_scheduledOn] at rest_accepted
    simp only [scheduleEach, scheduleNeighbour_eq_ok keeps valid, rest_accepted]
    rfl

end Forest

/-! ### Accepted and refused strategies -/

namespace Strategy
variable {D : Nat} {P N : Type} {F : Forest D} {fe : Collection} {s : Strategy P N} {leaves : List Leaf}
  [Scalar P] [Scalar N] [RoundsTo P N]

theorem apply_of_plan_error {e : AdaptError} (planned : s.plan F fe = .error e) : s.apply F fe = .refuse F e [] := by
  rw [apply, planned]

/-- A strategy schedules the next element on the leaves of its plan and reports them. -/
theorem apply_of_plan (planned : s.plan F fe = .ok leaves) :
    (s.apply F fe).answer = .ok (Assignment.report (leaves.map (Leaf.assignment fe))) ∧
      (s.apply F fe).forest = F.remark (Leaf.scheduledOn fe (leaves.map (·.id))) := by
  have each : ∀ l ∈ leaves, F.Keeps l ∧ l.element < fe.size := fun l hl =>
    ⟨.of_mem (mem_leaves_of_plan planned hl), (within_of_plan planned).element (mem_leaves_of_plan planned hl)⟩
  have accepted := Forest.scheduleEach_accepts each
  simp only [apply, planned, Outcome.andThen, Outcome.accept, accepted, and_self]

theorem apply_answer :
    (s.apply F fe).answer = (s.plan F fe).map fun leaves => Assignment.report (leaves.map (Leaf.assignment fe)) := by
  cases planned : s.plan F fe with
  | error e => rw [apply_of_plan_error planned]; rfl
  | ok leaves => rw [(apply_of_plan planned).1]; rfl

theorem plan_of_apply {report : AssignmentReport} (accepted : (s.apply F fe).answer = .ok report) :
    ∃ leaves, s.plan F fe = .ok leaves := by
  cases planned : s.plan F fe with
  | ok leaves => exact ⟨leaves, rfl⟩
  | error e =>
    rw [apply_of_plan_error planned] at accepted
    cases accepted

theorem check_of_apply {report : AssignmentReport} (accepted : (s.apply F fe).answer = .ok report) :
    s.check F fe = .ok () := by
  obtain ⟨leaves, planned⟩ := plan_of_apply accepted
  exact check_of_plan planned

theorem apply_eq_error [RoundsTo.Total P N] {e : AdaptError} :
    (s.apply F fe).answer = .error e ↔ s.check F fe = .error e := by
  rw [← plan_eq_error, apply_answer]
  cases s.plan F fe <;> simp [Except.map]

/-- The cells on which a strategy schedules an element, in order; none when it is refused. -/
def picked (s : Strategy P N) (F : Forest D) (fe : Collection) : List CellId :=
  match s.plan F fe with
  | .ok leaves => leaves.map (·.id)
  | .error _ => []

theorem apply_forest : (s.apply F fe).forest = F.remark (Leaf.scheduledOn fe (s.picked F fe)) := by
  cases planned : s.plan F fe with
  | error e =>
    rw [apply_of_plan_error planned, picked, planned]
    exact Forest.remark_markOn_nil.symm
  | ok leaves => rw [(apply_of_plan planned).2, picked, planned]

theorem apply_finds (within : F.Within fe) : FindsElements (s.apply F fe).answer := by
  rw [apply_answer]
  exact (plan_finds within).map _

end Strategy
end HpForest
