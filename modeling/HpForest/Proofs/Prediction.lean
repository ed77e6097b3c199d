import HpForest.Prediction
import HpForest.Proofs.Cycle
import HpForest.Proofs.Strategy
import Mathlib.Algebra.Field.Rat
import Mathlib.Tactic.Ring

/-! # What a prediction says of the execution

The markers of a leaf announce a fate, and the prediction reads the fate off them. An execution that
follows a decision gives each leaf the announced fate, with one exception: a coarsen flag that is stray
announces a merge, but the execution drops it and leaves the leaf unchanged. -/

namespace HpForest

/-! ### Powers of rationals -/

namespace Scalar
variable {acc x : Rat}

theorem one_rat : (one : Rat) = 1 := rfl

theorem mul_digit (m : Nat) : (if m % 2 = 1 then acc * x else acc) = acc * x ^ (m % 2) := by
  rcases Nat.mod_two_eq_zero_or_one m with even | odd
  · simp [even]
  · simp [odd]

theorem mulPow_rat (m : Nat) : mulPow acc x m = acc * x ^ m := by
  fun_induction mulPow acc x m with
  | case1 acc x m acc' last =>
    have digit : m % 2 = m := Nat.mod_eq_of_lt (by omega)
    exact (mul_digit m).trans (by rw [digit])
  | case2 acc x m acc' more ih =>
    calc mulPow acc' (x * x) (m / 2)
      _ = acc' * (x * x) ^ (m / 2) := ih
      _ = acc * x ^ (m % 2) * (x ^ 2) ^ (m / 2) := by rw [← sq]; congr 1; exact mul_digit m
      _ = acc * x ^ (m % 2 + 2 * (m / 2)) := by rw [← pow_mul, mul_assoc, ← pow_add]
      _ = acc * x ^ m := by rw [Nat.mod_add_div]

theorem powi_rat (n : Int) : powi x n = x ^ n := by
  rw [powi, mulPow_rat, one_rat, one_mul]
  cases n with
  | ofNat m => simp
  | negSucc m => simp

end Scalar

theorem half_rat : (half : Rat) = 1 / 2 := by
  rw [half, Scalar.one_rat, one_add_one_eq_two]

/-! ### Fates -/

/-- What becomes of a leaf in an execution. -/
inductive Fate
  | split
  | merged
  /-- The leaf stays, with another element in use. -/
  | switched
  | unchanged
deriving DecidableEq, Repr

/-- The fate that the markers of a leaf announce. -/
def Leaf.announced (l : Leaf) : Fate :=
  match l.flag with
  | .refine => .split
  | .coarsen => .merged
  | .none => if l.switches then .switched else .unchanged

namespace Forest
variable {D : Nat} {F G : Forest D} {fe : Collection} {id p : CellId} {c : Cell} {l : Leaf}

/-- The fate of a leaf, read off the forest after the execution. -/
def fate (G : Forest D) (l : Leaf) : Fate :=
  match G.cell? l.id with
  | none => .merged
  | some c => if c.isActive then if c.element = l.element then .unchanged else .switched else .split

/-- A leaf that is not scheduled twice meets its announced fate, but for a stray flag. -/
theorem Executed.fate_eq (e : Executed F G) (h : F.Linked) (hl : F.leaf? id = some l)
    (single : l.markers.conflicted = false) :
    G.fate l = if F.strayCoarsen l then .unchanged else l.announced := by
  obtain rfl := leaf?_id hl
  rcases e.leaf_cases h hl with ⟨flag, hG⟩ | ⟨⟨unsplit, apart⟩, hG⟩ | ⟨⟨flag, p, hp, merges⟩, hG⟩
  · have kept : F.strayCoarsen l = false := by simp [strayCoarsen, flag]
    simp [fate, hG, Cell.isActive, kept, Leaf.announced, flag]
  · cases flag : l.flag with
    | refine => exact absurd flag unsplit
    | none =>
      have kept : F.strayCoarsen l = false := by simp [strayCoarsen, flag]
      simp [fate, hG, Cell.isActive, kept, Leaf.announced, flag, Leaf.switches]
    | coarsen =>
      have unscheduled : l.future = none := by
        simpa [Markers.conflicted, show l.markers.flag = .coarsen from flag, Leaf.future] using single
      have stray : F.strayCoarsen l = true := by
        by_contra kept
        obtain ⟨p, hp, merges⟩ := h.merges_of_not_stray hl flag (Bool.eq_false_iff.mpr kept)
        exact apart p hp merges
      simp [fate, hG, Cell.isActive, stray, Leaf.target, unscheduled]
  · have kept := merges.not_stray hp
    simp [fate, hG, kept, Leaf.announced, flag]

theorem announced_of_stray (stray : F.strayCoarsen l = true) : l.announced = .merged := by
  rw [Leaf.announced, (strayCoarsen_iff.mp stray).1]

theorem Executed.isActive_of_fate_merged (e : Executed F G) (h : F.Linked) (hl : F.leaf? id = some l)
    (merged : G.fate l = .merged) : ∃ p, l.parent = some p ∧ G.isActive p = true := by
  obtain rfl := leaf?_id hl
  rcases e.leaf_cases h hl with ⟨-, hG⟩ | ⟨-, hG⟩ | ⟨⟨-, p, hp, merges⟩, -⟩
  · simp [fate, hG, Cell.isActive] at merged
  · simp only [fate, hG, Cell.isActive, if_true] at merged
    split at merged <;> cases merged
  · obtain ⟨c, hc, -⟩ := id merges
    exact ⟨p, hp, isActive_iff.mpr ⟨_, e.merged merges hc, rfl⟩⟩

end Forest

/-! ### Predictions -/

/-- The prediction for a leaf of the given fate, where `k` is the degree of its element after the execution
and `p` that of the element in use. -/
def PredictionOptions.forecast (o : PredictionOptions Rat) (k p : UInt32) (error : Rat) : Fate → Rat
  | .split => error * o.gammaH * (1 / 2) ^ k.toNat
  | .merged => error / (o.gammaH * (1 / 2) ^ k.toNat)
  | .switched => error * o.gammaP ^ ((k.toNat : Int) - p.toNat)
  | .unchanged => error * o.gammaN

theorem degreeExponent_eq_ok {k : UInt32} {n : Int} (h : degreeExponent k = .ok n) : n = k.toNat := by
  unfold degreeExponent at h
  split at h
  · exact (Except.ok.inj h).symm
  · cases h

theorem Leaf.predict_eq_ok {l : Leaf} {fe : Collection} {o : PredictionOptions Rat} {error value : Rat} {p : UInt32}
    (h : l.predict fe o error = .ok value) (used : fe.degree l.element = .ok p) :
    ∃ k, fe.degree l.target = .ok k ∧ value = o.forecast k p error l.announced := by
  obtain ⟨k, degree, h⟩ := bind_eq_ok.mp h
  obtain ⟨n, exponent, h⟩ := bind_eq_ok.mp h
  obtain rfl := degreeExponent_eq_ok exponent
  refine ⟨k, degree, ?_⟩
  simp only [Scalar.powi_rat, half_rat, zpow_natCast] at h
  cases flag : l.flag with
  | refine =>
    have fate : l.announced = .split := by rw [announced, flag]
    rw [flag] at h
    rw [fate, ← Except.ok.inj h]
    exact (mul_assoc _ _ _).symm
  | coarsen =>
    have fate : l.announced = .merged := by rw [announced, flag]
    rw [flag] at h
    rw [fate, ← Except.ok.inj h]
    rfl
  | none =>
    have fate : l.announced = if l.switches then .switched else .unchanged := by rw [announced, flag]
    rw [flag] at h
    rw [fate]
    by_cases switches : l.switches = true
    · simp only [if_pos switches] at h
      obtain ⟨_, element, h⟩ := bind_eq_ok.mp h
      obtain rfl := Except.ok.inj (used.symm.trans element)
      obtain ⟨m, exponent, h⟩ := bind_eq_ok.mp h
      rw [if_pos switches, ← Except.ok.inj h, degreeExponent_eq_ok exponent]
      rfl
    · simp only [if_neg switches] at h
      rw [if_neg switches, ← Except.ok.inj h]
      rfl

namespace Forest
variable {D : Nat} {P N Q : Type} {F : Forest D} {fe : Collection} {l : Leaf} {i : Nat}

section
variable [Scalar N] [Scalar Q] [RoundsTo Q N] {errors values : List N} {o : PredictionOptions Q}

theorem predictError_eq_ok (h : (F.predictError fe errors o).answer = .ok values) :
    F.leaves.length = errors.length ∧ ∃ r : PredictionOptions N, o.rounded = .ok r ∧
      List.Forall₂ (fun (l, error) value => l.predict fe r error = .ok value) (F.leaves.zip errors) values := by
  obtain ⟨-, -, h⟩ := bind_eq_ok.mp h
  obtain ⟨-, -, h⟩ := bind_eq_ok.mp h
  obtain ⟨_, lengths, h⟩ := bind_eq_ok.mp h
  obtain ⟨r, rounded, h⟩ := bind_eq_ok.mp h
  refine ⟨?_, r, rounded, mapM_eq_ok.mp h⟩
  unfold CellVector.checkLength at lengths
  split at lengths
  · assumption
  · cases lengths

end

section
variable [Scalar P] [Scalar N] [RoundsTo P N] [Scalar Q] [RoundsTo Q Rat]
  {s : Strategy P N} {d : Decision} {adapted : HpSummary} {summary : ExecutionSummary} {errors values : List Rat}
  {o : PredictionOptions Q}

theorem hpAdapt_single (h : F.Linked) (done : (F.hpAdapt fe s d).answer = .ok adapted)
    (hl : l ∈ (F.hpAdapt fe s d).forest.leaves) : l.markers.conflicted = false := by
  rw [(hpAdapt_eq_ok h done).1] at hl
  exact ((SameLinks.apply s fe).linked h).single_of_decided d l hl

/-- A cycle that schedules nothing and finds no leaf scheduled twice leaves the forest as it is. -/
theorem hpAdapt_idle (h : F.Linked) (idle : s.plan F fe = .ok [])
    (single : ∀ l ∈ F.leaves, l.markers.conflicted = false) :
    (∃ adapted, (F.hpAdapt fe s d).answer = .ok adapted) ∧ (F.hpAdapt fe s d).forest = F := by
  obtain ⟨applied, scheduled⟩ := Strategy.apply_of_plan idle
  have untouched : (s.apply F fe).forest = F := scheduled.trans remark_markOn_nil
  obtain ⟨adapted, done⟩ := hpAdapt_accepts (d := d) h applied
  refine ⟨⟨adapted, done⟩, ?_⟩
  rw [(hpAdapt_eq_ok h done).1, untouched, h.remark_decided single]

/-- A prediction between a decision and the execution foresees what becomes of each leaf. Only a leaf with a
stray coarsen flag, which the execution leaves unchanged, is predicted as if it were merged. -/
theorem predictError_foresees (reached : Reachable F) (adapts : (F.hpAdapt fe s d).answer = .ok adapted)
    (predicts : ((F.hpAdapt fe s d).forest.predictError fe errors o).answer = .ok values)
    (executes : ((F.hpAdapt fe s d).forest.execute fe).answer = .ok summary) :
    let G := (F.hpAdapt fe s d).forest
    let H := (G.execute fe).forest
    ∃ r : PredictionOptions Rat, o.rounded = .ok r ∧ values.length = G.leaves.length ∧
      ∀ (i : Nat) (l : Leaf), G.leaves[i]? = some l →
        ∃ error k p, errors[i]? = some error ∧ fe.degree l.target = .ok k ∧ fe.degree l.element = .ok p ∧
          values[i]? = some (r.forecast k p error (if G.strayCoarsen l then .merged else H.fate l)) ∧
          (G.strayCoarsen l = true → H.fate l = .unchanged) ∧
          (H.fate l = .merged → ∃ q, l.parent = some q ∧ H.isActive q = true) := by
  intro G H
  have linked : G.Linked := reached.linked.hpAdapt fe s d
  obtain ⟨within, executed⟩ := execute_eq_ok linked executes
  obtain ⟨lengths, r, rounded, each⟩ := predictError_eq_ok predicts
  have count : values.length = G.leaves.length := by
    rw [← each.length_eq, List.length_zip, ← lengths, Nat.min_self]
  refine ⟨r, rounded, count, fun i l hl => ?_⟩
  have member : l ∈ G.leaves := List.mem_of_getElem? hl
  have hl' : G.leaf? l.id = some l := mem_leaves_iff.mp member
  have fate := executed.fate_eq linked hl' (hpAdapt_single reached.linked adapts member)
  obtain ⟨p, used⟩ := Collection.degree_eq_ok (within l member l.element List.mem_cons_self)
  obtain ⟨bound, rfl⟩ := List.getElem?_eq_some_iff.mp hl
  have inside : i < values.length := Nat.lt_of_lt_of_eq bound count.symm
  have predicted := each.get (i := i) (Nat.lt_of_lt_of_eq inside each.length_eq.symm) inside
  simp only [List.get_eq_getElem, List.getElem_zip] at predicted
  obtain ⟨k, degree, value⟩ := Leaf.predict_eq_ok predicted used
  refine ⟨errors[i], k, p, List.getElem?_eq_getElem _, degree, used, ?_, fun stray => ?_, fun merged => ?_⟩
  · rw [List.getElem?_eq_getElem inside, value, fate]
    cases stray : G.strayCoarsen G.leaves[i] with
    | true => rw [announced_of_stray stray, if_pos rfl]
    | false => rw [if_neg Bool.false_ne_true, if_neg Bool.false_ne_true]
  · rw [fate, if_pos stray]
  · exact executed.isActive_of_fate_merged linked hl' merged

end

def flaggedRoot : Forest 2 := after ([.addRoot 1, .setFlag ⟨0⟩ .coarsen] : List (Operation Rat Rat))

/-- The root is predicted as if it were merged, and it is left unchanged. -/
theorem flaggedRoot_mispredicted : Reachable flaggedRoot ∧
    (∃ adapted, (flaggedRoot.hpAdapt .twoElements (.flags [false] : Strategy Rat Rat) .forceP).answer = .ok adapted) ∧
    (flaggedRoot.hpAdapt .twoElements (.flags [false] : Strategy Rat Rat) .forceP).forest = flaggedRoot ∧
    (flaggedRoot.predictError .twoElements [1] (⟨1 / 2, 2, 1⟩ : PredictionOptions Rat)).answer = .ok [(2 : Rat)] ∧
    (flaggedRoot.execute .twoElements).answer = .ok ⟨0, 0, 0, 1⟩ ∧
    flaggedRoot.leaves = [⟨⟨0⟩, 0, none, 1, ⟨.coarsen, none⟩⟩] ∧ Collection.twoElements.degree 1 = .ok 2 ∧
    (flaggedRoot.execute .twoElements).forest.fate ⟨⟨0⟩, 0, none, 1, ⟨.coarsen, none⟩⟩ = .unchanged ∧
    (2 : Rat) ≠ PredictionOptions.forecast ⟨1 / 2, 2, 1⟩ 2 2 1 .unchanged := by
  have reached : Reachable flaggedRoot := .after _
  have idle : (.flags [false] : Strategy Rat Rat).plan flaggedRoot .twoElements = .ok [] := rfl
  obtain ⟨adapts, same⟩ := hpAdapt_idle (d := .forceP) reached.linked idle (by decide)
  refine ⟨reached, adapts, same, ?_, ?_, rfl, rfl, ?_, ?_⟩
  · decide +kernel
  · decide +kernel
  · decide +kernel
  · norm_num [PredictionOptions.forecast]

/-- A group to be merged, then roots to be split, to be switched, without markers, and with a stray flag. -/
def allFates : Forest 1 := after ([.addRoot 0, .refineCell ⟨0⟩, .setFlag ⟨1⟩ .coarsen, .setFlag ⟨2⟩ .coarsen,
  .addRoot 0, .setFlag ⟨3⟩ .refine, .addRoot 0, .setFuture ⟨4⟩ 1, .addRoot 0, .addRoot 0,
  .setFlag ⟨6⟩ .coarsen] : List (Operation Rat Rat))

theorem allFates_eq : allFates = ⟨#[some ⟨0, none, 0, .split [⟨1⟩, ⟨2⟩]⟩,
    some ⟨1, some ⟨0⟩, 0, .active ⟨.coarsen, none⟩⟩, some ⟨1, some ⟨0⟩, 0, .active ⟨.coarsen, none⟩⟩,
    some ⟨0, none, 0, .active ⟨.refine, none⟩⟩, some ⟨0, none, 0, .active ⟨.none, some 1⟩⟩,
    some ⟨0, none, 0, .active {}⟩, some ⟨0, none, 0, .active ⟨.coarsen, none⟩⟩]⟩ := by decide +kernel

theorem allFates_foreseen : Reachable allFates ∧
    let s : Strategy Rat Rat := .flags [false, false, false, false, false, false]
    let G := (allFates.hpAdapt .twoElements s .chooseP).forest
    ∃ adapted summary, (allFates.hpAdapt .twoElements s .chooseP).answer = .ok adapted ∧
      (G.predictError .twoElements [1, 1, 1, 1, 1, 1] (⟨1 / 2, 4, 3⟩ : PredictionOptions Rat)).answer =
        .ok [(1 / 2 : Rat), 1 / 2, 2, 1 / 2, 3, 1 / 2] ∧
      (G.execute .twoElements).answer = .ok summary ∧
      (G.execute .twoElements).forest.fate ⟨⟨6⟩, 0, none, 0, ⟨.coarsen, none⟩⟩ = .unchanged := by
  refine ⟨.after _, ?_⟩
  intro s G
  have reached : Reachable allFates := .after _
  have idle : s.plan allFates .twoElements = .ok [] := by
    rw [allFates_eq]
    decide +kernel
  have single : ∀ l ∈ allFates.leaves, l.markers.conflicted = false := by
    rw [allFates_eq]
    decide
  obtain ⟨⟨adapted, adapts⟩, (same : G = allFates)⟩ := hpAdapt_idle (d := .chooseP) reached.linked idle single
  have predicts : (G.predictError .twoElements [1, 1, 1, 1, 1, 1] (⟨1 / 2, 4, 3⟩ : PredictionOptions Rat)).answer =
      .ok [(1 / 2 : Rat), 1 / 2, 2, 1 / 2, 3, 1 / 2] := by
    rw [same, allFates_eq]
    decide +kernel
  have executes : (G.execute .twoElements).answer = .ok ⟨1, 1, 1, 1⟩ := by
    rw [same, allFates_eq]
    decide +kernel
  have last : G.leaves[5]? = some ⟨⟨6⟩, 0, none, 0, ⟨.coarsen, none⟩⟩ := by
    rw [same, allFates_eq]
    rfl
  have stray : G.strayCoarsen ⟨⟨6⟩, 0, none, 0, ⟨.coarsen, none⟩⟩ = true := by
    rw [same, allFates_eq]
    rfl
  obtain ⟨_, -, -, foreseen⟩ := predictError_foresees reached adapts predicts executes
  obtain ⟨_, _, _, -, -, -, -, unchanged, -⟩ := foreseen 5 _ last
  exact ⟨adapted, _, adapts, predicts, executes, unchanged stray⟩

end Forest

end HpForest
