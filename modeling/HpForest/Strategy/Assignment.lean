import HpForest.Forest.Execution
import HpForest.Forest.Marking
import HpForest.Strategy.Threshold

/-!
# Scheduling elements

`Strategy.apply` checks the strategy's whole contract, decides which flagged cells qualify, and
schedules, cell by cell, the superordinate element on those flagged for refinement and the subordinate
one on those flagged for coarsening.
-/

namespace HpForest

structure AssignmentReport where
  /-- Cells flagged for refinement that were given their superordinate element. -/
  pRefined : Nat
  /-- Cells flagged for coarsening that were given their subordinate element. -/
  pCoarsened : Nat
deriving DecidableEq, Repr

namespace AssignmentReport

def total (r : AssignmentReport) : Nat := r.pRefined + r.pCoarsened

def text (r : AssignmentReport) : String := s!"{r.pRefined} p-refined, {r.pCoarsened} p-coarsened"

end AssignmentReport

/-- A flagged leaf and the element scheduled on it. -/
structure Assignment where
  leaf : Leaf
  index : Nat
deriving DecidableEq, Repr

namespace Assignment

def message (a : Assignment) : Message :=
  let kind := if a.leaf.flag = .refine then "refinement" else "coarsening"
  ⟨.trace, s!"cell {a.leaf.id}: p {kind} to fe {a.index}"⟩

/-- The counts of a list of assignments. -/
def report (assignments : List Assignment) : AssignmentReport :=
  ⟨assignments.countP fun a => a.leaf.flag = .refine,
    assignments.countP fun a => a.leaf.flag = .coarsen⟩

end Assignment

/-- The element next to the leaf's own in the direction of its flag. -/
def Leaf.neighbour (fe : Collection) (l : Leaf) : Except AdaptError Nat :=
  match l.flag with
  | .none => .ok l.element
  | .refine => fe.superordinate l.element
  | .coarsen => fe.subordinate l.element

/-- One verdict per leaf; a leaf without an h flag does not qualify. -/
def judge {α : Type} (leaves : List Leaf) (xs : List α)
    (verdict : Leaf → α → Except AdaptError Bool) : Except AdaptError (List Bool) :=
  (leaves.zip xs).mapM fun (l, x) => if l.flag = .none then .ok false else verdict l x

def qualified (leaves : List Leaf) (mask : List Bool) : List Leaf :=
  ((leaves.zip mask).filter fun (l, q) => q ∧ l.flag ≠ .none).map Prod.fst

namespace Forest

variable {D : Nat}

/-- Schedules on a leaf the element next to its own. -/
def scheduleNeighbour (F : Forest D) (fe : Collection) (l : Leaf) :
    Except AdaptError (Forest D × Assignment) := do
  let index ← l.neighbour fe
  let G ← F.setFuture l.id index
  return (G, ⟨l, index⟩)

/-- Schedules elements leaf by leaf until one is refused. What was scheduled before it stays. -/
def scheduleEach (fe : Collection) : List Leaf → Forest D → Outcome D (List Assignment)
  | [], F => .accept F [] []
  | l :: rest, F =>
    match F.scheduleNeighbour fe l with
    | .error e => .refuse F e []
    | .ok (G, a) =>
      let r := scheduleEach fe rest G
      { r with answer := r.answer.map (a :: ·), log := a.message :: r.log }

end Forest

namespace Strategy

variable {D : Nat} {P N : Type} [Scalar P] [Scalar N] [RoundsTo P N]

def checkOptions : Strategy P N → Except AdaptError Unit
  | threshold _ options => options.check
  | _ => .ok ()

/-- Refuses indicators that the strategy cannot compare. -/
def checkIndicators (leaves : List Leaf) : Strategy P N → Except AdaptError Unit
  | threshold smoothness _ => checkFinite leaves smoothness
  | _ => .ok ()

/-- The whole contract: parameters, the element indices of the forest, lengths, indicators. -/
def check (s : Strategy P N) (F : Forest D) (fe : Collection) : Except AdaptError Unit := do
  s.checkOptions
  F.checkElements fe
  s.lengths.forM fun (v, found) => v.checkLength F.leaves.length found
  s.checkIndicators F.leaves

/-- Whether the regularity of a flagged leaf supports its neighbouring element: it exceeds the
degree to be reached by refinement, or falls short of the one to be reached by coarsening. -/
def supports (fe : Collection) (l : Leaf) (regularity : N) : Except AdaptError Bool := do
  let degree ← fe.degree (← l.neighbour fe)
  let reached ← orRefuse (Scalar.ofDegree? degree) (.degreeTooLarge degree)
  return match l.flag with
    | .none => false
    | .refine => Scalar.lt reached regularity
    | .coarsen => Scalar.lt regularity reached

/-- Which leaves qualify, for inputs that meet the contract. -/
def mask (fe : Collection) (leaves : List Leaf) : Strategy P N → Except AdaptError (List Bool)
  | full => judge leaves leaves fun _ _ => .ok true
  | flags selected => judge leaves selected fun _ q => .ok q
  | threshold smoothness options => do
    let cutoffs ← Cutoffs.ofLeaves options leaves smoothness
    judge leaves smoothness fun l x => .ok (cutoffs.passes l.flag x)
  | regularity sobolev => judge leaves sobolev (supports fe)
  | prediction errors predictions =>
    judge leaves (errors.zip predictions) fun _ (error, predicted) =>
      .ok (Scalar.lt error predicted)

/-- A warning for each class whose indicators coincide. -/
def warnings (leaves : List Leaf) : Strategy P N → List Message
  | threshold smoothness options =>
    match Cutoffs.ofLeaves options leaves smoothness with
    | .error _ => []
    | .ok cutoffs => cutoffs.degenerateClasses.map fun name =>
      ⟨.warn, s!"smoothness indicators of all {name}-flagged cells coincide; all qualify"⟩
  | _ => []

def summary (s : Strategy P N) (r : AssignmentReport) : Message :=
  ⟨.debug, s!"{s.title}: {r.text}"⟩

/-- The leaves that are to change their element, once the inputs are found to meet the contract. -/
def plan (s : Strategy P N) (F : Forest D) (fe : Collection) : Except AdaptError (List Leaf) := do
  s.check F fe
  let mask ← s.mask fe F.leaves
  return qualified F.leaves mask

def apply (s : Strategy P N) (F : Forest D) (fe : Collection) : Outcome D AssignmentReport :=
  match s.plan F fe with
  | .error e => .refuse F e []
  | .ok leaves =>
    (Outcome.accept F () (s.warnings F.leaves)).andThen fun _ F =>
      (F.scheduleEach fe leaves).andThen fun assignments G =>
      let report := Assignment.report assignments
      .accept G report [s.summary report]

end Strategy

end HpForest
