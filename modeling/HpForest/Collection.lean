import HpForest.Error

/-!
# Collections of finite elements

A collection is a non-empty list of elements whose degrees never decrease. The element after another
is its superordinate, the target of p refinement; the one before is its subordinate, the target of p
coarsening. At the two ends an element is its own neighbour.

`Collection.ofList?` and `Collection.push` are the ways to build one; both report the first degree
that is lower than the one before it.
-/

namespace HpForest

/-- A finite element, told by its name and the degree of its polynomials. -/
structure Element where
  name : String
  degree : UInt32
deriving DecidableEq, Repr

/-- An element of a lower degree than the element before it. -/
structure Descent where
  index : Nat
  degree : UInt32
  previous : UInt32
deriving DecidableEq, Repr

namespace Descent

def error (d : Descent) : AdaptError := .decreasingDegree d.index d.degree d.previous

/-- The first descent in a list whose first element has index `start`. -/
def first? (start : Nat) : List Element → Option Descent
  | [] => none
  | [_] => none
  | a :: b :: rest =>
    if b.degree < a.degree then some ⟨start + 1, b.degree, a.degree⟩
    else first? (start + 1) (b :: rest)

/-- Without a descent between neighbours the degrees are ordered throughout. -/
theorem pairwise_of_first?_eq_none {start : Nat} {xs : List Element}
    (h : first? start xs = none) : xs.Pairwise (·.degree ≤ ·.degree) := by
  induction xs generalizing start with
  | nil => exact .nil
  | cons a rest ih =>
    cases rest with
    | nil => exact List.pairwise_singleton _ _
    | cons b rest =>
      simp only [first?] at h
      split at h
      · exact absurd h (by simp)
      · next hba =>
        have tail := ih h
        have hab : a.degree ≤ b.degree := UInt32.not_lt.mp hba
        refine List.pairwise_cons.mpr ⟨fun x hx => ?_, tail⟩
        rcases List.mem_cons.mp hx with rfl | hx
        · exact hab
        · exact UInt32.le_trans hab ((List.pairwise_cons.mp tail).1 x hx)

end Descent

/-- Elements of ascending degree; the degree may repeat. -/
structure Collection where
  elements : List Element
  nonempty : elements ≠ []
  ordered : elements.Pairwise (·.degree ≤ ·.degree)

instance : DecidableEq Collection := fun a b =>
  if h : a.elements = b.elements then
    isTrue (by cases a; cases b; simp_all)
  else isFalse fun e => h (congrArg Collection.elements e)

namespace Collection

/-- A list as a collection, refused when it is empty or at its first descent. -/
def ofList? (elements : List Element) : Except AdaptError Collection :=
  if nonempty : elements = [] then .error .emptyCollection
  else
    match h : Descent.first? 0 elements with
    | some d => .error d.error
    | none => .ok ⟨elements, nonempty, Descent.pairwise_of_first?_eq_none h⟩

/-- The elements `FE_Q(k)` of the given degrees. -/
def ofDegrees? (degrees : List UInt32) : Except AdaptError Collection :=
  ofList? (degrees.map fun k => ⟨s!"FE_Q({k})", k⟩)

def size (fe : Collection) : Nat := fe.elements.length

def isEmpty (fe : Collection) : Bool := fe.elements.isEmpty

def contains (fe : Collection) (i : Nat) : Bool := i < fe.size

/-- Looks for the defects that `ofList?` refuses. -/
def check (fe : Collection) : Except AdaptError Unit :=
  if fe.elements = [] then .error .emptyCollection
  else
    match Descent.first? 0 fe.elements with
    | some d => .error d.error
    | none => .ok ()

def last (fe : Collection) : Element := fe.elements.getLast fe.nonempty

theorem degree_le_last (fe : Collection) {x : Element} (hx : x ∈ fe.elements) :
    x.degree ≤ fe.last.degree := by
  have split := List.dropLast_concat_getLast fe.nonempty
  have ordered := fe.ordered
  rw [← split] at ordered hx
  rcases List.mem_append.mp hx with hx | hx
  · exact (List.pairwise_append.mp ordered).2.2 x hx _ (List.mem_singleton.mpr rfl)
  · rw [List.mem_singleton.mp hx]
    exact UInt32.le_refl _

/-- Appends an element of at least the last degree. -/
def push (fe : Collection) (x : Element) : Except AdaptError Collection :=
  if h : x.degree < fe.last.degree then
    .error (.decreasingDegree fe.size x.degree fe.last.degree)
  else
    .ok {
      elements := fe.elements ++ [x]
      nonempty := by simp
      ordered := by
        refine List.pairwise_append.mpr ⟨fe.ordered, List.pairwise_singleton _ _, ?_⟩
        intro a ha b hb
        rw [List.mem_singleton.mp hb]
        exact UInt32.le_trans (fe.degree_le_last ha) (UInt32.not_lt.mp h) }

/-- A push onto a collection that stays as it is when the element is refused: the index of the element,
with the collection as it then stands. -/
def pushOrKeep (fe : Collection) (x : Element) : Except AdaptError Nat × Collection :=
  match fe.push x with
  | .ok grown => (.ok fe.size, grown)
  | .error e => (.error e, fe)

def checkIndex (fe : Collection) (i : Nat) : Except AdaptError Unit :=
  if fe.contains i then .ok () else .error (.invalidElement i fe.size)

def get (fe : Collection) (i : Nat) : Except AdaptError Element :=
  match fe.elements[i]? with
  | some x => .ok x
  | none => .error (.invalidElement i fe.size)

def degree (fe : Collection) (i : Nat) : Except AdaptError UInt32 :=
  (fe.get i).map (·.degree)

/-- The next element up; the last one is its own superordinate. -/
def superordinate (fe : Collection) (i : Nat) : Except AdaptError Nat :=
  (fe.checkIndex i).map fun _ => min (i + 1) (fe.size - 1)

/-- The next element down; the first one is its own subordinate. -/
def subordinate (fe : Collection) (i : Nat) : Except AdaptError Nat :=
  (fe.checkIndex i).map fun _ => i - 1

end Collection

end HpForest
