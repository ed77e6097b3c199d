import HpForest.Json.Collection
import HpForest.Proofs.Collection
import Mathlib.Data.List.Forall2

/-! # Stored collections

`Element.StoredAs` and `Element.ListStoredAs` say which values store an element and a list of elements, by the members
that they have and not by how they are read. Reading accepts exactly the values that store a list which is a
collection, so what is read has passed the same check as any other collection, and what is written is read back. -/

namespace HpForest

/-! ### Values -/

namespace Json

/-- No object within the value has two members of the same key. -/
inductive Distinct : Json → Prop
  | null : Distinct .null
  | bool (b : Bool) : Distinct (.bool b)
  | int (n : Int) : Distinct (.int n)
  | real (x : Float) : Distinct (.real x)
  | string (s : String) : Distinct (.string s)
  | array {items : List Json} : (∀ j ∈ items, Distinct j) → Distinct (.array items)
  | object {members : List (String × Json)} :
    (members.map Prod.fst).Nodup → (∀ m ∈ members, Distinct m.2) → Distinct (.object members)

variable {members : List (String × Json)} {key s : String} {j value : Json} {k : UInt32}

theorem field?_eq_some (keys : (members.map Prod.fst).Nodup) :
    (object members).field? key = some value ↔ (key, value) ∈ members := by
  constructor
  · intro found
    obtain ⟨before, after, rfl, -⟩ := List.lookup_eq_some_iff.mp found
    exact List.mem_append_right before List.mem_cons_self
  · intro present
    obtain ⟨before, after, rfl⟩ := List.append_of_mem present
    refine List.lookup_eq_some_iff.mpr ⟨before, after, rfl, fun m earlier => bne_iff_ne.mpr fun same => ?_⟩
    rw [List.map_append, List.map_cons, List.nodup_append] at keys
    exact keys.2.2 _ (List.mem_map_of_mem earlier) _ List.mem_cons_self same.symm

theorem string?_eq_some : j.string? = some s ↔ j = .string s := by
  cases j <;> simp [string?]

theorem nat?_eq_some {n : Nat} : j.nat? = some n ↔ j = .int n := by
  cases j with
  | int m =>
    cases m with
    | ofNat m => constructor <;> rintro ⟨⟩ <;> rfl
    | negSucc m => simp [nat?]
  | _ => simp [nat?]

theorem array?_eq_some {items : List Json} : j.array? = some items ↔ j = .array items := by
  cases j <;> simp [array?]

/-- A word is read from the whole number that it is, and so from no number out of its range. -/
theorem word?_eq_some : j.word? = some k ↔ j = .int k.toNat := by
  constructor
  · intro read
    obtain ⟨n, whole, read⟩ := Option.bind_eq_some_iff.mp read
    split at read
    · next small =>
      cases read
      rw [nat?_eq_some.mp whole, UInt32.toNat_ofNat_of_lt' small]
    · cases read
  · rintro rfl
    simp [word?, nat?, k.toNat_lt]

end Json

/-! ### Stored elements -/

namespace Element
variable {x : Element} {xs : List Element} {j : Json}

/-- The values that store an element: an object with a member for the name and one for the degree, whatever else it has,
or the list of the two. -/
inductive StoredAs (x : Element) : Json → Prop
  | object {members : List (String × Json)} : ("name", .string x.name) ∈ members →
    ("degree", .int x.degree.toNat) ∈ members → x.StoredAs (.object members)
  | array : x.StoredAs (.array [.string x.name, .int x.degree.toNat])

/-- The values that store a list of elements: the lists of values that store them in order. -/
def ListStoredAs (xs : List Element) (j : Json) : Prop :=
  ∃ items, j = .array items ∧ List.Forall₂ (fun item x => x.StoredAs item) items xs

theorem ofJson?_eq_some (distinct : j.Distinct) : ofJson? j = some x ↔ x.StoredAs j := by
  constructor
  · intro read
    unfold ofJson? at read
    split at read
    · next members =>
      cases distinct with
      | object keys _ =>
        simp only [Option.bind_eq_bind, Option.bind_eq_some_iff, Json.field?_eq_some keys, Json.string?_eq_some,
          Json.word?_eq_some] at read
        obtain ⟨_, name, s, rfl, _, degree, k, rfl, read⟩ := read
        cases read
        exact .object name degree
    · simp only [Option.bind_eq_bind, Option.bind_eq_some_iff, Json.string?_eq_some, Json.word?_eq_some] at read
      obtain ⟨s, rfl, k, rfl, read⟩ := read
      cases read
      exact .array
    · cases read
  · intro stored
    have word : (Json.int x.degree.toNat).word? = some x.degree := Json.word?_eq_some.mpr rfl
    cases stored with
    | object name degree =>
      cases distinct with
      | object keys _ =>
        simp [ofJson?, (Json.field?_eq_some keys).mpr name, (Json.field?_eq_some keys).mpr degree, Json.string?, word]
    | array => simp [ofJson?, Json.string?, word]

theorem toJson_storedAs (x : Element) : x.StoredAs x.toJson := .object (by simp) (by simp)

theorem toJson_distinct (x : Element) : x.toJson.Distinct :=
  .object (by simp) (by simp [Json.Distinct.string, Json.Distinct.int])

theorem mapM_ofJson?_eq_some {items : List Json} (distinct : ∀ j ∈ items, j.Distinct) :
    items.mapM ofJson? = some xs ↔ List.Forall₂ (fun item x => x.StoredAs item) items xs := by
  induction items generalizing xs with
  | nil => cases xs <;> simp
  | cons item rest ih =>
    simp only [List.mapM_cons, Option.bind_eq_bind, Option.bind_eq_some_iff, Option.pure_def, Option.some.injEq,
      ofJson?_eq_some (distinct item List.mem_cons_self), ih fun j hj => distinct j (List.mem_cons_of_mem item hj),
      List.forall₂_cons_left_iff]
    constructor
    · rintro ⟨x, head, tail, stored, rfl⟩
      exact ⟨x, tail, head, stored, rfl⟩
    · rintro ⟨x, tail, head, stored, rfl⟩
      exact ⟨x, head, tail, stored, rfl⟩

theorem items_eq_some (distinct : j.Distinct) :
    (j.array?.bind fun items => items.mapM ofJson?) = some xs ↔ ListStoredAs xs j := by
  rw [Option.bind_eq_some_iff]
  refine exists_congr fun items => ?_
  rw [Json.array?_eq_some]
  refine and_congr_right fun whole => ?_
  subst whole
  cases distinct with
  | array each => exact mapM_ofJson?_eq_some each

end Element

/-! ### Stored collections -/

namespace Collection
variable {fe : Collection} {j : Json}

/-- A value stores one list of elements and reading comes to building it, or it stores none and is malformed. -/
theorem ofJson_cases (distinct : j.Distinct) :
    (∃ xs, (∀ ys, Element.ListStoredAs ys j ↔ ys = xs) ∧ ofJson j = (ofList? xs).mapError .refused) ∨
    (∀ ys, ¬Element.ListStoredAs ys j) ∧ ofJson j = .error .malformed := by
  unfold ofJson
  cases read : j.array?.bind fun items => items.mapM Element.ofJson? with
  | none =>
    refine .inr ⟨fun ys stored => ?_, rfl⟩
    rw [← Element.items_eq_some distinct, read] at stored
    cases stored
  | some xs =>
    refine .inl ⟨xs, fun ys => ?_, rfl⟩
    rw [← Element.items_eq_some distinct, read, Option.some.injEq, eq_comm]

theorem toJson_distinct (fe : Collection) : fe.toJson.Distinct := by
  refine .array fun j hj => ?_
  obtain ⟨x, -, rfl⟩ := List.mem_map.mp hj
  exact x.toJson_distinct

theorem toJson_storedAs (fe : Collection) : Element.ListStoredAs fe.elements fe.toJson :=
  ⟨_, rfl, List.forall₂_map_left_iff.mpr (List.forall₂_same.mpr fun x _ => x.toJson_storedAs)⟩

/-- A result of reading other than malformed is that of building the list that the value stores. -/
theorem ofJson_eq_built (distinct : j.Distinct) (r : Except AdaptError Collection) :
    ofJson j = r.mapError .refused ↔ ∃ xs, Element.ListStoredAs xs j ∧ ofList? xs = r := by
  rcases ofJson_cases distinct with ⟨xs, stored, read⟩ | ⟨none, read⟩
  · simp only [read, stored, exists_eq_left]
    cases ofList? xs <;> cases r <;> simp [Except.mapError]
  · cases r <;> simp [read, none, Except.mapError]

theorem ofJson_eq_malformed (distinct : j.Distinct) :
    ofJson j = .error .malformed ↔ ¬∃ xs, Element.ListStoredAs xs j := by
  rcases ofJson_cases distinct with ⟨xs, stored, read⟩ | ⟨none, read⟩
  · simp only [read, stored, exists_eq, not_true_eq_false]
    cases ofList? xs <;> simp [Except.mapError]
  · simp [read, none]

theorem ofJson_toJson (fe : Collection) : ofJson fe.toJson = .ok fe :=
  (ofJson_eq_built fe.toJson_distinct (.ok fe)).mpr ⟨fe.elements, fe.toJson_storedAs, fe.ofList?_elements⟩

/-- What is written is read back. A value is read exactly if it stores a list of elements that is a collection. If the
list is none, the refusal is that of building it, and a value that stores no list of elements is malformed. Writing what
was read gives the plain form of its elements, which is read as the same again. -/
theorem ofJson_iff_storedAs :
    (∀ fe : Collection, ofJson fe.toJson = .ok fe) ∧
    ∀ j : Json, j.Distinct →
      (∀ fe, ofJson j = .ok fe ↔ ∃ xs, Element.ListStoredAs xs j ∧ ofList? xs = .ok fe) ∧
      (∀ e, ofJson j = .error (.refused e) ↔ ∃ xs, Element.ListStoredAs xs j ∧ ofList? xs = .error e) ∧
      (ofJson j = .error .malformed ↔ ¬∃ xs, Element.ListStoredAs xs j) ∧
      ∀ fe, ofJson j = .ok fe → Element.ListStoredAs fe.elements j ∧
        fe.toJson = .array (fe.elements.map fun x =>
          .object [("name", .string x.name), ("degree", .int x.degree.toNat)]) ∧
        ofJson fe.toJson = .ok fe := by
  refine ⟨ofJson_toJson, fun j distinct => ⟨?accepts, ?refuses, ofJson_eq_malformed distinct, ?rewrites⟩⟩
  case accepts =>
    intro fe
    exact ofJson_eq_built distinct (.ok fe)
  case refuses =>
    intro e
    exact ofJson_eq_built distinct (.error e)
  case rewrites =>
    intro fe read
    obtain ⟨xs, stored, built⟩ := (ofJson_eq_built distinct (.ok fe)).mp read
    obtain rfl := ofList?_eq_ok.mp built
    exact ⟨stored, rfl, ofJson_toJson fe⟩

/-- Two elements in the two forms, the first with a member that no element has, the second of the given degree. -/
def mixedForms (degree : Int) : Json := .array [
  .object [("degree", .int 1), ("basis", .array [.string "Lagrange", .null]), ("name", .string "FE_Q(1)")],
  .array [.string "FE_Q(2)", .int degree]]

theorem mixedForms_distinct (degree : Int) : (mixedForms degree).Distinct := by
  refine .array fun j hj => ?_
  rcases List.mem_cons.mp hj with rfl | hj
  · exact .object (by simp) (by simp [Json.Distinct.int, Json.Distinct.string, Json.Distinct.array, Json.Distinct.null])
  · rw [List.mem_singleton.mp hj]
    exact .array (by simp [Json.Distinct.int, Json.Distinct.string])

theorem mixedForms_storedAs (k : UInt32) :
    Element.ListStoredAs [⟨"FE_Q(1)", 1⟩, ⟨"FE_Q(2)", k⟩] (mixedForms k.toNat) :=
  ⟨_, rfl, .cons (.object (by simp) (by simp)) (.cons .array .nil)⟩

theorem mixedForms_read : (mixedForms 2).Distinct ∧
    (∃ fe, ofJson (mixedForms 2) = .ok fe ∧ fe.toJson = .array [
        .object [("name", .string "FE_Q(1)"), ("degree", .int 1)],
        .object [("name", .string "FE_Q(2)"), ("degree", .int 2)]] ∧
      ofJson fe.toJson = .ok fe) ∧
    ofJson (mixedForms 0) = .error (.refused (.decreasingDegree 1 0 1)) ∧
    ¬∃ xs, Element.ListStoredAs xs (mixedForms 0x100000000) := by
  obtain ⟨-, reads⟩ := ofJson_iff_storedAs
  obtain ⟨accepts, -, -, written⟩ := reads (mixedForms 2) (mixedForms_distinct 2)
  obtain ⟨-, refuses, -, -⟩ := reads (mixedForms 0) (mixedForms_distinct 0)
  obtain ⟨-, -, malformed, -⟩ := reads (mixedForms 0x100000000) (mixedForms_distinct _)
  obtain ⟨fe, built⟩ : ∃ fe, ofList? [⟨"FE_Q(1)", 1⟩, ⟨"FE_Q(2)", 2⟩] = .ok fe := ⟨_, rfl⟩
  have read := (accepts fe).mpr ⟨_, mixedForms_storedAs 2, built⟩
  obtain ⟨-, plain, again⟩ := written fe read
  refine ⟨mixedForms_distinct 2, ⟨fe, read, ?_, again⟩, ?_, ?_⟩
  · rw [plain, ofList?_eq_ok.mp built]
    rfl
  · exact (refuses _).mpr ⟨_, mixedForms_storedAs 0, rfl⟩
  · exact malformed.mp rfl

end Collection
end HpForest
