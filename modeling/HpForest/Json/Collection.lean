import HpForest.Collection
import HpForest.Json.Value

/-!
# Stored collections

An element is stored as an object with its name and degree, and is read from such an object,
whatever other members it has, or from the list of the two. A collection is stored as the list of
its elements and is built again by `Collection.ofList?` when it is read.
-/

namespace HpForest

namespace Element

def toJson (x : Element) : Json :=
  .object [("name", .string x.name), ("degree", .int x.degree.toNat)]

def ofJson? (j : Json) : Option Element :=
  match j with
  | .object _ => do
    let name ← (← j.field? "name").string?
    let degree ← (← j.field? "degree").word?
    return ⟨name, degree⟩
  | .array [name, degree] => do return ⟨← name.string?, ← degree.word?⟩
  | _ => none

end Element

/-- Why a stored collection is not read. -/
inductive ReadError
  /-- Not a list of elements. -/
  | malformed
  /-- A list of elements that form no collection. -/
  | refused (error : AdaptError)
deriving DecidableEq, Repr

namespace Collection

def toJson (fe : Collection) : Json := .array (fe.elements.map Element.toJson)

def ofJson (j : Json) : Except ReadError Collection :=
  match j.array?.bind fun items => items.mapM Element.ofJson? with
  | none => .error .malformed
  | some elements => (ofList? elements).mapError .refused

end Collection

end HpForest
