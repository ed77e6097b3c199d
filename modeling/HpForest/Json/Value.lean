/-!
# JSON values

Values as the stored forms of the library use them. Whole numbers keep apart from the others, since
an id or a degree is only ever read from a whole number.
-/

namespace HpForest

inductive Json
  | null
  | bool (b : Bool)
  | int (n : Int)
  | real (x : Float)
  | string (s : String)
  | array (items : List Json)
  /-- The members in order; a key occurs once. -/
  | object (members : List (String × Json))
deriving Inhabited, Repr

namespace Json

/-- The member of an object with the given key. -/
def field? (key : String) : Json → Option Json
  | object members => members.lookup key
  | _ => none

def string? : Json → Option String
  | string s => some s
  | _ => none

def bool? : Json → Option Bool
  | bool b => some b
  | _ => none

def array? : Json → Option (List Json)
  | array items => some items
  | _ => none

/-- A whole number that is not negative. -/
def nat? : Json → Option Nat
  | int (.ofNat n) => some n
  | _ => none

/-- A whole number below `2 ^ 32`. -/
def word? (j : Json) : Option UInt32 := do
  let n ← j.nat?
  if n < UInt32.size then some (UInt32.ofNat n) else none

/-- A number as the nearest double. -/
def double? : Json → Option Float
  | int n => some (Float.ofInt n)
  | real x => some x
  | _ => none

/-- The name of a variant without contents: a string, or an object that maps the name to null. -/
def variant? : Json → Option String
  | string s => some s
  | object [(s, null)] => some s
  | _ => none

end Json

end HpForest
