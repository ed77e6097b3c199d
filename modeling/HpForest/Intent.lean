import HpForest.Forest.Basic

/-!
# Intents

The markers of a cell say whether the next execution changes its geometry (h), its element (p),
both or neither.
-/

namespace HpForest

/-- The kinds of adaptation that a cell is scheduled for. -/
inductive Intent
  | none
  | pureH
  | pureP
  /-- Both; left for a decision to resolve. -/
  | hAndP
deriving DecidableEq, Repr

namespace Intent

def name : Intent → String
  | none => "None"
  | pureH => "PureH"
  | pureP => "PureP"
  | hAndP => "HAndP"

def ofName? : String → Option Intent
  | "None" => some none
  | "PureH" => some pureH
  | "PureP" => some pureP
  | "HAndP" => some hAndP
  | _ => .none

end Intent

/-- An h flag asks for h adaptation, a scheduled element for p adaptation. -/
def Markers.intent (m : Markers) : Intent :=
  match decide (m.flag ≠ .none), m.future.isSome with
  | false, false => .none
  | true, false => .pureH
  | false, true => .pureP
  | true, true => .hAndP

structure IntentCounts where
  none : Nat
  pureH : Nat
  pureP : Nat
  hAndP : Nat
deriving DecidableEq, Repr

namespace IntentCounts

def ofList (intents : List Intent) : IntentCounts :=
  ⟨intents.count .none, intents.count .pureH, intents.count .pureP, intents.count .hAndP⟩

def text (c : IntentCounts) : String :=
  s!"IntentCounts \x7b none: {c.none}, pure_h: {c.pureH}, pure_p: {c.pureP}, " ++
    s!"h_and_p: {c.hAndP} \x7d"

end IntentCounts

namespace Forest

variable {D : Nat}

/-- The intent of a live cell; a split cell has none. -/
def intent (F : Forest D) (id : CellId) : Except AdaptError Intent :=
  (F.cell id).map fun c => c.markers.intent

/-- The intents of the active cells, in their order. -/
def intents (F : Forest D) : List Intent := F.leaves.map fun l => l.markers.intent

end Forest

end HpForest
