import HpForest.Decision
import HpForest.Json.Value
import HpForest.Prediction

/-!
# Stored options and variants

Options are stored as an object of their parameters. They are read from an object in which any
parameter may be missing, or from the list of the parameters, of which the last may be missing; a
missing one has its standard value. Flags and decisions are stored by name, ids by slot.
-/

namespace HpForest

/-- A parameter that may be missing: `standard` without it, and nothing if it is no number. -/
def Json.parameter? (standard : Float) : Option Json → Option Float
  | none => some standard
  | some j => j.double?

/-- The values of the given fields, named with their standard values, out of an object or a list. -/
def Json.parameters? (fields : List (String × Float)) : Json → Option (List Float)
  | .object members => fields.mapM fun (name, standard) => parameter? standard (members.lookup name)
  | .array items =>
    if items.length ≤ fields.length then
      fields.zipIdx.mapM fun ((_, standard), i) => parameter? standard items[i]?
    else none
  | _ => none

namespace ThresholdOptions

def toJson (o : ThresholdOptions Float) : Json :=
  .object (o.entries.map fun (parameter, value) => (parameter.name, .real value))

def ofJson? (j : Json) : Option (ThresholdOptions Float) := do
  let fields := standard.entries.map fun (parameter, value) => (parameter.name, value)
  match ← j.parameters? fields with
  | [refineFraction, coarsenFraction] => some { refineFraction, coarsenFraction }
  | _ => none

end ThresholdOptions

namespace PredictionOptions

def toJson (o : PredictionOptions Float) : Json :=
  .object (o.entries.map fun (parameter, value) => (parameter.name, .real value))

def ofJson? (j : Json) : Option (PredictionOptions Float) := do
  let fields := standard.entries.map fun (parameter, value) => (parameter.name, value)
  match ← j.parameters? fields with
  | [gammaP, gammaH, gammaN] => some { gammaP, gammaH, gammaN }
  | _ => none

end PredictionOptions

namespace CellId

def toJson (id : CellId) : Json := .int id.slot

def ofJson? (j : Json) : Option CellId := j.word?.map fun slot => ⟨slot.toNat⟩

end CellId

namespace HFlag

def name : HFlag → String
  | none => "None"
  | refine => "Refine"
  | coarsen => "Coarsen"

def ofName? : String → Option HFlag
  | "None" => some none
  | "Refine" => some refine
  | "Coarsen" => some coarsen
  | _ => .none

def toJson (flag : HFlag) : Json := .string flag.name

def ofJson? (j : Json) : Option HFlag := j.variant?.bind ofName?

end HFlag

namespace Decision

def name : Decision → String
  | forceP => "force_p_over_h"
  | chooseP => "choose_p_over_h"

def ofName? : String → Option Decision
  | "force_p_over_h" => some forceP
  | "choose_p_over_h" => some chooseP
  | _ => none

def toJson (d : Decision) : Json := .string d.name

def ofJson? (j : Json) : Option Decision := j.variant?.bind ofName?

end Decision

end HpForest
