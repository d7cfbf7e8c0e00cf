import Patchbay.Flat.Liveness
import Patchbay.Json.Value

/-!
# Objections to bodies

What can be wrong with the body of a call, where, and what was found there. A call is refused with
all objections to its body at once.
-/

namespace Patchbay.Service

/-- What is wrong at a place of a body. -/
inductive Flaw where
  | missing
  | invalidJson
  | notAnObject
  | notAMapping
  | notAText
  /-- A text that holds half of a surrogate pair. -/
  | notUnicode
  | notAMode
  | notAList
  /-- A truth value could stand here, but not this one. -/
  | unclearTruth
  | notATruth
  deriving DecidableEq

namespace Flaw

/-- The tag of a flaw. -/
def tag : Flaw → String
  | missing => "missing"
  | invalidJson => "json_invalid"
  | notAnObject => "model_attributes_type"
  | notAMapping => "dict_type"
  | notAText => "string_type"
  | notUnicode => "string_unicode"
  | notAMode => "enum"
  | notAList => "list_type"
  | unclearTruth => "bool_parsing"
  | notATruth => "bool_type"

/-- The modes of error liveness in words. -/
def modeWords : String := "'none', 'debug' or 'simulation'"

/-- The message of a flaw. -/
def message : Flaw → String
  | missing => "Field required"
  | invalidJson => "JSON decode error"
  | notAnObject => "Input should be a valid dictionary or object to extract fields from"
  | notAMapping => "Input should be a valid dictionary"
  | notAText => "Input should be a valid string"
  | notUnicode =>
    "Input should be a valid string, unable to parse raw data as a unicode string"
  | notAMode => "Input should be " ++ modeWords
  | notAList => "Input should be a valid list"
  | unclearTruth => "Input should be a valid boolean, unable to interpret input"
  | notATruth => "Input should be a valid boolean"

/-- What a flaw says besides its message. -/
def context : Flaw → Members
  | notAMode => [("ctx", .obj [("expected", .str modeWords)])]
  | _ => []

end Flaw

/-- One step of the way to a place in a body. -/
inductive Spot where
  /-- A member of an object. -/
  | member (name : String)
  /-- An item of an array, or a place in a text. -/
  | place (i : Nat)

namespace Spot

/-- The text of a step. -/
def text : Spot → String
  | member name => name
  | place i => Text.Numeral.natText i

/-- The step as a value. -/
def toValue : Spot → Value
  | member name => .str name
  | place i => .int i

end Spot

/-- A flaw with the way to it, from the body on, and what was found there. -/
structure Objection where
  location : List Spot
  flaw : Flaw
  found : Value

mutual

/-- What was found, as an objection shows it: members whose names start with `_sa` are internal and
left out. -/
def shown : Value → Value
  | .arr items => .arr (shownItems items)
  | .obj members => .obj (shownMembers members)
  | v => v

/-- `shown` on all items. -/
def shownItems : List Value → List Value
  | [] => []
  | v :: rest => shown v :: shownItems rest

/-- `shown` on the members that are not internal. -/
def shownMembers : List (String × Value) → List (String × Value)
  | [] => []
  | (key, v) :: rest =>
    if ['_', 's', 'a'].isPrefixOf key.toList then shownMembers rest
    else (key, shown v) :: shownMembers rest

end

namespace Objection

/-- The objection as a value. -/
def toValue (objection : Objection) : Value :=
  .obj ([("type", .str objection.flaw.tag), ("loc", .arr (objection.location.map Spot.toValue)),
    ("msg", .str objection.flaw.message), ("input", shown objection.found)]
    ++ objection.flaw.context)

/-- The way to the flaw, with points between the steps. -/
def locationText (objection : Objection) : String := ".".intercalate (objection.location.map Spot.text)

/-- Objections as the body of an answer. -/
def report (objections : List Objection) : Value :=
  .obj [("detail", .arr (objections.map toValue))]

end Objection

end Patchbay.Service
