import Patchbay.Project.Pin
import Patchbay.Text.Split

/-!
# Terminals

A terminal is a node on the boundary of its patch, told by its type alone: the last part of the
type id is `input` or `output`, and may go on with the name of a data type, as in `inputBool` or
`output-number`. Without that name the data type follows from the neighbours. Other continuations,
as in `inputCapture`, make no terminal.
-/

namespace Patchbay

/-- What a terminal type says about itself. -/
structure Terminal where
  /-- The side of the boundary: input terminals feed their patch. -/
  direction : Direction
  /-- The data type, if the type id names one. -/
  dataType : Option String
  deriving DecidableEq, Inhabited

namespace Terminal

/-- The key of the one pin of a terminal. -/
def pinKey : String := "PIN"

/-- The side of the pin as seen from inside the patch. -/
def innerDirection (t : Terminal) : Direction := t.direction.opposite

/-- The data types that a type id can name, by the names it can use. -/
def dataTypes : List (String × String) :=
  [("bool", "bool"), ("boolean", "bool"), ("number", "number"), ("pulse", "pulse"),
   ("string", "string"), ("byte", "byte")]

/-- An ASCII letter. -/
def isLetter (c : Char) : Bool := c.isAlpha

/-- The data type that follows the word for the direction: none is named by nothing, and a hyphen
or low line may precede a name. -/
def dataType? (rest : List Char) : Option (Option String) :=
  let word := match rest with
    | '-' :: word => word
    | '_' :: word => word
    | word => word
  if rest.isEmpty then some none
  else if word.isEmpty || !word.all isLetter then none
  else (dataTypes.lookup (String.ofList (word.map Char.toLower))).map some

/-- The terminal of a type id. -/
def ofType? (typeId : String) : Option Terminal :=
  let base := Text.dropFinalFeed (Text.lastSegment '/' typeId).toList
  match PinRef.after? Direction.input.name.toList base,
      PinRef.after? Direction.output.name.toList base with
  | some rest, _ => (dataType? rest).map fun dataType => ⟨.input, dataType⟩
  | none, some rest => (dataType? rest).map fun dataType => ⟨.output, dataType⟩
  | none, none => none

/-- The pin of a terminal as seen from inside its patch. -/
def pin (t : Terminal) : Pin where
  key := .str pinKey
  direction := t.innerDirection
  type := t.dataType.getD anyType
  default? := none
  variadic := false

end Terminal

end Patchbay
