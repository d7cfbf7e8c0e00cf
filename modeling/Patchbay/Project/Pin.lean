import Patchbay.Fault
import Patchbay.Text.Character
import Patchbay.Text.Split

/-!
# Pins

A pin is a place where a link ends: an input or an output, with the name of its data type. Link
ends address pins by a `PinRef`: a pin of the node's own type by name, or, in the reserved form
`input_41`, the terminal 41 inside the patch that the node instantiates. The reserved form is read
in digits of any script and written in ASCII digits.
-/

namespace Patchbay

/-- The side of a node that a pin is on. -/
inductive Direction where
  | input
  | output
  deriving DecidableEq, Inhabited

namespace Direction

/-- The other side. -/
def opposite : Direction → Direction
  | input => output
  | output => input

/-- The word for a direction. -/
def name : Direction → String
  | input => "input"
  | output => "output"

/-- The direction of a word. -/
def ofName? (word : String) : Option Direction :=
  if word = "input" then some input else if word = "output" then some output else none

@[simp] theorem opposite_opposite (d : Direction) : d.opposite.opposite = d := by
  cases d <;> rfl

theorem ofName?_eq_some_iff {word : String} {d : Direction} :
    ofName? word = some d ↔ word = d.name := by
  unfold ofName?
  cases d <;> simp only [name] <;> split <;> simp_all

end Direction

/-- The data type of pins that carry anything. -/
def anyType : String := "any"

/-- What a node type says about one of its pins. -/
structure Pin where
  /-- The key that bound nodes show: the key of the declaration unless it gives another. -/
  key : Value
  direction : Direction
  type : String
  default? : Option Value
  /-- Whether the pin multiplies with the arity of a node. -/
  variadic : Bool
  deriving Inhabited

/-- What a link end addresses on its node. -/
inductive PinRef where
  /-- A pin of the node's own type. -/
  | named (key : String)
  /-- A terminal inside the patch that the node instantiates. -/
  | boundary (direction : Direction) (terminal : Nat)
  deriving DecidableEq, Inhabited

namespace PinRef

/-- What follows the characters of `front`, if the text starts with them. -/
def after? (front cs : List Char) : Option (List Char) :=
  if front.isPrefixOf cs then some (cs.drop front.length) else none

/-- The digits of the terminal that a boundary key of this direction names; a line feed may end the
key. -/
def digits? (direction : Direction) (cs : List Char) : Option (List Char) :=
  match after? (direction.name.toList ++ ['_']) cs with
  | none => none
  | some rest =>
    if Text.Numeral.isNumeral (Text.dropFinalFeed rest) then some (Text.dropFinalFeed rest)
    else none

/-- The terminal that a boundary key of this direction names. -/
def terminal? (direction : Direction) (cs : List Char) : Option Nat :=
  (digits? direction cs).map Text.Numeral.value

/-- The reference that a pin key of a document spells. -/
def parse (key : String) : PinRef :=
  match terminal? .input key.toList, terminal? .output key.toList with
  | some terminal, _ => boundary .input terminal
  | none, some terminal => boundary .output terminal
  | none, none => named key

/-- The reference that a pin key of a document spells, where the number of a terminal is not too
long to be read. -/
def read (key : String) : Except Fault PinRef :=
  match digits? .input key.toList <|> digits? .output key.toList with
  | none => .ok (parse key)
  | some ds => (Text.Numeral.read ds).map fun _ => parse key

/-- The key of a reference. -/
def key : PinRef → String
  | named key => key
  | boundary direction terminal => direction.name ++ "_" ++ Text.Numeral.natText terminal

end PinRef

end Patchbay
