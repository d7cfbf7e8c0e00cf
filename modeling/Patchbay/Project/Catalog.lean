import Patchbay.Project.Terminal

/-!
# Node types

The catalog declares node types: their pins by key, whether they are pure, whether they raise
errors, and the text that implements them for each backend. A variadic pin `ADD` also answers to
the keys `ADD-$1`, `ADD-$2` and so on.
-/

namespace Patchbay

/-- A declared node type. -/
structure NodeType where
  id : String
  /-- The pins by the keys of their declarations, in document order. -/
  pins : List (String × Pin)
  pure : Bool
  raises : Bool
  /-- The implementation texts by backend. -/
  templates : List (String × String)
  deriving Inhabited

namespace NodeType

/-- The input pins in document order. -/
def inputs (t : NodeType) : List Pin := (t.pins.map (·.2)).filter (·.direction = .input)

/-- The output pins in document order. -/
def outputs (t : NodeType) : List Pin := (t.pins.map (·.2)).filter (·.direction = .output)

/-- The key whose expansion this key spells: what stands before `-$` and a row of digits. The base
holds no line feed, one may end the key. -/
def expansionBase? (key : String) : Option String :=
  let reversed := (Text.dropFinalFeed key.toList).reverse
  match reversed.takeWhile Text.isDigit, reversed.dropWhile Text.isDigit with
  | [], _ => none
  | _, '$' :: '-' :: base =>
    if base.isEmpty || base.contains '\n' then none else some (String.ofList base.reverse)
  | _, _ => none

/-- The pin that a key addresses: a declared one, or the variadic one that it is an expansion
of. -/
def pin? (t : NodeType) (key : String) : Option Pin :=
  match t.pins.lookup key with
  | some pin => some pin
  | none =>
    match (expansionBase? key).bind fun base => t.pins.lookup base with
    | some pin => if pin.variadic then some pin else none
    | none => none

end NodeType

/-- The declared node types, each id once. -/
abbrev Catalog := List NodeType

/-- The declaration of a type id. -/
def Catalog.type? (catalog : Catalog) (id : String) : Option NodeType := catalog.find? (·.id = id)

end Patchbay
