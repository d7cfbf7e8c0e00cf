import Patchbay.Project.Catalog

/-!
# Patches

A patch is a graph of nodes and links under a path. A node of a type that is the path of another
patch instantiates that patch. A link joins two ends in the order of the document, which says
nothing about the direction of the data.
-/

namespace Patchbay

/-- A node of a patch. -/
structure Node where
  id : Int
  type : String
  /-- The literal values by pin key. -/
  properties : Members
  /-- How many times the variadic pins are there. -/
  arity : Int
  deriving Inhabited

/-- One end of a link. -/
structure LinkEnd where
  node : Int
  pin : PinRef
  deriving DecidableEq, Inhabited

/-- The text of a link end. -/
def LinkEnd.text (e : LinkEnd) : String := Text.Numeral.intText e.node ++ "." ++ e.pin.key

/-- A link between two ends. -/
structure Link where
  id : String
  first : LinkEnd
  second : LinkEnd
  deriving DecidableEq, Inhabited

namespace Link

/-- The order of link ids: ASCII numerals by their numbers come before all others by code
points. -/
def idLe (a b : String) : Bool :=
  match Text.Numeral.isAsciiNumeral a, Text.Numeral.isAsciiNumeral b with
  | true, true => Text.Numeral.value a.toList ≤ Text.Numeral.value b.toList
  | true, false => true
  | false, true => false
  | false, false => Text.le a b

/-- A link id that is a numeral too long to be read. -/
def idFault? (id : String) : Option Fault :=
  if Text.Numeral.isAsciiNumeral id then
    match Text.Numeral.read id.toList with
    | .ok _ => none
    | .error fault => some fault
  else none

/-- Entries by ascending link id; equal numbers keep their order. -/
def sortById {α : Type} (id : α → String) (entries : List α) : Except Fault (List α) :=
  match entries.findSome? fun entry => idFault? (id entry) with
  | some fault => .error fault
  | none => .ok (entries.mergeSort fun a b => idLe (id a) (id b))

end Link

/-- A graph of nodes and links. -/
structure Patch where
  path : String
  /-- The id that the document gives the patch. -/
  id : Option String
  /-- The nodes in document order, each id once. -/
  nodes : List Node
  /-- The links in document order, each id once. -/
  links : List Link
  deriving Inhabited

namespace Patch

/-- The node of a local id. -/
def node? (patch : Patch) (id : Int) : Option Node := patch.nodes.find? (·.id = id)

/-- The nodes by ascending local id. -/
def sortedNodes (patch : Patch) : List Node := patch.nodes.mergeSort fun a b => a.id ≤ b.id

/-- The links by ascending id; equal numbers keep the order of the document. -/
def sortedLinks (patch : Patch) : Except Fault (List Link) := Link.sortById Link.id patch.links

end Patch

/-- Patches and the catalog of the types that they use. -/
structure Project where
  name : String
  /-- The patches in document order, each path once. -/
  patches : List Patch
  catalog : Catalog
  deriving Inhabited

/-- The patch of a path. -/
def Project.patch? (project : Project) (path : String) : Option Patch :=
  project.patches.find? (·.path = path)

end Patchbay
