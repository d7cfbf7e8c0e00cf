import Patchbay.Failure
import Patchbay.Graph.DepthFirst

/-!
# Closures of patches

What an entry patch needs: the patches that it instantiates, directly or not, each after those
that it instantiates itself, and the kind of every node type in them. A type is the path of a
patch, or a primitive with a declaration or as a terminal, or unknown; unknown types count as
primitives without pins, unless the reading is strict.
-/

namespace Patchbay

/-- A node type that is not a patch. -/
structure Primitive where
  type : String
  /-- The declaration of the catalog. -/
  entry : Option NodeType
  /-- What the type says as a terminal. -/
  terminal : Option Terminal
  deriving Inhabited

namespace Primitive

/-- Whether the type is a terminal. -/
def isTerminal (p : Primitive) : Bool := p.terminal.isSome

/-- Whether the pins of the type are known. -/
def hasSignature (p : Primitive) : Bool := p.entry.isSome || p.isTerminal

/-- Neither a declaration nor a terminal. -/
def isUnknown (p : Primitive) : Bool := !p.hasSignature

/-- The pin of a terminal under its key. -/
def terminalPin? (p : Primitive) (key : String) : Option Pin :=
  match p.terminal with
  | some t => if key = Terminal.pinKey then some t.pin else none
  | none => none

/-- The pin that a key addresses: a declared one first, else the pin of the terminal. -/
def pin? (p : Primitive) (key : String) : Option Pin :=
  match p.entry with
  | some entry => entry.pin? key <|> p.terminalPin? key
  | none => p.terminalPin? key

/-- The direction of the pin that a key addresses. -/
def direction? (p : Primitive) (key : String) : Option Direction := (p.pin? key).map Pin.direction

end Primitive

/-- What a node type stands for. -/
inductive Kind where
  | primitive (p : Primitive)
  | subPatch (path : String)
  deriving Inhabited

/-- The kinds of the node types in use. -/
abbrev Kinds := List (String × Kind)

namespace Kinds

/-- The kind of a type in use. -/
def kind (kinds : Kinds) (type : String) : Except Failure Kind :=
  match kinds.lookup type with
  | some kind => .ok kind
  | none => .error (.fault (.missing (.str type)))

/-- The primitive that a type in use stands for. -/
def primitive (kinds : Kinds) (type : String) : Except Failure Primitive :=
  match kinds.kind type with
  | .error failure => .error failure
  | .ok (.primitive p) => .ok p
  | .ok (.subPatch path) => .error (.fault (.notAPrimitive path))

end Kinds

namespace Project

/-- The primitive of a type id, for a type that is no patch. -/
def primitive (catalog : Catalog) (type : String) : Primitive :=
  ⟨type, catalog.type? type, Terminal.ofType? type⟩

/-- Whether a type id is the path of a patch. -/
def isPatch (project : Project) (type : String) : Bool := (project.patch? type).isSome

/-- The kind of a type id. -/
def kindOf (project : Project) (type : String) : Kind :=
  if project.isPatch type then .subPatch type else .primitive (primitive project.catalog type)

/-- Whether a type id is neither a patch, a declared type nor a terminal. -/
def isUnknown (project : Project) (type : String) : Bool :=
  !project.isPatch type && (primitive project.catalog type).isUnknown

/-- The paths of the patches that a patch instantiates, ascending. A strict reading refuses the
first unknown type. -/
def instantiated (project : Project) (strict : Bool) (patch : Patch) :
    Except Failure (List String) :=
  match (patch.nodes.map Node.type).find? fun type => strict && project.isUnknown type with
  | some type => .error (.unknownType type)
  | none =>
    .ok (((patch.nodes.map Node.type).filter project.isPatch).eraseDups.mergeSort
      Text.le)

end Project

/-- An entry patch with all that it needs. -/
structure Closure where
  entry : Patch
  /-- The patches that the entry reaches, each after those it instantiates. -/
  patches : List Patch
  kinds : Kinds
  deriving Inhabited

namespace Closure

/-- The patch of a path in the closure. -/
def patch (closure : Closure) (path : String) : Except Failure Patch :=
  match closure.patches.find? (·.path = path) with
  | some patch => .ok patch
  | none => .error (.fault (.missing (.str path)))

/-- The types of the nodes of some patches, each once. -/
def typesOf (patches : List Patch) : List String :=
  (patches.flatMap fun patch => patch.nodes.map Node.type).eraseDups

/-- The closure of an entry patch. -/
def ofEntry (project : Project) (entryPath : String) (strict : Bool) : Except Failure Closure :=
  match project.patch? entryPath with
  | none => .error (.noPatch (.str entryPath))
  | some entry =>
    let next (path : String) : Except Failure (List String) :=
      match project.patch? path with
      | none => .ok []
      | some patch => project.instantiated strict patch
    match DepthFirst.postorder (project.patches.map Patch.path) next [entryPath] with
    | .error (.cycle path) => .error (.nestingCycle path)
    | .error (.refused failure) => .error failure
    | .ok order =>
      let patches := order.filterMap project.patch?
      .ok { entry, patches, kinds := (typesOf patches).map fun type => (type, project.kindOf type) }

/-- The types in use that resolve to nothing. -/
def unknownTypes (closure : Closure) : List String :=
  closure.kinds.filterMap fun (type, kind) =>
    match kind with
    | .primitive p => if p.isUnknown then some type else none
    | .subPatch _ => none

/-- The warning about an unknown type. -/
def warning (type : String) : String :=
  "Unknown node type '" ++ type ++ "': treated as a primitive without signature"

/-- The warnings about the unknown types in use. -/
def warnings (closure : Closure) : List String := closure.unknownTypes.map warning

end Closure

end Patchbay
