import Patchbay.Flat.Graph
import Patchbay.Project.Closure

/-!
# Data types of terminals

A terminal carries the type that its declaration or its type id gives; otherwise the type is
deduced from the far ends of its links, incoming links first: the type of a pin that is no
terminal's wins over the type of another terminal. `settle` deduces until nothing changes, by
ascending id, where a type found counts at once for the terminals after it.

A terminal that stays without a type carries anything if it is linked to a pin of another node;
linked to untyped terminals only, it is refused; without links it takes the type of its literal.
-/

namespace Patchbay

/-- The type of a pin, if it is a definite one. -/
def definite (type : String) : Option String := if type = anyType then none else some type

/-- The data type of a literal value. -/
def literalType : Value → Option String
  | .bool _ => some "bool"
  | .int _ | .float _ => some "number"
  | .str _ => some "string"
  | .null | .arr _ | .obj _ => none

/-- A flat graph with the types of its terminals found so far. -/
structure Typing where
  kinds : Kinds
  graph : FlatGraph
  /-- The types by node id, in order of arrival; none while it is not known. -/
  types : List (Int × Option String)
  deriving Inhabited

/-- What the far end of a link says. -/
structure FarPin where
  onTerminal : Bool
  /-- The definite type of the pin, if it is known. -/
  type : Option String
  deriving DecidableEq

namespace Typing

/-- What a step answers: the typing after it, or the typing as far as the step got. -/
abbrev Outcome := Except (Stopped Typing) Typing

/-- A typing that knows nothing yet. -/
def start (kinds : Kinds) (graph : FlatGraph) : Typing := ⟨kinds, graph, []⟩

/-- The node of an id. -/
def node (t : Typing) (id : Int) : Except Failure FlatNode :=
  match t.graph.node? id with
  | some node => .ok node
  | none => .error (.fault (.missing (.int id)))

/-- The primitive that a node is of. -/
def primitive (t : Typing) (id : Int) : Except Failure Primitive := do
  let node ← t.node id
  t.kinds.primitive node.type

/-- The type found for a node, if any. -/
def typeOf (t : Typing) (id : Int) : Option String := (t.types.lookup id).join

/-- A table of types with one entry set. -/
def putType (id : Int) (type : Option String) :
    List (Int × Option String) → List (Int × Option String)
  | [] => [(id, type)]
  | (other, found) :: rest =>
    if other = id then (other, type) :: rest else (other, found) :: putType id type rest

/-- The typing with the type of a node set. -/
def set (t : Typing) (id : Int) (type : Option String) : Typing :=
  { t with types := putType id type t.types }

/-- The ids that have an entry, ascending. -/
def keys (t : Typing) : List Int := (t.types.map (·.1)).mergeSort fun a b => a ≤ b

/-! ## Deduction -/

/-- The pins at the far ends of the links of a node, incoming links first. -/
def farEnds (graph : FlatGraph) (id : Int) : List (Int × String) :=
  (graph.incoming id).map (fun link => (link.source, link.sourcePin))
    ++ (graph.outgoing id).map fun link => (link.target, link.targetPin)

/-- What a pin at the far end of a link says. -/
def farPin (t : Typing) (id : Int) (pin : String) : Except Failure FarPin := do
  let p ← t.primitive id
  if p.isTerminal then return ⟨true, t.typeOf id⟩
  else return ⟨false, (p.pin? pin).bind fun pin => definite pin.type⟩

/-- What some far ends say. -/
def farPins (t : Typing) : List (Int × String) → Except Failure (List FarPin)
  | [] => .ok []
  | (id, pin) :: rest => do
    let far ← t.farPin id pin
    let others ← farPins t rest
    return far :: others

/-- What the far ends of the links of a node say. -/
def candidates (t : Typing) (id : Int) : Except Failure (List FarPin) :=
  t.farPins (farEnds t.graph id)

/-- The type that far ends give: that of the first pin off terminals that has one, else that of
the first terminal that has one. -/
def choose (found : List FarPin) : Option String :=
  match found.findSome? fun far => if far.onTerminal then none else far.type with
  | some type => some type
  | none => found.findSome? FarPin.type

/-- The type that the far ends of the links of a node give. -/
def deduce (t : Typing) (id : Int) : Except Failure (Option String) := (t.candidates id).map choose

/-- One round over some ids. -/
def round (t : Typing) : List Int → Outcome
  | [] => .ok t
  | id :: rest =>
    if (t.typeOf id).isSome then round t rest
    else
      match t.deduce id with
      | .error failure => .error ⟨t, failure⟩
      | .ok none => round t rest
      | .ok (some type) => round (t.set id (some type)) rest

/-- How many entries are without a type. -/
def untyped (t : Typing) : Nat := t.types.countP (·.2.isNone)

/-- Rounds until one finds nothing, at most so many. -/
def settleWithin : Nat → Typing → Outcome
  | 0, t => .ok t
  | fuel + 1, t => do
    let next ← t.round t.keys
    if next.untyped = t.untyped then return next else settleWithin fuel next

/-- Rounds until one finds nothing: every round before it gives a type to at least one entry. -/
def settle (t : Typing) : Outcome := settleWithin (t.untyped + 1) t

/-! ## All terminals -/

/-- The type that a terminal declares: that of its declared pin, or that of its type id. An empty
declaration is none. -/
def declaredType (p : Primitive) (terminal : Terminal) : Option String :=
  let declared := (p.entry.bind fun entry => entry.pins.lookup Terminal.pinKey).bind
    fun pin => definite pin.type
  match declared with
  | some type => if type.isEmpty then terminal.dataType else some type
  | none => terminal.dataType

/-- The typing with an entry for every terminal among some nodes. -/
def declare (t : Typing) : List FlatNode → Outcome
  | [] => .ok t
  | node :: rest =>
    match t.primitive node.id with
    | .error failure => .error ⟨t, failure⟩
    | .ok p =>
      match p.terminal with
      | some terminal => declare (t.set node.id (declaredType p terminal)) rest
      | none => declare t rest

/-- Whether one of some far ends is off terminals; the first such end decides. -/
def meetsPlainPin (t : Typing) : List (Int × String) → Except Failure Bool
  | [] => .ok false
  | (id, pin) :: rest => do
    let far ← t.farPin id pin
    if far.onTerminal then meetsPlainPin t rest else return true

/-- The typing where untyped entries that are linked to a pin off terminals carry anything. -/
def widen (t : Typing) : List Int → Outcome
  | [] => .ok t
  | id :: rest =>
    if (t.typeOf id).isSome then widen t rest
    else
      match t.meetsPlainPin (farEnds t.graph id) with
      | .error failure => .error ⟨t, failure⟩
      | .ok true => widen (t.set id (some anyType)) rest
      | .ok false => widen t rest

/-- The typing where untyped entries without links take the type of their literals; an untyped
entry with links is refused. -/
def close (t : Typing) : List Int → Outcome
  | [] => .ok t
  | id :: rest =>
    if (t.typeOf id).isSome then close t rest
    else
      match t.node id with
      | .error failure => .error ⟨t, failure⟩
      | .ok node =>
        if !(farEnds t.graph id).isEmpty then
          .error ⟨t, .untypedTerminal id node.type node.debugId⟩
        else
          match node.properties.lookup Terminal.pinKey with
          | some value => close (t.set id (literalType value)) rest
          | none => close t rest

/-- The typing of all terminals. -/
def resolve (t : Typing) : Outcome := do
  let t ← t.declare t.graph.nodes
  let t ← t.settle
  let t ← t.widen t.keys
  let t ← t.settle
  t.close t.keys

end Typing

end Patchbay
