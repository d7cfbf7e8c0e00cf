import Patchbay.Flat.Liveness
import Patchbay.Json.Printer

/-!
# Compiled units

What a compilation yields: the bound nodes, the order in which they are evaluated, the
implementation texts in use, and what an editor needs to find a node again. A unit does not refer
back to the project. Its JSON text has all keys in ascending order, so that it does not depend on
the order of the document.
-/

namespace Patchbay

/-- The result of a compilation. -/
structure CompiledUnit where
  nodes : List BoundNode
  /-- The ids of the nodes, each after those of the nodes that feed it. -/
  topology : List Int
  /-- The implementation texts in use, by type. -/
  templates : List (String × String)
  /-- The local ids on the way to each node, by id. -/
  debugIds : List (Int × String)
  /-- The pins that an error can reach, by node. -/
  affected : Liveness.Reach
  /-- The name of the mode of error liveness. -/
  liveness : String
  /-- The constants that implementation texts may name. -/
  globals : Table Value
  deriving Inhabited

namespace CompiledUnit

/-- Entries by ascending id. -/
def byId {α : Type} (entries : List (Int × α)) : List (Int × α) :=
  entries.mergeSort fun a b => a.1 ≤ b.1

/-- The nodes of some ids. -/
def nodesAt (unit : CompiledUnit) : List Int → Except Failure (List BoundNode)
  | [] => .ok []
  | id :: rest =>
    match unit.nodes.find? (·.id = id) with
    | none => .error (.fault (.missing (.int id)))
    | some node => (unit.nodesAt rest).map (node :: ·)

/-- The nodes in the order of their evaluation. -/
def orderedNodes (unit : CompiledUnit) : Except Failure (List BoundNode) :=
  unit.nodesAt unit.topology

/-- The pins of a node that an error can reach. -/
def errorPins (unit : CompiledUnit) (id : Int) : LabelSet := Liveness.pinsOf unit.affected id

/-- The nodes by ascending id. -/
def sortedNodes (unit : CompiledUnit) : List BoundNode := unit.nodes.mergeSort fun a b => a.id ≤ b.id

/-- The nodes by the texts of their ids, ascending as texts. -/
def nodesByIdText (unit : CompiledUnit) : List BoundNode :=
  unit.nodes.mergeSort fun a b => Text.le (Text.Numeral.intText a.id) (Text.Numeral.intText b.id)

/-- Entries keyed by id as members, in the order given. -/
def idMembers {α : Type} (value : α → Value) (entries : List (Int × α)) : Members :=
  entries.map fun (id, a) => (Text.Numeral.intText id, value a)

/-- The affected pins as members, by ascending id. -/
def affectedMembers : List (Int × LabelSet) → Except Fault Members
  | [] => .ok []
  | (id, pins) :: rest => do
    let pins ← pins.sorted
    let others ← affectedMembers rest
    return (Text.Numeral.intText id, .arr (pins.map Label.toValue)) :: others

/-- The unit as a document value, with the keys of pins and constants spelled in a way; pins of
several families have no order. -/
def valueSpelling (spell : Label → String) (unit : CompiledUnit) : Except Fault Value := do
  let affected ← affectedMembers (byId unit.affected)
  return .obj [
    ("nodes", .obj (idMembers (BoundNode.valueSpelling spell)
      (unit.sortedNodes.map fun node => (node.id, node)))),
    ("topology", .arr (unit.topology.map .int)),
    ("impl", .obj (unit.templates.map fun (type, text) => (type, .str text))),
    ("nodeIdsMap", .obj (idMembers .str (byId unit.debugIds))),
    ("pinsAffectedByErrorRaisers", .obj affected),
    ("liveness", .str unit.liveness),
    ("globals", .obj (BoundNode.tableMembers spell (fun v => v) unit.globals))]

/-- The unit as a document value. -/
def toValue (unit : CompiledUnit) : Except Fault Value := unit.valueSpelling Label.keyText

/-! ## JSON -/

/-- Bound nodes as members with all keys ascending. -/
def sortedNodeMembers : List BoundNode → Except Fault Members
  | [] => .ok []
  | node :: rest => do
    let value ← node.sortedValue []
    let others ← sortedNodeMembers rest
    return (Text.Numeral.intText node.id, value) :: others

/-- The unit as a document value with all keys ascending. -/
def sortedValue (unit : CompiledUnit) : Except Fault Value := do
  let affected ← affectedMembers (byId unit.affected)
  let globals ← Table.sortedMembers Value.sortKeys unit.globals
  let nodes ← sortedNodeMembers unit.nodesByIdText
  return .obj [
    ("globals", .obj globals),
    ("impl", .obj (Members.sorted (unit.templates.map fun (type, text) => (type, .str text)))),
    ("liveness", .str unit.liveness),
    ("nodeIdsMap", .obj (Members.sorted (idMembers .str unit.debugIds))),
    ("nodes", .obj nodes),
    ("pinsAffectedByErrorRaisers", .obj (Members.sorted affected)),
    ("topology", .arr (unit.topology.map .int))]

/-- The JSON text of the unit. -/
def json (indent : Option Nat) (unit : CompiledUnit) : Except Fault String :=
  unit.sortedValue.map (Json.render indent)

end CompiledUnit

end Patchbay
