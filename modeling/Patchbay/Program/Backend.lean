import Patchbay.CompiledUnit
import Patchbay.Program.Name
import Patchbay.Program.Writer
import Patchbay.Text.Split

/-!
# Backends

A backend says how the parts of a program are written: what stands at its head, an implementation
text, a node, and what stands at its foot. The JavaScript program keeps the nodes as records of a
table; the C++ program declares each node and evaluates all of them in `runTransaction`, where
error pins are tracked in the debugging and the simulating build. The backend `base` writes
comments only.

A step that fails leaves behind the lines it wrote before it failed.
-/

namespace Patchbay

/-- How programs are written. -/
inductive Backend where
  | base
  | js
  | cpp
  deriving DecidableEq, Inhabited

namespace Backend

/-- What a step answers: the writer after it, or the writer as far as the step got. -/
abbrev Outcome := Except (Stopped Writer) Writer

/-- The name of a backend. -/
def name : Backend → String
  | base => "base"
  | js => "js"
  | cpp => "cpp"

/-- What ends the name of a program file. -/
def extension (backend : Backend) : String := backend.name

/-- The backends that callers may choose. -/
def all : List Backend := [cpp, js]

/-- The backend that a value names. -/
def ofValue (v : Value) : Except Failure Backend :=
  match Label.ofValue v with
  | .error fault => .error (.fault fault)
  | .ok (.text text) =>
    match all.find? (·.name = text) with
    | some backend => .ok backend
    | none => .error (.noBackend v)
  | .ok _ => .error (.noBackend v)

/-- The writer of a program. -/
def writer (_ : Backend) : Writer := Writer.start 0 "//"

/-! ## Head -/

/-- The constant that names the project. -/
def projectName : Label := .text "PROJECT_NAME"

/-- What the comments at the head of a program say. -/
def banner (unit : CompiledUnit) (backend : Backend) : List String :=
  ["Generated by patchflow (" ++ backend.name ++ " backend).",
    "Do not edit by hand; re-run the compiler to regenerate."]
  ++ (match Table.get? unit.globals projectName with
    | some name => if name.isGiven then ["Project: " ++ name.display] else []
    | none => [])
  ++ ["Liveness: " ++ unit.liveness,
    "Nodes: " ++ Text.Numeral.natText unit.topology.length]

/-- What a backend writes after the banner. -/
def prelude : Backend → List String
  | base => []
  | js => ["'use strict';", "", "const impl = \x7b\x7d;", "const nodes = \x7b\x7d;"]
  | cpp => ["", "namespace patchflow \x7b"]

/-- The head of a program. -/
def header (backend : Backend) (unit : CompiledUnit) (w : Writer) : Writer :=
  ((banner unit backend).foldl Writer.comment w).extend backend.prelude

/-! ## Implementations -/

/-- The implementation text of a type. -/
def implementation (backend : Backend) (type source : String) (w : Writer) : Writer :=
  let w := w.comment ("impl: " ++ type)
  match backend with
  | base => w.extend (Text.lines source)
  | js =>
    ((((w.line ("impl[" ++ Json.render none (.str type) ++ "] = (function () \x7b")).push.line
      "const module = \x7b exports: \x7b\x7d \x7d;").extend (Text.lines source)).line
      "return module.exports;").pop.line "\x7d)();"
  | cpp =>
    ((w.line ("namespace " ++ Text.programName type ++ " \x7b")).extend (Text.lines source)).line
      ("\x7d // namespace " ++ Text.programName type)

/-! ## Nodes -/

/-- A node as a record on one line. -/
def record (unit : CompiledUnit) (node : BoundNode) : Except Fault String := do
  let pins ← (unit.errorPins node.id).sorted
  let value ← node.sortedValue pins
  return Json.render none value

/-- The debug id of a node; a node without one is shown by its id. -/
def debugId (unit : CompiledUnit) (id : Int) : String :=
  (unit.debugIds.lookup id).getD (Text.Numeral.intText id)

/-- The variable of a node. -/
def instanceName (node : BoundNode) : String := "node_" ++ Text.Numeral.intText node.id

/-- A node of the program. -/
def node (backend : Backend) (unit : CompiledUnit) (node : BoundNode) (w : Writer) : Outcome :=
  match backend with
  | base => .ok (w.comment ("node " ++ Text.Numeral.intText node.id ++ " (" ++ node.type ++ ")"))
  | js =>
    match record unit node with
    | .error fault => .error ⟨w, .fault fault⟩
    | .ok text => .ok (w.line ("nodes[" ++ Text.Numeral.intText node.id ++ "] = " ++ text ++ ";"))
  | cpp =>
    .ok (w.line (Text.programName node.type ++ "::Node " ++ instanceName node ++ "; // "
      ++ debugId unit node.id))

/-! ## Foot -/

/-- The foot of a JavaScript program: the order of the nodes, their debug ids, and what the module
exports. -/
def exports (unit : CompiledUnit) : List String :=
  ["", "const topology = " ++ Json.render none (.arr (unit.topology.map .int)) ++ ";",
    "const debugIds = " ++ Json.render none
      (.obj (Members.sorted (CompiledUnit.idMembers .str unit.debugIds))) ++ ";",
    "", "module.exports = \x7b impl, nodes, topology, debugIds \x7d;"]

/-- The statement that tracks an error pin. -/
def trackStatement (node : BoundNode) (pin : Label) : String :=
  "detail::trackError(&" ++ instanceName node ++ ", \"" ++ pin.display ++ "\");"

/-- The statements that evaluate some nodes. -/
def evaluations (unit : CompiledUnit) (w : Writer) : List BoundNode → Outcome
  | [] => .ok w
  | node :: rest =>
    let evaluate := Text.programName node.type ++ "::evaluate(&" ++ instanceName node ++ ");"
    let affected := unit.errorPins node.id
    if affected.isEmpty then evaluations unit (w.line evaluate) rest
    else
      let w := w.line "#if defined(PATCHFLOW_DEBUG) || defined(PATCHFLOW_SIMULATION)"
      match affected.sorted with
      | .error fault => .error ⟨w, .fault fault⟩
      | .ok pins =>
        let w := (w.extend (pins.map (trackStatement node))).line "#endif"
        evaluations unit (w.line evaluate) rest

/-- The foot of a program. -/
def footer (backend : Backend) (unit : CompiledUnit) (w : Writer) : Outcome :=
  match backend with
  | base => .ok w
  | js => .ok (w.extend (exports unit))
  | cpp =>
    let w := (w.blank.line "void runTransaction() \x7b").push
    match unit.orderedNodes with
    | .error failure => .error ⟨w, failure⟩
    | .ok nodes =>
      (evaluations unit w nodes).map fun w =>
        w.pop.extend ["\x7d", "", "\x7d // namespace patchflow"]

end Backend

end Patchbay
