import Patchbay.CompiledUnit
import Patchbay.Flat.Inlining
import Patchbay.Flat.Schedule
import Patchbay.Project.Document

/-!
# Compilation

From a project and an entry patch to a unit: the patches that the entry needs are inlined, the
terminals typed, the nodes bound and put in order, and the reach of errors is traced. A request
holds its parameters as the values that a caller gives; a parameter of a wrong kind is a fault at
the step that needs it.
-/

namespace Patchbay

/-- What to compile, and how. -/
structure Request where
  /-- The path of the patch to compile. -/
  entry : Value
  /-- The mode of error liveness. -/
  mode : Value := .str (Liveness.name .none)
  /-- The constants that implementation texts may name. -/
  globals : Value := .null
  /-- Whether unknown node types are refused. -/
  strict : Bool := false

namespace Request

/-! ## Parameters -/

/-- The items that a value holds, one after another: those of an array, the keys of an object, the
characters of a text. -/
def sequence? : Value → Option (List Value)
  | .arr items => some items
  | .obj members => some (members.map fun (key, _) => .str key)
  | .str s => some ((Text.codes s.toList).map fun code => .str (String.ofList (Text.charsOf code)))
  | _ => none

/-- The names of the backends whose implementation texts are taken, the preferred one first. -/
def backends (v : Value) : Except Fault (List Value) :=
  match sequence? v with
  | some items => .ok items
  | none => .error (.notIterable v.kindName)

/-- Constants given as a list of pairs, the entry with number `place` first. -/
def pairs (place : Nat) (table : Table Value) : List Value → Except Fault (Table Value)
  | [] => .ok table
  | item :: rest =>
    match sequence? item with
    | none => .error (.notASequence place)
    | some [key, value] =>
      match Label.ofValue key with
      | .error fault => .error fault
      | .ok label => pairs (place + 1) (Table.put label value table) rest
    | some items => .error (.notAPair place items.length)

/-- The constants that a value gives: nothing, an object, or a list of pairs. -/
def constants (v : Value) : Except Fault (Table Value) :=
  if !v.isGiven then .ok []
  else match v with
    | .obj members => .ok (members.map fun (key, value) => (.text key, value))
    | v => match sequence? v with
      | some items => pairs 0 [] items
      | none => .error (.notIterable v.kindName)

/-- The closure of the patch that a value names. -/
def closure (project : Project) (strict : Bool) (entry : Value) : Except Failure Closure :=
  match Label.ofValue entry with
  | .error fault => .error (.fault fault)
  | .ok (.text path) => Closure.ofEntry project path strict
  | .ok _ => .error (.noPatch entry)

/-- A step that fails by a fault only, as a step of a compilation. -/
def lift {α : Type} (step : Except Fault α) : Except Failure α := step.mapError .fault

/-! ## Stages -/

/-- The unit of a flat graph; the pins that an error can reach are traced in the mode. -/
def assemble (mode : Liveness) (globals : Value) (backends : List Value) (kinds : Kinds)
    (graph : FlatGraph) : Except Failure CompiledUnit := do
  let nodes ← match (Typing.start kinds graph).bindAll with
    | .ok (_, nodes) => .ok nodes
    | .error stopped => .error stopped.failure
  let topology ← graph.schedule
  let affected ← Liveness.reach mode kinds nodes topology
  let templates ← collectTemplates kinds nodes backends
  let globals ← lift (constants globals)
  return { nodes, topology, templates, affected, globals,
           debugIds := graph.nodes.map fun node => (node.id, node.debugId),
           liveness := mode.name }

/-- The unit of a project. -/
def compile (request : Request) (backends : List Value) (project : Project) :
    Except Failure CompiledUnit := do
  let mode ← lift (Liveness.ofValue request.mode)
  let closure ← closure project request.strict request.entry
  let graph ← closure.flatten
  assemble mode request.globals backends closure.kinds graph

/-- The unit of a project document. -/
def compileDocument (request : Request) (backends document : Value) :
    Except Failure CompiledUnit := do
  let backends ← lift (Request.backends backends)
  let project ← Document.project document
  request.compile backends project

end Request

end Patchbay
