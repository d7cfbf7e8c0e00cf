import Patchbay.Flat.Graph
import Patchbay.Project.Closure

/-!
# Inlining

Patch instances are replaced by the nodes of their patches, pass by pass, until only primitives
are left. The nodes of the entry patch keep their ids. A pass inlines the instances that are there
when it starts, by ascending id; the nodes of an instance take the ids after the greatest one in
use, by ascending local id, and instances among them wait for the next pass.

The terminals of an inlined patch stay as nodes. A link end on the boundary of the instance moves
to the terminal it names, and so does a literal value; other literal values of the instance are
dropped.

A step that fails leaves behind what it did before it failed.
-/

namespace Patchbay

/-- A link in the direction of the data, whose ends may still lie on instances. -/
structure Edge where
  source : LinkEnd
  target : LinkEnd
  deriving DecidableEq, Inhabited

/-- A graph under construction. -/
structure Inlining where
  closure : Closure
  /-- The nodes in order of arrival, each under its id. -/
  nodes : List FlatNode
  edges : List Edge
  /-- The greatest id in use. -/
  maxId : Int
  /-- The passes made. -/
  passes : Nat
  deriving Inhabited

namespace Inlining

/-- What a step answers: the graph after it, or the graph as far as the step got. -/
abbrev Outcome := Except (Stopped Inlining) Inlining

/-- A graph without nodes, over the patches of a closure. -/
def start (closure : Closure) : Inlining := ⟨closure, [], [], 0, 0⟩

/-! ## Direction of links -/

/-- The direction of the pin that a link end addresses, on a node of a type; a type without a
signature may have any pins. -/
def direction (kinds : Kinds) (link : String) (type : String) (e : LinkEnd) :
    Except Failure (Option Direction) :=
  match kinds.kind type with
  | .error failure => .error failure
  | .ok (.subPatch path) =>
    match e.pin with
    | .boundary direction _ => .ok (some direction)
    | .named _ => .error (.notOnBoundary link e path)
  | .ok (.primitive p) =>
    match p.direction? e.pin.key with
    | some direction => .ok (some direction)
    | none => if p.hasSignature then .error (.noPin link e p.type) else .ok none

/-- The type of a node of a patch. -/
def typeIn (patch : Patch) (id : Int) : Except Failure String :=
  match patch.node? id with
  | some node => .ok node.type
  | none => .error (.fault (.missing (.int id)))

/-- The link from its output to its input: where neither end says, the order of the document
decides. -/
def orient (kinds : Kinds) (patch : Patch) (link : Link) : Except Failure Edge := do
  let type ← typeIn patch link.first.node
  let first ← direction kinds link.id type link.first
  let type ← typeIn patch link.second.node
  let second ← direction kinds link.id type link.second
  match first, second with
  | some a, some b =>
    if a = b then .error (.sameDirection link.id a link.first link.second)
    else if a = .input then .ok ⟨link.second, link.first⟩
    else .ok ⟨link.first, link.second⟩
  | some .input, none => .ok ⟨link.second, link.first⟩
  | none, some .output => .ok ⟨link.second, link.first⟩
  | _, _ => .ok ⟨link.first, link.second⟩

/-- The global ids of the nodes of a patch, by local id. -/
abbrev Places := List (Int × Int)

/-- The global id of a local node. -/
def place (places : Places) (id : Int) : Except Failure Int :=
  match places.lookup id with
  | some global => .ok global
  | none => .error (.fault (.missing (.int id)))

/-- A link of a patch as an edge between the places of its nodes. -/
def placedEdge (kinds : Kinds) (patch : Patch) (places : Places) (link : Link) :
    Except Failure Edge := do
  let edge ← orient kinds patch link
  let source ← place places edge.source.node
  let target ← place places edge.target.node
  return ⟨⟨source, edge.source.pin⟩, ⟨target, edge.target.pin⟩⟩

/-- The graph with edges for some links of a patch. -/
def addEdges (patch : Patch) (places : Places) (c : Inlining) : List Link → Outcome
  | [] => .ok c
  | link :: rest =>
    match placedEdge c.closure.kinds patch places link with
    | .error failure => .error ⟨c, failure⟩
    | .ok edge => addEdges patch places { c with edges := c.edges ++ [edge] } rest

/-- The graph with edges for the links of a patch, by ascending link id. -/
def addLinks (c : Inlining) (patch : Patch) (places : Places) : Outcome :=
  match patch.sortedLinks with
  | .error fault => .error ⟨c, .fault fault⟩
  | .ok links => addEdges patch places c links

/-! ## Nodes -/

/-- The nodes with one more; a node of the same id gives up its place to it. -/
def putNode (node : FlatNode) : List FlatNode → List FlatNode
  | [] => [node]
  | other :: rest => if other.id = node.id then node :: rest else other :: putNode node rest

/-- The nodes with a property of one of them set. -/
def setProperty (id : Int) (key : String) (value : Value) (nodes : List FlatNode) :
    List FlatNode :=
  nodes.map fun node =>
    if node.id = id then { node with properties := node.properties.put key value } else node

/-- The copies of the nodes of a patch, numbered from `first` on. -/
def copies (debugId : String) (first : Int) : List Node → List FlatNode
  | [] => []
  | node :: rest =>
    ⟨first, node.type, node.properties, node.arity,
      debugId ++ "~" ++ Text.Numeral.intText node.id⟩ :: copies debugId (first + 1) rest

/-- The places of nodes numbered from `first` on. -/
def placesFrom (first : Int) : List Node → Places
  | [] => []
  | node :: rest => (node.id, first) :: placesFrom (first + 1) rest

/-! ## Boundaries -/

/-- The global id of the terminal that a boundary reference of an instance names. -/
def terminalPlace (kinds : Kinds) (patch : Patch) (places : Places) (owner : Int)
    (direction : Direction) (terminal : Nat) : Except Failure Int :=
  let refusal : Failure := .noTerminal owner direction terminal patch.path
  match patch.node? terminal with
  | none => .error refusal
  | some node =>
    match kinds.kind node.type with
    | .error failure => .error failure
    | .ok (.subPatch _) => .error refusal
    | .ok (.primitive p) =>
      if p.terminal.map Terminal.direction = some direction then place places terminal
      else .error refusal

/-- A link end, moved to the terminal if it lies on the instance. -/
def splice (kinds : Kinds) (patch : Patch) (places : Places) (owner : Int) (e : LinkEnd) :
    Except Failure LinkEnd :=
  if e.node ≠ owner then .ok e
  else match e.pin with
    | .named _ => .error (.fault .notABoundary)
    | .boundary direction terminal =>
      (terminalPlace kinds patch places owner direction terminal).map
        fun global => ⟨global, .named Terminal.pinKey⟩

/-- Edges with the ends that lie on the instance moved. -/
def spliceEdges (kinds : Kinds) (patch : Patch) (places : Places) (owner : Int) :
    List Edge → Except Failure (List Edge)
  | [] => .ok []
  | edge :: rest => do
    let source ← splice kinds patch places owner edge.source
    let target ← splice kinds patch places owner edge.target
    let others ← spliceEdges kinds patch places owner rest
    return ⟨source, target⟩ :: others

/-- The graph with literal values of an instance moved onto its terminals. -/
def moveLiterals (patch : Patch) (places : Places) (owner : Int) (c : Inlining) :
    Members → Outcome
  | [] => .ok c
  | (key, value) :: rest =>
    match PinRef.read key with
    | .error fault => .error ⟨c, .fault fault⟩
    | .ok (.named _) => moveLiterals patch places owner c rest
    | .ok (.boundary direction terminal) =>
      match terminalPlace c.closure.kinds patch places owner direction terminal with
      | .error failure => .error ⟨c, failure⟩
      | .ok global =>
        let nodes := setProperty global Terminal.pinKey value c.nodes
        moveLiterals patch places owner { c with nodes } rest

/-! ## Instances -/

/-- Takes a node out of the graph. -/
def takeNode (c : Inlining) (id : Int) : Except (Stopped Inlining) (FlatNode × Inlining) :=
  match c.nodes.find? (·.id = id) with
  | none => .error ⟨c, .fault (.missing (.int id))⟩
  | some node => .ok (node, { c with nodes := c.nodes.filter (·.id ≠ id) })

/-- The patch that a type instantiates. -/
def instancePatch (closure : Closure) (type : String) : Except Failure Patch :=
  match closure.kinds.kind type with
  | .error failure => .error failure
  | .ok (.primitive _) => .error (.fault .notAnInstance)
  | .ok (.subPatch path) => closure.patch path

/-- The graph with the nodes of a patch added under the next ids. -/
def addCopies (c : Inlining) (patch : Patch) (debugId : String) : Inlining :=
  let added := copies debugId (c.maxId + 1) patch.sortedNodes
  { c with nodes := added.foldl (fun nodes node => putNode node nodes) c.nodes,
           maxId := c.maxId + patch.nodes.length }

/-- The graph with one instance replaced by the nodes and links of its patch. -/
def inline (c : Inlining) (id : Int) : Outcome := do
  let (owner, c) ← c.takeNode id
  match instancePatch c.closure owner.type with
  | .error failure => .error ⟨c, failure⟩
  | .ok patch =>
    let places := placesFrom (c.maxId + 1) patch.sortedNodes
    let c ← moveLiterals patch places id (c.addCopies patch owner.debugId) owner.properties.sorted
    match spliceEdges c.closure.kinds patch places id c.edges with
    | .error failure => .error ⟨c, failure⟩
    | .ok edges => addLinks { c with edges } patch places

/-- The graph with some instances replaced, one after the other. -/
def inlineAll (c : Inlining) : List Int → Outcome
  | [] => .ok c
  | id :: rest => do
    let c ← c.inline id
    inlineAll c rest

/-- The ids of the nodes that are patch instances, in order of arrival. -/
def instances (kinds : Kinds) : List FlatNode → Except Failure (List Int)
  | [] => .ok []
  | node :: rest => do
    let kind ← kinds.kind node.type
    let others ← instances kinds rest
    return match kind with
      | .subPatch _ => node.id :: others
      | .primitive _ => others

/-- The ids of the instances that wait for the next pass, ascending. -/
def pending (c : Inlining) : Except Failure (List Int) :=
  (instances c.closure.kinds c.nodes).map fun ids => ids.mergeSort fun a b => a ≤ b

/-- Passes until no instance is left, at most so many. -/
def expand : Nat → Inlining → Outcome
  | 0, c => .ok c
  | fuel + 1, c =>
    match c.pending with
    | .error failure => .error ⟨c, failure⟩
    | .ok [] => .ok c
    | .ok (id :: ids) => do
      let c ← inlineAll { c with passes := c.passes + 1 } (id :: ids)
      expand fuel c

/-- The greatest local id of a patch, zero where it has no nodes. -/
def greatestId (patch : Patch) : Int :=
  match patch.nodes.map Node.id with
  | [] => 0
  | id :: ids => ids.foldl max id

/-- The nodes of the entry patch under their own ids. -/
def entryNodes (patch : Patch) : List FlatNode :=
  patch.sortedNodes.map fun node =>
    ⟨node.id, node.type, node.properties, node.arity, Text.Numeral.intText node.id⟩

/-- The graph with the entry patch put in and all instances inlined. Patches nest at most as deep
as there are patches, which bounds the passes. -/
def run (c : Inlining) : Outcome := do
  let entry := c.closure.entry
  let c := { c with
    nodes := (entryNodes entry).foldl (fun nodes node => putNode node nodes) c.nodes,
    maxId := greatestId entry, passes := 0 }
  let c ← c.addLinks entry (entry.nodes.map fun node => (node.id, node.id))
  expand (c.closure.patches.length + 1) c

/-- The flat graph of what has been built: nodes by ascending id and links without repetition. -/
def graph (c : Inlining) : FlatGraph where
  nodes := c.nodes.mergeSort fun a b => a.id ≤ b.id
  links :=
    (c.edges.map fun edge =>
      (⟨edge.source.node, edge.source.pin.key, edge.target.node, edge.target.pin.key⟩ :
        FlatLink)).eraseDups.mergeSort FlatLink.le

end Inlining

/-- The flat graph of a closure. -/
def Closure.flatten (closure : Closure) : Except Failure FlatGraph :=
  match (Inlining.start closure).run with
  | .ok c => .ok c.graph
  | .error stopped => .error stopped.failure

end Patchbay
