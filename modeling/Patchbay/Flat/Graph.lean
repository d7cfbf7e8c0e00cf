import Patchbay.Project.Patch

/-!
# Flat graphs

The graph that is left when all patch instances are inlined: nodes in one space of ids and links
from an output to an input, in ascending order. `feeders` gives the nodes that feed a node.
-/

namespace Patchbay

/-- A node of a flat graph. -/
structure FlatNode where
  id : Int
  type : String
  properties : Members
  arity : Int
  /-- The local ids on the way to the node, as in `101~42`. -/
  debugId : String
  deriving Inhabited

/-- A link of a flat graph, in the direction of the data. -/
structure FlatLink where
  source : Int
  sourcePin : String
  target : Int
  targetPin : String
  deriving DecidableEq, Inhabited

/-- The order of flat links: by source, source pin, target and target pin. -/
def FlatLink.le (a b : FlatLink) : Bool :=
  if a.source ≠ b.source then a.source < b.source
  else if a.sourcePin ≠ b.sourcePin then Text.le a.sourcePin b.sourcePin
  else if a.target ≠ b.target then a.target < b.target
  else Text.le a.targetPin b.targetPin

/-- Whole numbers, each once, ascending. -/
def ascending (ids : List Int) : List Int := ids.eraseDups.mergeSort fun a b => a ≤ b

/-- Texts, each once, ascending by code points. -/
def ascendingTexts (texts : List String) : List String :=
  texts.eraseDups.mergeSort Text.le

/-- Nodes and the links between them. -/
structure FlatGraph where
  nodes : List FlatNode
  links : List FlatLink
  deriving Inhabited

namespace FlatGraph

/-- The ids of the nodes. -/
def ids (graph : FlatGraph) : List Int := graph.nodes.map FlatNode.id

/-- The node of an id. -/
def node? (graph : FlatGraph) (id : Int) : Option FlatNode := graph.nodes.find? (·.id = id)

/-- The links that end on a node, in the order of the graph. -/
def incoming (graph : FlatGraph) (id : Int) : List FlatLink := graph.links.filter (·.target = id)

/-- The links that start on a node, in the order of the graph. -/
def outgoing (graph : FlatGraph) (id : Int) : List FlatLink := graph.links.filter (·.source = id)

/-- The ids that feed an id, each once, ascending. -/
def feeders (graph : FlatGraph) (id : Int) : List Int :=
  ascending ((graph.incoming id).map FlatLink.source)

/-- The ids that a graph feeds or holds, with the ids that feed them. -/
def predecessors (graph : FlatGraph) : List (Int × List Int) :=
  (ascending (graph.ids ++ graph.links.map FlatLink.target)).map fun id => (id, graph.feeders id)

end FlatGraph

end Patchbay
