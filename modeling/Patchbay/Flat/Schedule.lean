import Patchbay.Failure
import Patchbay.Flat.Graph
import Patchbay.Graph.DepthFirst

/-!
# Schedules

The order in which the nodes of a flat graph are evaluated: each after all that feed it, found by
a depth-first walk against the links, from the nodes by ascending id. Links that form a circle
have no order; the circle is reported in the direction of the data.
-/

namespace Patchbay.FlatGraph

/-- All ids that a graph mentions. -/
def mentioned (graph : FlatGraph) : List Int :=
  ascending (graph.ids ++ graph.links.map FlatLink.source ++ graph.links.map FlatLink.target)

/-- The ids of the nodes, and of all that feed them, each after what feeds it. -/
def schedule (graph : FlatGraph) : Except Failure (List Int) :=
  match DepthFirst.order graph.mentioned graph.feeders (ascending graph.ids) with
  | .ok order => .ok order
  | .error path => .error (.dataCycle path.reverse)

end Patchbay.FlatGraph
