import Patchbay.Proofs.Flat.Flattening
import Patchbay.Proofs.Flat.LinkOrder

/-!
# Sound flat graphs

In the flat graph of a sound closure every link joins nodes of the graph, and the type of every node
is primitive (`sound_of_flatten`).
-/

namespace Patchbay

namespace FlatGraph

/-- A flat graph on which the later stages find all that they look up. -/
structure Sound (kinds : Kinds) (graph : FlatGraph) : Prop where
  ends_known : ∀ l ∈ graph.links, l.source ∈ graph.ids ∧ l.target ∈ graph.ids
  primitive : ∀ node ∈ graph.nodes, ∃ p, kinds.primitive node.type = .ok p ∧ p.type = node.type

variable {kinds : Kinds} {graph : FlatGraph} {id : Int}

theorem exists_node? (h : id ∈ graph.ids) :
    ∃ node ∈ graph.nodes, graph.node? id = some node ∧ node.id = id :=
  Keyed.exists_find? h

theorem Sound.source_mem (hg : graph.Sound kinds) {l : FlatLink} (hl : l ∈ graph.links) :
    l.source ∈ graph.ids :=
  (hg.ends_known l hl).1

end FlatGraph

/-- The flat link of an edge. -/
def Edge.flat (edge : Edge) : FlatLink :=
  ⟨edge.source.node, edge.source.pin.key, edge.target.node, edge.target.pin.key⟩

namespace Inlining

variable {c : Inlining}

theorem mem_graph_nodes_iff {flat : FlatNode} : flat ∈ c.graph.nodes ↔ flat ∈ c.nodes :=
  (List.mergeSort_perm _ _).mem_iff

theorem nodup_ids_graph (h : (c.nodes.map FlatNode.id).Nodup) : c.graph.ids.Nodup :=
  (((List.mergeSort_perm c.nodes _).map FlatNode.id).nodup_iff).mpr h

theorem nodup_links_graph (c : Inlining) : c.graph.links.Nodup :=
  (List.mergeSort_perm _ _).nodup_iff.mpr (nodup_eraseDups _)

theorem mem_graph_links_iff {l : FlatLink} :
    l ∈ c.graph.links ↔ ∃ edge ∈ c.edges, l = edge.flat := by
  simp only [graph, List.mem_mergeSort, List.mem_eraseDups, List.mem_map, Edge.flat, eq_comm]

end Inlining

/-- Ids tell the nodes of the flat graph of a sound closure apart. -/
theorem Closure.Sound.nodup_of_flatten {closure : Closure} (hs : closure.Sound)
    {graph : FlatGraph} (hf : closure.flatten = .ok graph) : graph.ids.Nodup := by
  obtain ⟨c, sites, rfl, h⟩ := Inlining.complete_of_flatten hs hf
  exact Inlining.nodup_ids_graph h.unfolds.sound.ids_nodup

theorem Closure.Sound.nodup_links_of_flatten {closure : Closure} (hs : closure.Sound)
    {graph : FlatGraph} (hf : closure.flatten = .ok graph) : graph.links.Nodup := by
  obtain ⟨c, sites, rfl, h⟩ := Inlining.complete_of_flatten hs hf
  exact c.nodup_links_graph

/-- The flat graph of a sound closure is sound. -/
theorem Closure.Sound.sound_of_flatten {closure : Closure} (hs : closure.Sound)
    {graph : FlatGraph} (hf : closure.flatten = .ok graph) : graph.Sound closure.kinds := by
  obtain ⟨c, sites, rfl, h⟩ := Inlining.complete_of_flatten hs hf
  refine ⟨fun l hl => ?_, fun flat hflat => ?_⟩
  · obtain ⟨edge, hedge, rfl⟩ := Inlining.mem_graph_links_iff.mp hl
    have hknown : ∀ e ∈ edge.ends, e.node ∈ c.graph.ids := by
      intro e he
      obtain ⟨flat, hflat, hid⟩ := h.unfolds.sound.ends_known edge hedge e he
      exact List.mem_map.mpr ⟨flat, Inlining.mem_graph_nodes_iff.mpr hflat, hid⟩
    exact ⟨hknown edge.source edge.source_mem_ends, hknown edge.target edge.target_mem_ends⟩
  · have hflat := Inlining.mem_graph_nodes_iff.mp hflat
    rcases hs.kind_cases (h.unfolds.sound.classified flat hflat) with ⟨q, hq, _⟩ | ⟨p, hkind, _⟩
    · exact absurd ⟨q, hq⟩ (h.primitive flat hflat)
    · exact ⟨p, Kinds.primitive_eq_ok_iff.mpr hkind, (hs.primitive_kind _ _ hkind).1⟩

end Patchbay
