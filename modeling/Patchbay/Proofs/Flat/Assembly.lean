import Patchbay.Proofs.Flat.GlobalIds

/-!
# Flat graphs of any closure

Whatever the patches of a closure hold, ids tell the nodes of its flat graph apart, and its links
join nodes of it (`intact_of_flatten`): at each stage of the run the ends of the edges lie on the
ids of nodes that are there, since nodes arrive before the edges that are placed on them, and no
edge is left on an instance that has given way.
-/

namespace Patchbay.Inlining

/-- Ids tell the nodes apart, and the edges end on nodes. -/
structure Intact (c : Inlining) : Prop where
  ids_nodup : (c.nodes.map FlatNode.id).Nodup
  ends_known : ∀ edge ∈ c.edges, ∀ e ∈ edge.ends, e.node ∈ c.nodes.map FlatNode.id

variable {c c' : Inlining} {patch : Patch} {places : Places} {owner id : Int} {kinds : Kinds}

/-! ## Nodes that arrive -/

theorem mem_ids_putNode {node : FlatNode} {nodes : List FlatNode} :
    id ∈ (putNode node nodes).map FlatNode.id ↔ id = node.id ∨ id ∈ nodes.map FlatNode.id := by
  induction nodes with
  | nil => simp [putNode]
  | cons other rest ih =>
    unfold putNode
    split
    · next h => simp [h]
    · rw [List.map_cons, List.mem_cons, ih, List.map_cons, List.mem_cons]
      tauto

theorem nodup_putNode {node : FlatNode} {nodes : List FlatNode}
    (h : (nodes.map FlatNode.id).Nodup) : ((putNode node nodes).map FlatNode.id).Nodup := by
  induction nodes with
  | nil => simp [putNode]
  | cons other rest ih =>
    rw [List.map_cons, List.nodup_cons] at h
    unfold putNode
    split
    · next heq => rwa [List.map_cons, List.nodup_cons, ← heq]
    · next hne =>
      rw [List.map_cons, List.nodup_cons, mem_ids_putNode]
      exact ⟨fun hmem => hmem.elim hne h.1, ih h.2⟩

theorem mem_ids_foldl_putNode {added nodes : List FlatNode} :
    id ∈ (added.foldl (fun nodes node => putNode node nodes) nodes).map FlatNode.id ↔
      id ∈ added.map FlatNode.id ∨ id ∈ nodes.map FlatNode.id := by
  induction added generalizing nodes with
  | nil => simp
  | cons node rest ih =>
    rw [List.foldl_cons, ih, mem_ids_putNode, List.map_cons, List.mem_cons]
    tauto

theorem nodup_foldl_putNode (added : List FlatNode) {nodes : List FlatNode}
    (h : (nodes.map FlatNode.id).Nodup) :
    ((added.foldl (fun nodes node => putNode node nodes) nodes).map FlatNode.id).Nodup := by
  induction added generalizing nodes with
  | nil => exact h
  | cons node rest ih => exact ih (nodup_putNode h)

/-! ## Places -/

/-- The places of a patch are ids of nodes of the graph. -/
def Settled (c : Inlining) (places : Places) : Prop :=
  ∀ entry ∈ places, entry.2 ∈ c.nodes.map FlatNode.id

theorem mem_ids_of_place (h : c.Settled places) {local' : Int}
    (hplace : place places local' = .ok id) : id ∈ c.nodes.map FlatNode.id := by
  unfold place at hplace
  split at hplace
  · next hlookup =>
    obtain rfl := Except.ok.inj hplace
    exact h _ (Keyed.mem_of_lookup hlookup)
  · exact absurd hplace (by simp)

theorem place_of_terminalPlace {d : Direction} {terminal : Nat}
    (h : terminalPlace kinds patch places owner d terminal = .ok id) :
    place places terminal = .ok id := by
  unfold terminalPlace at h
  dsimp only at h
  split at h
  · exact absurd h (by simp)
  · split at h
    · exact absurd h (by simp)
    · exact absurd h (by simp)
    · split at h
      · exact h
      · exact absurd h (by simp)

theorem ids_copies (debugId : String) (first : Int) (nodes : List Node) :
    (copies debugId first nodes).map FlatNode.id = (placesFrom first nodes).map Prod.snd := by
  induction nodes generalizing first with
  | nil => rfl
  | cons node rest ih => rw [copies, placesFrom, List.map_cons, List.map_cons, ih]

/-- The places of the copies of a patch are their ids. -/
theorem settled_addCopies (c : Inlining) (patch : Patch) (debugId : String) :
    (c.addCopies patch debugId).Settled (placesFrom (c.maxId + 1) patch.sortedNodes) := by
  intro entry hentry
  unfold addCopies
  dsimp only
  rw [mem_ids_foldl_putNode, ids_copies]
  exact .inl (List.mem_map_of_mem hentry)

/-! ## Edges that arrive -/

theorem placedEdge_ends {link : Link} {edge : Edge} (hc : c.Settled places)
    (h : placedEdge kinds patch places link = .ok edge) :
    ∀ e ∈ edge.ends, e.node ∈ c.nodes.map FlatNode.id := by
  obtain ⟨directed, _, h⟩ := bind_eq_ok.mp h
  obtain ⟨source, hsource, h⟩ := bind_eq_ok.mp h
  obtain ⟨target, htarget, h⟩ := bind_eq_ok.mp h
  obtain rfl := pure_eq_ok.mp h
  intro e he
  rcases Edge.mem_ends_iff.mp he with rfl | rfl
  · exact mem_ids_of_place hc hsource
  · exact mem_ids_of_place hc htarget

theorem Intact.addEdges (h : c.Intact) (hc : c.Settled places) {links : List Link}
    (hadd : addEdges patch places c links = .ok c') : c'.Intact := by
  induction links generalizing c with
  | nil => exact Except.ok.inj hadd ▸ h
  | cons link rest ih =>
    unfold Inlining.addEdges at hadd
    split at hadd
    · exact absurd hadd (by simp)
    · next edge hedge =>
      refine @ih { c with edges := c.edges ++ [edge] } ⟨h.ids_nodup, fun other hother => ?_⟩ hc hadd
      rcases List.mem_append.mp hother with hother | hother
      · exact h.ends_known other hother
      · obtain rfl := List.mem_singleton.mp hother
        exact placedEdge_ends hc hedge

theorem Intact.addLinks (h : c.Intact) (hc : c.Settled places)
    (hadd : c.addLinks patch places = .ok c') : c'.Intact := by
  unfold Inlining.addLinks at hadd
  split at hadd
  · exact absurd hadd (by simp)
  · exact h.addEdges hc hadd

/-! ## Instances that give way -/

theorem ids_setProperty (key : String) (value : Value) (nodes : List FlatNode) :
    (setProperty id key value nodes).map FlatNode.id = nodes.map FlatNode.id := by
  rw [setProperty, List.map_map]
  refine List.map_congr_left fun node _ => ?_
  dsimp only [Function.comp_apply]
  split <;> rfl

/-- Literal values that move change neither the edges nor the ids. -/
theorem kept_of_moveLiterals {literals : Members}
    (h : moveLiterals patch places owner c literals = .ok c') :
    c'.edges = c.edges ∧ c'.nodes.map FlatNode.id = c.nodes.map FlatNode.id := by
  induction literals generalizing c with
  | nil =>
    obtain rfl := Except.ok.inj h
    exact ⟨rfl, rfl⟩
  | cons literal rest ih =>
    unfold moveLiterals at h
    split at h
    · exact absurd h (by simp)
    · exact ih h
    · split at h
      · exact absurd h (by simp)
      · obtain ⟨hedges, hids⟩ := ih h
        exact ⟨hedges, hids.trans (ids_setProperty _ _ _)⟩

theorem splice_known {e moved : LinkEnd} (hc : c.Settled places)
    (he : e.node ≠ owner → e.node ∈ c.nodes.map FlatNode.id)
    (h : splice kinds patch places owner e = .ok moved) :
    moved.node ∈ c.nodes.map FlatNode.id := by
  unfold splice at h
  split at h
  · next hne =>
    obtain rfl := Except.ok.inj h
    exact he hne
  · split at h
    · exact absurd h (by simp)
    · obtain ⟨global, hglobal, rfl⟩ := map_eq_ok.mp h
      exact mem_ids_of_place hc (place_of_terminalPlace hglobal)

/-- The edges have no end on the instance any more. -/
theorem spliceEdges_known {edges moved : List Edge} (hc : c.Settled places)
    (he : ∀ edge ∈ edges, ∀ e ∈ edge.ends, e.node ≠ owner → e.node ∈ c.nodes.map FlatNode.id)
    (h : spliceEdges kinds patch places owner edges = .ok moved) :
    ∀ edge ∈ moved, ∀ e ∈ edge.ends, e.node ∈ c.nodes.map FlatNode.id := by
  induction edges generalizing moved with
  | nil =>
    obtain rfl := Except.ok.inj h
    simp
  | cons edge rest ih =>
    obtain ⟨source, hsource, h⟩ := bind_eq_ok.mp h
    obtain ⟨target, htarget, h⟩ := bind_eq_ok.mp h
    obtain ⟨others, hothers, h⟩ := bind_eq_ok.mp h
    obtain rfl := pure_eq_ok.mp h
    have hedge := he edge List.mem_cons_self
    refine List.forall_mem_cons.mpr ⟨fun e hmem => ?_,
      ih (fun other hother => he other (List.mem_cons_of_mem _ hother)) hothers⟩
    rcases Edge.mem_ends_iff.mp hmem with rfl | rfl
    · exact splice_known hc (hedge _ edge.source_mem_ends) hsource
    · exact splice_known hc (hedge _ edge.target_mem_ends) htarget

/-- To inline an instance keeps the graph intact. -/
theorem Intact.inline (h : c.Intact) (hc : c.inline id = .ok c') : c'.Intact := by
  obtain ⟨⟨node, taken⟩, htake, hc⟩ := bind_eq_ok.mp hc
  unfold takeNode at htake
  split at htake
  · exact absurd htake (by simp)
  next found _ =>
  obtain ⟨rfl, rfl⟩ := Prod.mk.inj (Except.ok.inj htake)
  dsimp only at hc
  split at hc
  · exact absurd hc (by simp)
  next patch _ =>
  obtain ⟨d, hmoved, hc⟩ := bind_eq_ok.mp hc
  split at hc
  · exact absurd hc (by simp)
  next edges hedges =>
  obtain ⟨hsame, hids⟩ := kept_of_moveLiterals hmoved
  have hleft : ((c.nodes.filter (·.id ≠ id)).map FlatNode.id).Nodup :=
    h.ids_nodup.sublist (List.filter_sublist.map _)
  have hsettled : Settled d (placesFrom (c.maxId + 1) patch.sortedNodes) := by
    unfold Settled
    rw [hids]
    exact settled_addCopies { c with nodes := c.nodes.filter (·.id ≠ id) } patch found.debugId
  have hstay : ∀ edge ∈ d.edges, ∀ e ∈ edge.ends, e.node ≠ id →
      e.node ∈ d.nodes.map FlatNode.id := by
    intro edge hedge e he hne
    rw [hsame] at hedge
    obtain ⟨flat, hflat, hfid⟩ := List.mem_map.mp (h.ends_known edge hedge e he)
    rw [hids, Inlining.addCopies, mem_ids_foldl_putNode]
    refine .inr (List.mem_map.mpr ⟨flat, List.mem_filter.mpr ⟨hflat, ?_⟩, hfid⟩)
    simpa [hfid] using hne
  refine Intact.addLinks (c := { d with edges }) ⟨?_, spliceEdges_known hsettled hstay hedges⟩
    hsettled hc
  rw [hids]
  exact nodup_foldl_putNode _ hleft

/-! ## The run -/

theorem Intact.steps {waiting waiting' : List Int} (h : c.Intact)
    (hsteps : Relation.ReflTransGen Step (c, waiting) (c', waiting')) : c'.Intact := by
  have hrun : ∀ s t, Relation.ReflTransGen Step s t → s.1.Intact → t.1.Intact := by
    intro s t hst hs
    induction hst with
    | refl => exact hs
    | tail _ hstep ih =>
      cases hstep with
      | turn _ => exact ⟨ih.ids_nodup, ih.ends_known⟩
      | inline hinline => exact ih.inline hinline
  exact hrun _ _ hsteps h

/-- The run ends with an intact graph. -/
theorem intact_of_run {closure : Closure} (h : (start closure).run = .ok c) : c.Intact := by
  obtain ⟨d, hd, hexpand⟩ := bind_eq_ok.mp h
  refine Intact.steps (Intact.addLinks ⟨nodup_foldl_putNode _ (by simp [start]), by simp [start]⟩
    ?_ hd) (steps_of_expand hexpand)
  intro entry hentry
  obtain ⟨node, hnode, rfl⟩ := List.mem_map.mp hentry
  refine mem_ids_foldl_putNode.mpr (.inl ?_)
  rw [entryNodes, List.map_map]
  exact List.mem_map.mpr ⟨node, mem_sortedNodes.mpr hnode, rfl⟩

end Patchbay.Inlining

namespace Patchbay

/-- Ids tell the nodes of a flat graph apart, and its links join nodes of it. -/
theorem Closure.intact_of_flatten {closure : Closure} {graph : FlatGraph}
    (h : closure.flatten = .ok graph) :
    graph.ids.Nodup ∧ ∀ l ∈ graph.links, l.source ∈ graph.ids ∧ l.target ∈ graph.ids := by
  unfold Closure.flatten at h
  split at h
  · next c hrun =>
    obtain rfl := Except.ok.inj h
    have hc := Inlining.intact_of_run hrun
    refine ⟨Inlining.nodup_ids_graph hc.ids_nodup, fun l hl => ?_⟩
    obtain ⟨edge, hedge, rfl⟩ := Inlining.mem_graph_links_iff.mp hl
    have hknown : ∀ e ∈ edge.ends, e.node ∈ c.graph.ids := fun e he =>
      ((List.mergeSort_perm c.nodes _).map FlatNode.id).mem_iff.mpr (hc.ends_known edge hedge e he)
    exact ⟨hknown _ edge.source_mem_ends, hknown _ edge.target_mem_ends⟩
  · exact absurd h (by simp)

end Patchbay
