import Mathlib.Data.Set.Function
import Patchbay.Proofs.Flat.Graph
import Patchbay.Proofs.Text.Order

/-!
# The nodes of flat graphs

The nodes of a flat graph are the primitive nodes that occur in the tree of the entry, each once
(`flatten_nodes`). They are as their patches have them, but that a literal value of an instance is
on the terminal that its key names: of several keys for one terminal, the greatest counts
(`settle_sorted_cases`).
-/

namespace Patchbay

/-- The properties of a node of a site in the flat graph: its own, with the value under the
greatest key that names it among the literal values of the instance. -/
inductive Site.Settles (site : Site) (node : Node) : Members → Prop
  | own : (∀ owner, site.owner? = some owner → ∀ literal ∈ owner.properties,
        ¬ KeyNames literal.1 node.id) →
      site.Settles node node.properties
  | moved {owner : Node} {key : String} {value : Value} :
      site.owner? = some owner → (key, value) ∈ owner.properties → KeyNames key node.id →
      (∀ other ∈ owner.properties, KeyNames other.1 node.id → Text.le other.1 key = true) →
      site.Settles node (node.properties.put Terminal.pinKey value)

/-- A primitive node occurs at the path, directly inside the site. -/
structure Closure.PrimitiveAt (closure : Closure) (site : Site) (node : Node) (path : List Int) :
    Prop extends closure.Occurs site node path where
  primitive : ∃ p, closure.kinds.kind node.type = .ok (.primitive p)

theorem Members.put_put (key : String) (old new : Value) (members : Members) :
    (members.put key old).put key new = members.put key new := by
  induction members with
  | nil => simp [put]
  | cons member rest ih =>
    obtain ⟨k, v⟩ := member
    by_cases h : k = key
    · simp [put, h]
    · simp [put, h, ih]

theorem Members.pairwise_sorted (members : Members) :
    members.sorted.Pairwise fun a b => Text.le a.1 b.1 = true :=
  @List.pairwise_mergeSort _ (fun a b => Text.le a.1 b.1) (fun _ _ _ => Text.le_trans)
    (fun a b => by simpa using Text.le_total a.1 b.1) members

namespace Inlining

/-- Of ascending keys for one node, the last and greatest counts. -/
theorem settle_sorted_cases {literals : Members}
    (hsorted : literals.Pairwise fun a b => Text.le a.1 b.1 = true) (id : Int)
    (properties : Members) :
    ((∀ literal ∈ literals, ¬ KeyNames literal.1 id) ∧ settle literals id properties = properties) ∨
    ∃ literal ∈ literals, KeyNames literal.1 id ∧
      (∀ other ∈ literals, KeyNames other.1 id → Text.le other.1 literal.1 = true) ∧
      settle literals id properties = properties.put Terminal.pinKey literal.2 := by
  -- From the right: the last literal value that names the node overwrites those before it.
  induction literals using List.reverseRecOn with
  | nil => exact .inl ⟨by simp, rfl⟩
  | append_singleton done literal ih =>
    obtain ⟨key, value⟩ := literal
    obtain ⟨hdone, _, hlast⟩ := List.pairwise_append.mp hsorted
    have hih := ih hdone
    by_cases hnames : KeyNames key id
    · rw [settle_concat_of_names hnames]
      refine .inr ⟨(key, value), by simp, hnames, fun other hother _ => ?_, ?_⟩
      · rcases List.mem_append.mp hother with hother | hother
        · exact hlast other hother (key, value) (List.mem_singleton_self _)
        · rw [List.mem_singleton.mp hother]
          exact Text.le_refl _
      · rcases hih with ⟨_, heq⟩ | ⟨_, _, _, _, heq⟩
        · rw [heq]
        · rw [heq, Members.put_put]
    · rw [settle_concat_of_not_names hnames]
      rcases hih with ⟨hnone, heq⟩ | ⟨found, hfound, hfor, hgreatest, heq⟩
      · refine .inl ⟨fun other hother => ?_, heq⟩
        rcases List.mem_append.mp hother with hother | hother
        · exact hnone other hother
        · rwa [List.mem_singleton.mp hother]
      · refine .inr ⟨found, List.mem_append_left _ hfound, hfor, fun other hother h => ?_, heq⟩
        rcases List.mem_append.mp hother with hother | hother
        · exact hgreatest other hother h
        · rw [List.mem_singleton.mp hother] at h
          exact absurd h hnames

/-- What is shown of a node has the literal values of the instance settled. -/
theorem Shows.settles {site : Site} {node : Node} {flat : FlatNode} (h : Shows site node flat) :
    site.Settles node flat.properties := by
  rw [h.properties_eq, Site.literals]
  cases howner : site.owner? with
  | none => exact .own (by simp [howner])
  | some owner =>
    have hmem : ∀ literal, literal ∈ owner.properties.sorted ↔ literal ∈ owner.properties :=
      fun literal => (List.mergeSort_perm _ _).mem_iff
    rcases settle_sorted_cases owner.properties.pairwise_sorted node.id node.properties with
      ⟨hnone, heq⟩ | ⟨⟨key, value⟩, hkey, hnames, hgreatest, heq⟩
    · simp only [heq]
      refine .own fun owner' howner' literal hliteral => ?_
      obtain rfl := Option.some.inj (howner.symm.trans howner')
      exact hnone literal ((hmem literal).mpr hliteral)
    · simp only [heq]
      exact .moved howner ((hmem _).mp hkey) hnames fun other hother h =>
        hgreatest other ((hmem other).mpr hother) h

namespace Complete

variable {closure : Closure} {sites : List Site} {c : Inlining} {site : Site} {node : Node}
  {path : List Int}

/-- The leaves are the primitive nodes that occur. -/
theorem leaf_iff (hs : closure.Sound) (h : Complete closure sites c) :
    Leaf sites site node path ↔ closure.PrimitiveAt site node path := by
  constructor
  · intro hleaf
    have hstands := (h.mem_iff site).mp hleaf.site_mem
    refine ⟨⟨hstands, hleaf.node_mem, hleaf.path_eq⟩, ?_⟩
    rcases hs.kind_cases (hs.classified _ (hs.patch_mem hstands) node hleaf.node_mem) with
      ⟨q, hq, _⟩ | ⟨p, hkind, _⟩
    · have hinner := (h.mem_iff _).mpr (.inner hstands hleaf.node_mem hq)
      exact absurd hleaf.path_eq.symm (hleaf.shut _ hinner)
    · exact ⟨p, hkind⟩
  · rintro ⟨⟨hstands, hn, hpath⟩, p, hkind⟩
    refine ⟨(h.mem_iff site).mpr hstands, hn, hpath, fun inner hinner heq => ?_⟩
    have hinst := hs.instantiates_of_below hstands hn ((h.mem_iff inner).mp hinner)
      (heq.trans hpath)
    exact (hs.primitive_kind _ _ hkind).2 inner.patch hinst.1 hinst.2

end Complete

variable {closure : Closure}

/-- The nodes of the graph of a sound closure are the primitive nodes that occur, each shown
once. -/
theorem primitives_of_flatten (hs : closure.Sound) {graph : FlatGraph}
    (hf : closure.flatten = .ok graph) :
    (graph.nodes.map FlatNode.debugId).Nodup ∧
    (∀ flat ∈ graph.nodes, ∃ site node path, closure.PrimitiveAt site node path ∧
      Shows site node flat) ∧
    (∀ site node path, closure.PrimitiveAt site node path → ∃ flat ∈ graph.nodes,
      Shows site node flat) := by
  obtain ⟨c, sites, rfl, h⟩ := complete_of_flatten hs hf
  refine ⟨?_, fun flat hflat => ?_, fun site node path hprim => ?_⟩
  · refine (((List.mergeSort_perm c.nodes _).map FlatNode.debugId).nodup_iff).mpr ?_
    exact (List.Nodup.of_map _ h.unfolds.sound.ids_nodup).map_on h.unfolds.debugId_inj
  · obtain ⟨site, node, path, hleaf, hshows⟩ :=
      h.unfolds.leaf_of_node flat (mem_graph_nodes_iff.mp hflat)
    exact ⟨site, node, path, (h.leaf_iff hs).mp hleaf, hshows⟩
  · obtain ⟨flat, hflat, hshows⟩ :=
      h.unfolds.node_of_leaf site node path ((h.leaf_iff hs).mpr hprim)
    exact ⟨flat, mem_graph_nodes_iff.mpr hflat, hshows⟩

end Inlining

/-- A path leads to one primitive node. -/
theorem Closure.PrimitiveAt.unique {closure : Closure} (hs : closure.Sound) {s t : Site}
    {m n : Node} {path : List Int} (h : closure.PrimitiveAt s m path)
    (h' : closure.PrimitiveAt t n path) : s = t ∧ m = n := by
  obtain ⟨hsites, hids⟩ := List.append_inj' (h.path_eq.symm.trans h'.path_eq) rfl
  obtain rfl := hs.stands_unique h.stands h'.stands hsites
  exact ⟨rfl, (hs.patch_sound _ (hs.patch_mem h.stands)).eq_of_id_eq h.mem h'.mem
    (List.cons.inj hids).1⟩

theorem Closure.Occurs.ne_nil {closure : Closure} {site : Site} {node : Node} {path : List Int}
    (h : closure.Occurs site node path) : path ≠ [] := by
  rw [h.path_eq]
  simp

/-- Flattening yields exactly the primitive nodes that occur in the tree of the entry: to read the
debug ids as paths is a bijection from the nodes of the flat graph onto the paths of primitive
nodes, and each flat node has the type and arity of that node, and its properties with the literal
values of the instance around it settled. -/
theorem flatten_nodes {document : Value} {project : Project} {entryPath : String} {strict : Bool}
    {closure : Closure} {graph : FlatGraph} (hp : Document.project document = .ok project)
    (hc : Closure.ofEntry project entryPath strict = .ok closure)
    (hf : closure.flatten = .ok graph) :
    (graph.nodes.map FlatNode.debugId).Nodup ∧
    ∃ reading : FlatNode → List Int,
      Set.BijOn reading {flat | flat ∈ graph.nodes}
        {path | ∃ site node, closure.PrimitiveAt site node path} ∧
      ∀ flat ∈ graph.nodes, flat.debugId = spell (reading flat) ∧
        ∀ site node, closure.PrimitiveAt site node (reading flat) →
          flat.type = node.type ∧ flat.arity = node.arity ∧ site.Settles node flat.properties := by
  have hs := Closure.sound_of_ofEntry hp hc
  obtain ⟨hnodup, hshown, hseen⟩ := Inlining.primitives_of_flatten hs hf
  choose! reading hreading using fun flat hflat => show ∃ path, ∃ site node,
      closure.PrimitiveAt site node path ∧ Inlining.Shows site node flat from by
    obtain ⟨site, node, path, h⟩ := hshown flat hflat
    exact ⟨path, site, node, h⟩
  have hspell : ∀ flat ∈ graph.nodes, flat.debugId = spell (reading flat) := by
    intro flat hflat
    obtain ⟨site, node, hprim, hshows⟩ := hreading flat hflat
    rw [hshows.debugId_eq, hprim.path_eq]
  refine ⟨hnodup, reading, ⟨fun flat hflat => ?_, fun f hf g hg h => ?_, ?_⟩, fun flat hflat => ?_⟩
  · obtain ⟨site, node, hprim, _⟩ := hreading flat hflat
    exact ⟨site, node, hprim⟩
  · refine List.inj_on_of_nodup_map hnodup hf hg ?_
    rw [hspell f hf, hspell g hg, h]
  · rintro path ⟨site, node, hprim⟩
    obtain ⟨flat, hflat, hshows⟩ := hseen site node path hprim
    refine ⟨flat, hflat, ?_⟩
    obtain ⟨_, _, hprim', _⟩ := hreading flat hflat
    refine spell_injective hprim'.ne_nil hprim.ne_nil ?_
    rw [← hspell flat hflat, hshows.debugId_eq, hprim.path_eq]
  · refine ⟨hspell flat hflat, fun site node hprim => ?_⟩
    obtain ⟨site', node', hprim', hshows⟩ := hreading flat hflat
    obtain ⟨rfl, rfl⟩ := hprim'.unique hs hprim
    exact ⟨hshows.type_eq, hshows.arity_eq, hshows.settles⟩

theorem flatten_nodes_lamp :
    Document.project (Lamp.document "input_41") = .ok (Lamp.project "input_41") ∧
    Closure.ofEntry (Lamp.project "input_41") "@/main" false = .ok (Lamp.closure "input_41") ∧
    ∃ graph, (Lamp.closure "input_41").flatten = .ok graph ∧
      graph.nodes.map FlatNode.debugId = ["2", "1~41", "1~43", "1~42~61", "1~42~62"] ∧
      ∃ reading : FlatNode → List Int,
        Set.BijOn reading {flat | flat ∈ graph.nodes}
          {path | ∃ site node, (Lamp.closure "input_41").PrimitiveAt site node path} ∧
        ∀ flat ∈ graph.nodes, flat.debugId = spell (reading flat) ∧
          ∀ site node, (Lamp.closure "input_41").PrimitiveAt site node (reading flat) →
            flat.type = node.type ∧ flat.arity = node.arity ∧
              site.Settles node flat.properties := by
  have hp := Lamp.project_document "input_41"
  have hc := Lamp.ofEntry_project "input_41"
  obtain ⟨graph, hf, hids⟩ := Lamp.flatten_closure
  exact ⟨hp, hc, graph, hf, hids, (flatten_nodes hp hc hf).2⟩

end Patchbay
