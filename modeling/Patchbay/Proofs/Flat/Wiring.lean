import Patchbay.Proofs.Flat.Leaves
import Patchbay.Proofs.Flat.LinkOrder

/-!
# The links of flat graphs

The tree of the entry has a wire for each link of each site: the link in the direction of the data,
each end on its node if that is primitive, and otherwise on the terminal that it names
(`Closure.Wired`). The links of a flat graph are these wires, each once, in ascending order
(`flatten_links`).
-/

namespace Patchbay

/-- A connection of two primitive nodes that occur in the tree of an entry. -/
structure Wire where
  source : List Int
  sourcePin : String
  target : List Int
  targetPin : String

namespace Closure

variable (closure : Closure)

/-- Where an end of a link of a site lies in the tree: on its node if that is primitive, and on the
terminal inside that it names if its node is an instance. -/
def EndsAt (site : Site) (e : LinkEnd) (path : List Int) (key : String) : Prop :=
  ∃ node ∈ site.patch.nodes, node.id = e.node ∧
    ((∃ p, closure.kinds.kind node.type = .ok (.primitive p)) ∧
        path = site.path ++ [node.id] ∧ key = e.pin.key ∨
      (∃ inner, closure.Instantiates node.type inner) ∧ ∃ d terminal,
        e.pin = .boundary d terminal ∧ path = site.path ++ [node.id] ++ [(terminal : Int)] ∧
          key = Terminal.pinKey)

/-- The wire of a link of a site. -/
def WiredBy (site : Site) (link : Link) (wire : Wire) : Prop :=
  ∃ directed, Inlining.orient closure.kinds site.patch link = .ok directed ∧
    closure.EndsAt site directed.source wire.source wire.sourcePin ∧
    closure.EndsAt site directed.target wire.target wire.targetPin

/-- A wire of the tree of the entry. -/
def Wired (wire : Wire) : Prop :=
  ∃ site, closure.Stands site ∧ ∃ link ∈ site.patch.links, closure.WiredBy site link wire

variable {closure} {site : Site} {e : LinkEnd} {link : Link}

/-- An end lies at one place. -/
theorem EndsAt.unique (hs : closure.Sound) (hstands : closure.Stands site)
    {path path' : List Int} {key key' : String} (h : closure.EndsAt site e path key)
    (h' : closure.EndsAt site e path' key') : path = path' ∧ key = key' := by
  obtain ⟨node, hn, hid, h⟩ := h
  obtain ⟨node', hn', hid', h'⟩ := h'
  obtain rfl := (hs.patch_sound _ (hs.patch_mem hstands)).eq_of_id_eq hn hn' (hid.trans hid'.symm)
  rcases h with ⟨⟨p, hp⟩, rfl, rfl⟩ | ⟨⟨inner, hinner⟩, d, t, hpin, rfl, rfl⟩
  · rcases h' with ⟨_, rfl, rfl⟩ | ⟨⟨inner, hinner⟩, _⟩
    · exact ⟨rfl, rfl⟩
    · exact absurd hinner.2 ((hs.primitive_kind _ _ hp).2 inner hinner.1)
  · rcases h' with ⟨⟨p, hp⟩, _⟩ | ⟨_, d', t', hpin', rfl, rfl⟩
    · exact absurd hinner.2 ((hs.primitive_kind _ _ hp).2 inner hinner.1)
    · obtain ⟨_, rfl⟩ := PinRef.boundary.inj (hpin.symm.trans hpin')
      exact ⟨rfl, rfl⟩

/-- A link of a site has one wire. -/
theorem WiredBy.unique (hs : closure.Sound) (hstands : closure.Stands site) {wire wire' : Wire}
    (h : closure.WiredBy site link wire) (h' : closure.WiredBy site link wire') :
    wire = wire' := by
  obtain ⟨directed, horient, hsource, htarget⟩ := h
  obtain ⟨directed', horient', hsource', htarget'⟩ := h'
  obtain rfl := Except.ok.inj (horient.symm.trans horient')
  obtain ⟨hs1, hs2⟩ := hsource.unique hs hstands hsource'
  obtain ⟨ht1, ht2⟩ := htarget.unique hs hstands htarget'
  cases wire
  cases wire'
  simp_all

end Closure

namespace Inlining.Complete

variable {closure : Closure} {sites : List Site} {c : Inlining} {site : Site} {e : LinkEnd}

/-- In a complete unfolding, what an end is shown on is where it lies in the tree. -/
theorem endsAt_of_lands (hs : closure.Sound) (h : Complete closure sites c) (hsite : site ∈ sites)
    {link : Link} (hlink : link ∈ site.patch.links) (he : e ∈ link.ends) {path : List Int}
    {pin : PinRef} (hlands : Lands closure sites site e path pin) :
    closure.EndsAt site e path pin.key := by
  have hstands := (h.mem_iff site).mp hsite
  have hp := hs.patch_mem hstands
  obtain ⟨node, hn, hid⟩ := (hs.patch_sound _ hp).ends_known link hlink e he
  refine ⟨node, hn, hid, ?_⟩
  rcases hlands with ⟨rfl, rfl, hshut⟩ | ⟨inner, hinner, hpath, d, t, hpin, _, rfl, rfl⟩
  · rcases hs.kind_cases (hs.classified _ hp node hn) with ⟨q, hq, _⟩ | ⟨p, hkind, _⟩
    · have hopen := (h.mem_iff _).mpr (.inner hstands hn hq)
      exact absurd (by rw [hid]) (hshut _ hopen)
    · exact .inl ⟨⟨p, hkind⟩, by rw [hid], rfl⟩
  · refine .inr ⟨?_, d, t, hpin, by rw [hpath, hid], rfl⟩
    rw [← hid] at hpath
    exact ⟨inner.patch,
      hs.instantiates_of_below hstands hn ((h.mem_iff inner).mp hinner) hpath⟩

/-- An edge carries the wire of its link, between the nodes that show its ends. -/
theorem wiredBy_of_carries (hs : closure.Sound) (h : Complete closure sites c)
    (hsite : site ∈ sites) {link : Link} (hlink : link ∈ site.patch.links) {edge : Edge}
    (hcarries : Carries closure sites c site link edge) :
    ∃ source target, closure.WiredBy site link
        ⟨source, edge.source.pin.key, target, edge.target.pin.key⟩ ∧
      (∃ flat ∈ c.nodes, flat.id = edge.source.node ∧ flat.debugId = spell source) ∧
      ∃ flat ∈ c.nodes, flat.id = edge.target.node ∧ flat.debugId = spell target := by
  obtain ⟨directed, horient, ⟨source, hsource, hsourceNode⟩, target, htarget, htargetNode⟩ :=
    hcarries
  have hp := hs.patch_mem ((h.mem_iff site).mp hsite)
  refine ⟨source, target, ⟨directed, horient, ?_, ?_⟩, hsourceNode, htargetNode⟩
  · exact h.endsAt_of_lands hs hsite hlink
      ((mem_ends_of_orient hs hp hlink horient).mp directed.source_mem_ends) hsource
  · exact h.endsAt_of_lands hs hsite hlink
      ((mem_ends_of_orient hs hp hlink horient).mp directed.target_mem_ends) htarget

end Inlining.Complete

theorem Closure.EndsAt.ne_nil {closure : Closure} {site : Site} {e : LinkEnd} {path : List Int}
    {key : String} (h : closure.EndsAt site e path key) : path ≠ [] := by
  obtain ⟨node, _, _, ⟨_, rfl, _⟩ | ⟨_, _, _, _, rfl, _⟩⟩ := h
  · simp
  · simp

/-- The wire of a flat link, its nodes read as paths. -/
def FlatLink.wire (reading : Int → List Int) (l : FlatLink) : Wire :=
  ⟨reading l.source, l.sourcePin, reading l.target, l.targetPin⟩

namespace Inlining

variable {closure : Closure} {sites : List Site} {c : Inlining}

/-- A reading of ids as the paths that the debug ids spell. -/
def Reads (reading : Int → List Int) (flats : List FlatNode) : Prop :=
  ∀ flat ∈ flats, reading flat.id ≠ [] ∧ flat.debugId = spell (reading flat.id)

theorem Unfolds.exists_reading (hu : Unfolds closure sites c) :
    ∃ reading, Reads reading c.nodes := by
  -- Ids tell the nodes apart, so an id has one path; an id of no node may have any.
  have hread : ∀ id, ∃ path, ∀ flat ∈ c.nodes, flat.id = id →
      path ≠ [] ∧ flat.debugId = spell path := by
    intro id
    by_cases hid : ∃ flat ∈ c.nodes, flat.id = id
    · obtain ⟨flat, hflat, rfl⟩ := hid
      obtain ⟨site, node, path, hleaf, hshows⟩ := hu.leaf_of_node flat hflat
      refine ⟨path, fun other hother hoid => ⟨hleaf.ne_nil, ?_⟩⟩
      obtain rfl := hu.sound.eq_of_id_eq hother hflat hoid
      rw [hshows.debugId_eq, hleaf.path_eq]
    · exact ⟨[], fun flat hflat hfid => absurd ⟨flat, hflat, hfid⟩ hid⟩
  choose reading hreading using hread
  exact ⟨reading, fun flat hflat => hreading flat.id flat hflat rfl⟩

/-- Ids with the same reading are the same. -/
theorem Unfolds.id_eq_of_reading_eq (hu : Unfolds closure sites c) {reading : Int → List Int}
    (hreading : Reads reading c.nodes) {f g : FlatNode} (hf : f ∈ c.nodes) (hg : g ∈ c.nodes)
    (h : reading f.id = reading g.id) : f.id = g.id := by
  rw [hu.debugId_inj f hf g hg]
  rw [(hreading f hf).2, (hreading g hg).2, h]

namespace Complete

variable (h : Complete closure sites c) (hs : closure.Sound) {reading : Int → List Int}
  (hreading : Reads reading c.nodes)

include h hs hreading in
/-- An edge that carries a link is read as its wire. -/
theorem wiredBy_read {site : Site} (hsite : site ∈ sites) {link : Link}
    (hlink : link ∈ site.patch.links) {edge : Edge}
    (hcarries : Carries closure sites c site link edge) :
    closure.WiredBy site link (edge.flat.wire reading) := by
  obtain ⟨source, target, hwired, ⟨f, hf, hfid, hfdebug⟩, g, hg, hgid, hgdebug⟩ :=
    h.wiredBy_of_carries hs hsite hlink hcarries
  obtain ⟨_, _, hsource, htarget⟩ := id hwired
  have hread : ∀ flat ∈ c.nodes, ∀ path, path ≠ [] → flat.debugId = spell path →
      reading flat.id = path := by
    intro flat hflat path hne hdebug
    obtain ⟨hne', hspell⟩ := hreading flat hflat
    exact spell_injective hne' hne (hspell.symm.trans hdebug)
  have hsourceRead := hread f hf source hsource.ne_nil hfdebug
  have htargetRead := hread g hg target htarget.ne_nil hgdebug
  rw [hfid] at hsourceRead
  rw [hgid] at htargetRead
  simpa only [FlatLink.wire, Edge.flat, hsourceRead, htargetRead] using hwired

include h hs hreading in
theorem bijOn_wire :
    Set.BijOn (FlatLink.wire reading) {l | l ∈ c.graph.links} {wire | closure.Wired wire} := by
  refine ⟨fun l hl => ?_, fun l hl m hm heq => ?_, ?_⟩
  · obtain ⟨edge, hedge, rfl⟩ := mem_graph_links_iff.mp hl
    obtain ⟨site, hsite, link, hlink, hcarries⟩ := h.unfolds.link_of_edge edge hedge
    exact ⟨site, (h.mem_iff site).mp hsite, link, hlink,
      h.wiredBy_read hs hreading hsite hlink hcarries⟩
  · obtain ⟨edge, hedge, rfl⟩ := mem_graph_links_iff.mp hl
    obtain ⟨edge', hedge', rfl⟩ := mem_graph_links_iff.mp hm
    have hid : ∀ e ∈ edge.ends, ∀ e' ∈ edge'.ends, reading e.node = reading e'.node →
        e.node = e'.node := by
      intro e he e' he' hread
      obtain ⟨f, hf, hfid⟩ := h.unfolds.sound.ends_known edge hedge e he
      obtain ⟨g, hg, hgid⟩ := h.unfolds.sound.ends_known edge' hedge' e' he'
      rw [← hfid, ← hgid] at hread ⊢
      exact h.unfolds.id_eq_of_reading_eq hreading hf hg hread
    simp only [FlatLink.wire, Edge.flat, Wire.mk.injEq] at heq
    obtain ⟨hsource, hsourcePin, htarget, htargetPin⟩ := heq
    simp only [Edge.flat, FlatLink.mk.injEq]
    exact ⟨hid _ edge.source_mem_ends _ edge'.source_mem_ends hsource, hsourcePin,
      hid _ edge.target_mem_ends _ edge'.target_mem_ends htarget, htargetPin⟩
  · rintro wire ⟨site, hstands, link, hlink, hwired⟩
    have hsite := (h.mem_iff site).mpr hstands
    obtain ⟨edge, hedge, hcarries⟩ := h.unfolds.edge_of_link site hsite link hlink
    exact ⟨edge.flat, mem_graph_links_iff.mpr ⟨edge, hedge, rfl⟩,
      (h.wiredBy_read hs hreading hsite hlink hcarries).unique hs hstands hwired⟩

end Complete

end Inlining

/-- Flattening keeps every link and invents none: where each id is read as the path that the debug
id of its node spells, the links of the flat graph are exactly the wires of the tree of the entry,
each once, and they ascend strictly. Every link of every site has a wire. -/
theorem flatten_links {document : Value} {project : Project} {entryPath : String} {strict : Bool}
    {closure : Closure} {graph : FlatGraph} (hp : Document.project document = .ok project)
    (hc : Closure.ofEntry project entryPath strict = .ok closure)
    (hf : closure.flatten = .ok graph) :
    (∃ reading : Int → List Int,
      (∀ node ∈ graph.nodes, reading node.id ≠ [] ∧ node.debugId = spell (reading node.id)) ∧
      Set.BijOn (FlatLink.wire reading) {l | l ∈ graph.links} {wire | closure.Wired wire}) ∧
    (∀ l ∈ graph.links, l.source ∈ graph.ids ∧ l.target ∈ graph.ids) ∧
    (∀ site, closure.Stands site → ∀ link ∈ site.patch.links,
      ∃ wire, closure.WiredBy site link wire) ∧
    graph.links.Pairwise FlatLink.Before := by
  have hs := Closure.sound_of_ofEntry hp hc
  rcases Inlining.flatten_cases hs with ⟨failure, hfail, _⟩ | ⟨c, sites, hok, h⟩
  · exact absurd (hfail.symm.trans hf) (by simp)
  obtain rfl := Except.ok.inj (hok.symm.trans hf)
  obtain ⟨reading, hreading⟩ := h.unfolds.exists_reading
  refine ⟨⟨reading, fun node hn => hreading node (Inlining.mem_graph_nodes_iff.mp hn),
    h.bijOn_wire hs hreading⟩, (hs.sound_of_flatten hf).ends_known,
    fun site hstands link hlink => ?_, FlatLink.pairwise_before (nodup_eraseDups _)⟩
  have hsite := (h.mem_iff site).mpr hstands
  obtain ⟨edge, _, hcarries⟩ := h.unfolds.edge_of_link site hsite link hlink
  exact ⟨_, h.wiredBy_read hs hreading hsite hlink hcarries⟩

theorem flatten_links_lamp :
    Document.project (Lamp.document "input_41") = .ok (Lamp.project "input_41") ∧
    Closure.ofEntry (Lamp.project "input_41") "@/main" false = .ok (Lamp.closure "input_41") ∧
    ∃ graph, (Lamp.closure "input_41").flatten = .ok graph ∧
      (∃ reading : Int → List Int,
        (∀ node ∈ graph.nodes, reading node.id ≠ [] ∧ node.debugId = spell (reading node.id)) ∧
        Set.BijOn (FlatLink.wire reading) {l | l ∈ graph.links}
          {wire | (Lamp.closure "input_41").Wired wire}) ∧
      graph.links.Pairwise FlatLink.Before := by
  have hp := Lamp.project_document "input_41"
  have hc := Lamp.ofEntry_project "input_41"
  obtain ⟨graph, hf, _⟩ := Lamp.flatten_closure
  obtain ⟨hread, _, _, hascending⟩ := flatten_links hp hc hf
  exact ⟨hp, hc, graph, hf, hread, hascending⟩

end Patchbay
