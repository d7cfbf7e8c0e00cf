import Patchbay.Proofs.Flat.Inlining

/-!
# Partial unfoldings

A graph under construction shows the tree of its entry as far as some sites are opened: its nodes
are the nodes of the opened sites that are not opened themselves, and its edges are the links of
the opened sites, each end on what is shown of it (`Unfolds`). To inline an instance opens one site
more, or fails because a patch of the closure is ill-formed or cannot be read
(`Unfolds.inline_cases`).
-/

namespace Patchbay

/-- The literal values that the instance gives to the terminals of its patch, by ascending key. -/
def Site.literals (site : Site) : Members :=
  match site.owner? with
  | some owner => owner.properties.sorted
  | none => []

namespace Inlining

/-- Opened sites: those above a site of them are among them. -/
structure Cut (closure : Closure) (sites : List Site) : Prop where
  stands : ∀ site ∈ sites, closure.Stands site
  entry : ⟨[], none, closure.entry⟩ ∈ sites
  parent : ∀ site ∈ sites, ∀ path id, site.path = path ++ [id] →
    ∃ above ∈ sites, above.path = path

/-- The node is in an opened site, and not opened itself. -/
structure Leaf (sites : List Site) (site : Site) (node : Node) (path : List Int) : Prop where
  site_mem : site ∈ sites
  node_mem : node ∈ site.patch.nodes
  path_eq : path = site.path ++ [node.id]
  shut : ∀ inner ∈ sites, inner.path ≠ path

/-- What is shown of a node of a site. -/
structure Shows (site : Site) (node : Node) (flat : FlatNode) : Prop where
  type_eq : flat.type = node.type
  arity_eq : flat.arity = node.arity
  debugId_eq : flat.debugId = spell (site.path ++ [node.id])
  properties_eq : flat.properties = settle site.literals node.id node.properties

/-- The path and the pin where an end of a link of a site is shown: on its node, or, where that is
opened, on the terminal that the end names. -/
def Lands (closure : Closure) (sites : List Site) (site : Site) (e : LinkEnd) (path : List Int)
    (pin : PinRef) : Prop :=
  (path = site.path ++ [e.node] ∧ pin = e.pin ∧ ∀ inner ∈ sites, inner.path ≠ path) ∨
    ∃ inner ∈ sites, inner.path = site.path ++ [e.node] ∧
      ∃ d terminal, e.pin = .boundary d terminal ∧ closure.Names inner.patch d terminal ∧
        path = inner.path ++ [(terminal : Int)] ∧ pin = .named Terminal.pinKey

/-- An end of an edge is where an end of a link of a site is shown. -/
def Meets (closure : Closure) (sites : List Site) (c : Inlining) (site : Site)
    (e shown : LinkEnd) : Prop :=
  ∃ path, Lands closure sites site e path shown.pin ∧
    ∃ flat ∈ c.nodes, flat.id = shown.node ∧ flat.debugId = spell path

/-- An edge that shows a link of a site. -/
def Carries (closure : Closure) (sites : List Site) (c : Inlining) (site : Site) (link : Link)
    (edge : Edge) : Prop :=
  ∃ directed, orient closure.kinds site.patch link = .ok directed ∧
    Meets closure sites c site directed.source edge.source ∧
    Meets closure sites c site directed.target edge.target

/-- A graph under construction that shows the tree of its entry with these sites opened. -/
structure Unfolds (closure : Closure) (sites : List Site) (c : Inlining) : Prop where
  sound : Sound closure c
  cut : Cut closure sites
  leaf_of_node : ∀ flat ∈ c.nodes, ∃ site node path, Leaf sites site node path ∧
    Shows site node flat
  node_of_leaf : ∀ site node path, Leaf sites site node path → ∃ flat ∈ c.nodes,
    Shows site node flat
  debugId_inj : ∀ f ∈ c.nodes, ∀ g ∈ c.nodes, f.debugId = g.debugId → f = g
  link_of_edge : ∀ edge ∈ c.edges, ∃ site ∈ sites, ∃ link ∈ site.patch.links,
    Carries closure sites c site link edge
  edge_of_link : ∀ site ∈ sites, ∀ link ∈ site.patch.links, ∃ edge ∈ c.edges,
    Carries closure sites c site link edge
  good : ∀ site ∈ sites, ∀ link ∈ site.patch.links,
    ¬ closure.BadLink site.patch link ∧ Link.idFault? link.id = none
  /-- The literal values on the boundary of an opened instance are for terminals. -/
  named : ∀ site ∈ sites, ∀ owner, site.owner? = some owner → ∀ literal ∈ owner.properties,
    ¬ Stray closure site.patch literal ∧ Document.keyFault? literal.1 = none

/-- A failure for which a patch of the closure is to blame. -/
def Blamed (closure : Closure) (failure : Failure) : Prop :=
  failure.IsInvalid ∧ (∃ patch ∈ closure.patches, closure.IllFormed patch) ∨
    failure.IsUnread ∧ ∃ patch ∈ closure.patches, ¬ closure.Readable patch

variable {closure : Closure} {sites : List Site} {c c' : Inlining} {site : Site} {node : Node}
  {path : List Int} {owner : FlatNode} {patch : Patch}

/-! ## Opened sites -/

theorem Cut.eq_of_path_eq (hs : closure.Sound) (hcut : Cut closure sites) {s t : Site}
    (hsite : s ∈ sites) (ht : t ∈ sites) (h : s.path = t.path) : s = t :=
  hs.stands_unique (hcut.stands s hsite) (hcut.stands t ht) h

/-- A leaf that is an instance can be opened. -/
theorem Cut.insert (hcut : Cut closure sites) (hleaf : Leaf sites site node path)
    (hpatch : closure.Instantiates node.type patch) :
    Cut closure (⟨path, some node, patch⟩ :: sites) where
  stands s hmem := by
    rcases List.mem_cons.mp hmem with rfl | hmem
    · rw [hleaf.path_eq]
      exact .inner (hcut.stands site hleaf.site_mem) hleaf.node_mem hpatch
    · exact hcut.stands s hmem
  entry := List.mem_cons_of_mem _ hcut.entry
  parent s hmem above id hpath := by
    rcases List.mem_cons.mp hmem with rfl | hmem
    · obtain ⟨hsite, _⟩ := List.append_inj' (hleaf.path_eq.symm.trans hpath) rfl
      exact ⟨site, List.mem_cons_of_mem _ hleaf.site_mem, hsite⟩
    · obtain ⟨t, ht, htpath⟩ := hcut.parent s hmem above id hpath
      exact ⟨t, List.mem_cons_of_mem _ ht, htpath⟩

/-- What lies directly below a leaf is not opened when the leaf is. -/
theorem Cut.shut_below (hcut : Cut closure sites) (hleaf : Leaf sites site node path) (id : Int) :
    ∀ inner ∈ (⟨path, some node, patch⟩ : Site) :: sites, inner.path ≠ path ++ [id] := by
  intro inner hmem hpath
  rcases List.mem_cons.mp hmem with rfl | hmem
  · exact absurd (congrArg List.length hpath) (by simp)
  · obtain ⟨above, habove, habovepath⟩ := hcut.parent inner hmem path id hpath
    exact hleaf.shut above habove habovepath

theorem Leaf.ne_nil (hleaf : Leaf sites site node path) : path ≠ [] := by
  rw [hleaf.path_eq]
  simp

/-- A leaf stays one when another is opened. -/
theorem Leaf.insert (hleaf : Leaf sites site node path) {opened : Site} (hne : path ≠ opened.path) :
    Leaf (opened :: sites) site node path where
  site_mem := List.mem_cons_of_mem _ hleaf.site_mem
  node_mem := hleaf.node_mem
  path_eq := hleaf.path_eq
  shut inner hmem := by
    rcases List.mem_cons.mp hmem with rfl | hmem
    · exact hne.symm
    · exact hleaf.shut inner hmem

/-- A leaf is in the site that is opened, or was one before and is not opened. -/
theorem Leaf.of_insert {opened : Site} (h : Leaf (opened :: sites) site node path) :
    (site = opened ∧ node ∈ opened.patch.nodes ∧ path = opened.path ++ [node.id]) ∨
      (Leaf sites site node path ∧ path ≠ opened.path) := by
  rcases List.mem_cons.mp h.site_mem with rfl | hmem
  · exact .inl ⟨rfl, h.node_mem, h.path_eq⟩
  · exact .inr ⟨⟨hmem, h.node_mem, h.path_eq, fun inner hinner =>
      h.shut inner (List.mem_cons_of_mem _ hinner)⟩, (h.shut _ List.mem_cons_self).symm⟩

/-- An instance keeps its properties, for no literal value is for it. -/
theorem Unfolds.properties_of_instance (hs : closure.Sound) (hu : Unfolds closure sites c)
    (hleaf : Leaf sites site node path) (hshows : Shows site node owner)
    (hpatch : closure.Instantiates owner.type patch) : owner.properties = node.properties := by
  rw [hshows.properties_eq]
  refine settle_eq_self fun literal hliteral ⟨d, terminal, hparse, hid⟩ => ?_
  unfold Site.literals at hliteral
  split at hliteral
  · next above habove =>
    have hmem := (List.mergeSort_perm _ _).mem_iff.mp hliteral
    have hnames : closure.Names site.patch d terminal := by
      by_contra hnot
      exact (hu.named site hleaf.site_mem above habove literal hmem).1 ⟨d, terminal, hparse, hnot⟩
    exact not_instantiates_of_names hs (hs.patch_mem (hu.cut.stands site hleaf.site_mem)) hnames
      hleaf.node_mem hid.symm patch (hshows.type_eq ▸ hpatch)
  · exact absurd hliteral List.not_mem_nil

/-- The nodes of a graph that shows the tree are told apart by the paths of what they show. -/
theorem Unfolds.eq_of_leaf (hu : Unfolds closure sites c) {s t : Site} {m n : Node}
    {f g : FlatNode} (hf : f ∈ c.nodes) (hg : g ∈ c.nodes) (hleaf : Leaf sites s m path)
    (hleaf' : Leaf sites t n path) (hshows : Shows s m f) (hshows' : Shows t n g) : f = g := by
  refine hu.debugId_inj f hf g hg ?_
  rw [hshows.debugId_eq, hshows'.debugId_eq, ← hleaf.path_eq, ← hleaf'.path_eq]

/-! ## Opening an instance -/

/-- An instance that is shown as a leaf is inlined. -/
structure Opens (closure : Closure) (sites : List Site) (c : Inlining) (site : Site) (node : Node)
    (path : List Int) (owner : FlatNode) (patch : Patch) (c' : Inlining) : Prop where
  unfolds : Unfolds closure sites c
  leaf : Leaf sites site node path
  owner_mem : owner ∈ c.nodes
  shows' : Shows site node owner
  instance' : closure.Instantiates owner.type patch
  inlined : Inlined closure c owner patch c'

/-- The site that an instance opens. -/
def opened (path : List Int) (node : Node) (patch : Patch) : Site := ⟨path, some node, patch⟩

namespace Opens

variable (ho : Opens closure sites c site node path owner patch c') (hs : closure.Sound)

include ho in
theorem cut : Cut closure (opened path node patch :: sites) :=
  ho.unfolds.cut.insert ho.leaf (ho.shows'.type_eq ▸ ho.instance')

include ho in
theorem debugId_eq : owner.debugId = spell path := by
  rw [ho.shows'.debugId_eq, ho.leaf.path_eq]

include ho in
/-- The nodes of the opened patch are leaves. -/
theorem leaf_of_mem {n : Node} (hn : n ∈ patch.nodes) :
    Leaf (opened path node patch :: sites) (opened path node patch) n (path ++ [n.id]) where
  site_mem := List.mem_cons_self
  node_mem := hn
  path_eq := rfl
  shut := ho.unfolds.cut.shut_below ho.leaf n.id

include ho hs in
theorem shows_copy {i : Int} {n : Node} : Shows (opened path node patch) n
    (copyOf owner.properties.sorted owner.debugId (i, n)) where
  type_eq := rfl
  arity_eq := rfl
  debugId_eq := by
    simp only [copyOf, opened, ho.debugId_eq, spell_concat ho.leaf.ne_nil]
  properties_eq := by
    simp only [copyOf, Site.literals, opened,
      ho.unfolds.properties_of_instance hs ho.leaf ho.shows' ho.instance']

include ho in
/-- Another node than the instance shows another leaf. -/
theorem ne_path_of_ne {s : Site} {m : Node} {p : List Int} {flat : FlatNode}
    (hflat : flat ∈ c.nodes) (hleaf : Leaf sites s m p) (hshows : Shows s m flat)
    (hne : flat.id ≠ owner.id) : p ≠ path := by
  rintro rfl
  exact hne (congrArg FlatNode.id
    (ho.unfolds.eq_of_leaf hflat ho.owner_mem hleaf ho.leaf hshows ho.shows'))

include ho hs in
theorem leaf_of_node {flat : FlatNode} (hflat : flat ∈ c'.nodes) :
    ∃ s m p, Leaf (opened path node patch :: sites) s m p ∧ Shows s m flat := by
  rcases ho.inlined.mem_nodes_iff.mp hflat with ⟨hold, hne⟩ | ⟨i, n, hnum, rfl⟩
  · obtain ⟨s, m, p, hleaf, hshows⟩ := ho.unfolds.leaf_of_node flat hold
    exact ⟨s, m, p, hleaf.insert (ho.ne_path_of_ne hold hleaf hshows hne), hshows⟩
  · exact ⟨_, n, _, ho.leaf_of_mem (mem_sortedNodes.mp (mem_of_numbered hnum)),
      ho.shows_copy hs⟩

include ho hs in
theorem node_of_leaf {s : Site} {m : Node} {p : List Int}
    (h : Leaf (opened path node patch :: sites) s m p) : ∃ flat ∈ c'.nodes, Shows s m flat := by
  rcases h.of_insert with ⟨rfl, hm, _⟩ | ⟨hleaf, hne⟩
  · obtain ⟨i, hi⟩ := exists_numbered (mem_sortedNodes.mpr hm) (c.maxId + 1)
    exact ⟨_, ho.inlined.mem_nodes_iff.mpr (.inr ⟨i, m, hi, rfl⟩), ho.shows_copy hs⟩
  · obtain ⟨flat, hflat, hshows⟩ := ho.unfolds.node_of_leaf s m p hleaf
    refine ⟨flat, ho.inlined.mem_nodes_iff.mpr (.inl ⟨hflat, fun hid => hne ?_⟩), hshows⟩
    obtain rfl := ho.unfolds.sound.eq_of_id_eq hflat ho.owner_mem hid
    have hspell := hshows.debugId_eq.symm.trans ho.debugId_eq
    rw [← hleaf.path_eq] at hspell
    exact spell_injective hleaf.ne_nil ho.leaf.ne_nil hspell

include ho in
theorem debugId_copy (literals : Members) (entry : Int × Node) :
    (copyOf literals owner.debugId entry).debugId = spell (path ++ [entry.2.id]) := by
  simp only [copyOf, ho.debugId_eq, spell_concat ho.leaf.ne_nil]

include ho in
/-- No node that was there has the debug id of a copy. -/
theorem debugId_ne_copy {flat : FlatNode} (hflat : flat ∈ c.nodes) (literals : Members)
    (entry : Int × Node) : flat.debugId ≠ (copyOf literals owner.debugId entry).debugId := by
  rw [ho.debugId_copy]
  intro h
  obtain ⟨s, m, p, hleaf, hshows⟩ := ho.unfolds.leaf_of_node flat hflat
  have hpath := spell_injective (by simp) (by simp) (hshows.debugId_eq.symm.trans h)
  exact ho.leaf.shut s hleaf.site_mem (List.append_inj' hpath rfl).1

include ho hs in
theorem debugId_inj {f g : FlatNode} (hf : f ∈ c'.nodes) (hg : g ∈ c'.nodes)
    (h : f.debugId = g.debugId) : f = g := by
  rcases ho.inlined.mem_nodes_iff.mp hf with ⟨hf, _⟩ | ⟨i, n, hn, rfl⟩
  · rcases ho.inlined.mem_nodes_iff.mp hg with ⟨hg, _⟩ | ⟨j, m, hm, rfl⟩
    · exact ho.unfolds.debugId_inj f hf g hg h
    · exact absurd h (ho.debugId_ne_copy hf _ _)
  · rcases ho.inlined.mem_nodes_iff.mp hg with ⟨hg, _⟩ | ⟨j, m, hm, rfl⟩
    · exact absurd h.symm (ho.debugId_ne_copy hg _ _)
    · rw [ho.debugId_copy, ho.debugId_copy] at h
      have hid : n.id = m.id := by
        simpa using spell_injective (by simp) (by simp) h
      have hp := hs.patch_sound _ ho.instance'.1
      obtain rfl := number_of_id (nodup_sortedNodes hp) hn hm hid
      rw [node_of_number hn hm]

/-! ### Ends of edges -/

include ho in
theorem eq_path_of_owner {p : List Int} (hne : p ≠ []) (h : owner.debugId = spell p) : p = path :=
  spell_injective hne ho.leaf.ne_nil (h.symm.trans ho.debugId_eq)

include ho hs in
/-- A place in the opened patch is that of a copy. -/
theorem exists_copy {id i : Int} (h : place (c.newPlaces patch) id = .ok i) :
    ∃ flat ∈ c'.nodes, flat.id = i ∧ flat.debugId = spell (path ++ [id]) := by
  obtain ⟨n, _, rfl, flat, hflat, hid, _, rfl⟩ :=
    ho.inlined.exists_copy (hs.patch_sound _ ho.instance'.1) h
  exact ⟨_, hflat, hid, ho.debugId_copy _ _⟩

include ho hs in
/-- An end keeps its place in what is shown, or moves to a terminal of the opened patch. -/
theorem meets_of_spliced {s : Site} {e e' moved : LinkEnd} (h : Meets closure sites c s e e')
    (hmoved : SplicedEnd closure patch (c.newPlaces patch) owner.id e' moved) :
    Meets closure (opened path node patch :: sites) c' s e moved := by
  obtain ⟨p, hlands, flat, hflat, hid, hdebug⟩ := h
  rcases hmoved with ⟨hne, rfl⟩ | ⟨howner, d, terminal, hpin, hnames, hplace, hmovedpin⟩
  · refine ⟨p, ?_, flat, ho.inlined.mem_nodes_iff.mpr (.inl ⟨hflat, hid ▸ hne⟩), hid, hdebug⟩
    rcases hlands with ⟨hp, hq, hshut⟩ | ⟨inner, hinner, hrest⟩
    · refine .inl ⟨hp, hq, fun inner hinner hpath => ?_⟩
      rcases List.mem_cons.mp hinner with rfl | hinner
      · obtain rfl : path = p := hpath
        have := ho.unfolds.debugId_inj flat hflat owner ho.owner_mem
          (hdebug.trans ho.debugId_eq.symm)
        exact hne (this ▸ hid.symm)
      · exact hshut inner hinner hpath
    · exact .inr ⟨inner, List.mem_cons_of_mem _ hinner, hrest⟩
  · obtain rfl := ho.unfolds.sound.eq_of_id_eq hflat ho.owner_mem (hid.trans howner)
    rcases hlands with ⟨rfl, hq, hshut⟩ | ⟨_, _, _, _, _, _, _, _, hq⟩
    · have hpath := ho.eq_path_of_owner (by simp) hdebug
      obtain ⟨copied, hcopied, hcid, hcdebug⟩ := ho.exists_copy hs hplace
      exact ⟨path ++ [(terminal : Int)], .inr ⟨_, List.mem_cons_self, hpath.symm, d, terminal,
        hq ▸ hpin, hnames, rfl, hmovedpin⟩, copied, hcopied, hcid, hcdebug⟩
    · exact absurd (hpin.symm.trans hq) (by simp)

include ho hs in
/-- The ends of the links of the opened patch are on its copies. -/
theorem meets_of_placed {e moved : LinkEnd}
    (hplace : place (c.newPlaces patch) e.node = .ok moved.node) (hpin : moved.pin = e.pin) :
    Meets closure (opened path node patch :: sites) c' (opened path node patch) e moved := by
  obtain ⟨flat, hflat, hid, hdebug⟩ := ho.exists_copy hs hplace
  exact ⟨path ++ [e.node], .inl ⟨rfl, hpin, ho.unfolds.cut.shut_below ho.leaf e.node⟩, flat, hflat,
    hid, hdebug⟩

include ho hs in
theorem carries_of_spliced {s : Site} {link : Link} {edge moved : Edge}
    (h : Carries closure sites c s link edge)
    (hmoved : Spliced closure patch (c.newPlaces patch) owner.id edge moved) :
    Carries closure (opened path node patch :: sites) c' s link moved := by
  obtain ⟨directed, horient, hsource, htarget⟩ := h
  exact ⟨directed, horient, ho.meets_of_spliced hs hsource hmoved.source,
    ho.meets_of_spliced hs htarget hmoved.target⟩

include ho hs in
theorem carries_of_placed {link : Link} {edge : Edge}
    (h : Placed closure patch (c.newPlaces patch) link edge) :
    Carries closure (opened path node patch :: sites) c' (opened path node patch) link edge := by
  obtain ⟨directed, horient, hsource, htarget, hpin, hpin'⟩ := h
  exact ⟨directed, horient, ho.meets_of_placed hs hsource hpin, ho.meets_of_placed hs htarget hpin'⟩

include ho hs in
/-- The graph shows the tree with one site more opened. -/
theorem unfolds_insert : Unfolds closure (opened path node patch :: sites) c' where
  sound := ho.inlined.sound hs ho.instance'.1 ho.unfolds.sound
  cut := ho.cut
  leaf_of_node _ hflat := ho.leaf_of_node hs hflat
  node_of_leaf _ _ _ hleaf := ho.node_of_leaf hs hleaf
  debugId_inj _ hf _ hg h := ho.debugId_inj hs hf hg h
  link_of_edge edge hedge := by
    rcases ho.inlined.exists_of_mem_edges hedge with ⟨old, hold, hs'⟩ | ⟨link, hlink, hp⟩
    · obtain ⟨s, hsite, link, hlink, hcarries⟩ := ho.unfolds.link_of_edge old hold
      exact ⟨s, List.mem_cons_of_mem _ hsite, link, hlink, ho.carries_of_spliced hs hcarries hs'⟩
    · exact ⟨_, List.mem_cons_self, link, hlink, ho.carries_of_placed hs hp⟩
  edge_of_link s hsite link hlink := by
    rcases List.mem_cons.mp hsite with rfl | hsite
    · obtain ⟨edge, hedge, hp⟩ := ho.inlined.exists_placed hlink
      exact ⟨edge, hedge, ho.carries_of_placed hs hp⟩
    · obtain ⟨old, hold, hcarries⟩ := ho.unfolds.edge_of_link s hsite link hlink
      obtain ⟨edge, hedge, hs'⟩ := ho.inlined.exists_spliced hold
      exact ⟨edge, hedge, ho.carries_of_spliced hs hcarries hs'⟩
  good s hsite := by
    rcases List.mem_cons.mp hsite with rfl | hsite
    · exact ho.inlined.good
    · exact ho.unfolds.good s hsite
  named s hsite above habove literal hliteral := by
    rcases List.mem_cons.mp hsite with rfl | hsite
    · obtain rfl : node = above := Option.some.inj habove
      rw [← ho.unfolds.properties_of_instance hs ho.leaf ho.shows' ho.instance'] at hliteral
      exact ho.inlined.named literal hliteral
    · exact ho.unfolds.named s hsite above habove literal hliteral

end Opens

/-! ## Causes of failure -/

namespace Unfolds

variable (hu : Unfolds closure sites c) (hs : closure.Sound)

include hu in
theorem patch_mem (hs : closure.Sound) (hsite : site ∈ sites) : site.patch ∈ closure.patches :=
  hs.patch_mem (hu.cut.stands site hsite)

include hu hs in
/-- An edge end on the boundary of an instance is the end of a link on it. -/
theorem exists_link_end {edge : Edge} (hedge : edge ∈ c.edges) {e : LinkEnd} (he : e ∈ edge.ends)
    (howner : owner ∈ c.nodes) (hleaf : Leaf sites site node path) (hshows : Shows site node owner)
    (hid : e.node = owner.id) {d : Direction} {terminal : Nat}
    (hpin : e.pin = .boundary d terminal) :
    ∃ link ∈ site.patch.links, ∃ e' ∈ link.ends, e'.node = node.id ∧
      e'.pin = .boundary d terminal := by
  obtain ⟨s, hsite, link, hlink, directed, horient, hsource, htarget⟩ := hu.link_of_edge edge hedge
  have hends := fun e => @mem_ends_of_orient _ _ hs (hu.patch_mem hs hsite) _ hlink _ horient e
  have hmeets : ∃ e' ∈ link.ends, Meets closure sites c s e' e := by
    rcases Edge.mem_ends_iff.mp he with rfl | rfl
    · exact ⟨directed.source, (hends _).mp directed.source_mem_ends, hsource⟩
    · exact ⟨directed.target, (hends _).mp directed.target_mem_ends, htarget⟩
  obtain ⟨e', he', p, hlands, flat, hflat, hfid, hdebug⟩ := hmeets
  obtain rfl := hu.sound.eq_of_id_eq hflat howner (hfid.trans hid)
  rcases hlands with ⟨rfl, hq, _⟩ | ⟨_, _, _, _, _, _, _, _, hq⟩
  · have hpath := spell_injective (by simp) (by simp) (hdebug.symm.trans hshows.debugId_eq)
    obtain ⟨hsites, hids⟩ := List.append_inj' hpath rfl
    obtain rfl := hu.cut.eq_of_path_eq hs hsite hleaf.site_mem hsites
    exact ⟨link, hlink, e', he', by simpa using hids, hq ▸ hpin⟩
  · exact absurd (hpin.symm.trans hq) (by simp)

include hu hs in
/-- An instance that cannot be inlined is in an ill-formed patch, or instantiates one, or one of
these patches cannot be read. -/
theorem blamed_of_refused (howner : owner ∈ c.nodes)
    (hpatch : closure.Instantiates owner.type patch) {failure : Failure}
    (h : Refused closure c owner patch failure) : Blamed closure failure := by
  obtain ⟨site, node, path, hleaf, hshows⟩ := hu.leaf_of_node owner howner
  have hproperties := hu.properties_of_instance hs hleaf hshows hpatch
  have hsite := hu.patch_mem hs hleaf.site_mem
  have hinner : closure.Instantiates node.type patch := hshows.type_eq ▸ hpatch
  cases h with
  | stray hinvalid hstray =>
    obtain ⟨literal, hliteral, d, terminal, hparse, hnot⟩ := hstray
    exact .inl ⟨hinvalid, site.patch, hsite, .inr ⟨node, hleaf.node_mem, patch, hinner, d, terminal,
      .inr ⟨literal, hproperties ▸ hliteral, hparse⟩, hnot⟩⟩
  | loose hinvalid hloose =>
    obtain ⟨edge, hedge, e, he, hid, d, terminal, hpin, hnot⟩ := hloose
    exact .inl ⟨hinvalid, site.patch, hsite, .inr ⟨node, hleaf.node_mem, patch, hinner, d, terminal,
      .inl (hu.exists_link_end hs hedge he howner hleaf hshows hid hpin), hnot⟩⟩
  | badLink hinvalid hbad => exact .inl ⟨hinvalid, patch, hpatch.1, .inl hbad⟩
  | unreadKey hunread hkey =>
    obtain ⟨literal, hliteral, hfault⟩ := hkey
    exact .inr ⟨hunread, site.patch, hsite, fun hr => hfault
      (hr.literals node hleaf.node_mem ⟨patch, hinner⟩ literal (hproperties ▸ hliteral))⟩
  | unreadLink hunread hlink =>
    obtain ⟨link, hmem, hfault⟩ := hlink
    exact .inr ⟨hunread, patch, hpatch.1, fun hr => hfault (hr.links link hmem)⟩

include hu hs in
/-- To inline an instance opens one site more, or fails because of a patch of the closure. -/
theorem inline_cases (howner : owner ∈ c.nodes) (hpatch : closure.Instantiates owner.type patch) :
    (∃ stopped, c.inline owner.id = .error stopped ∧ Blamed closure stopped.failure) ∨
    (∃ c' site, c.inline owner.id = .ok c' ∧ Inlined closure c owner patch c' ∧
      Unfolds closure (site :: sites) c') := by
  rcases Inlining.inline_cases hs hu.sound howner hpatch with
    ⟨stopped, hstop, hrefused⟩ | ⟨c', hok, hinlined⟩
  · exact .inl ⟨stopped, hstop, hu.blamed_of_refused hs howner hpatch hrefused⟩
  · obtain ⟨site, node, path, hleaf, hshows⟩ := hu.leaf_of_node owner howner
    have ho : Opens closure sites c site node path owner patch c' :=
      ⟨hu, hleaf, howner, hshows, hpatch, hinlined⟩
    exact .inr ⟨c', opened path node patch, hok, hinlined, ho.unfolds_insert hs⟩

end Unfolds

end Inlining

end Patchbay
