import Patchbay.Proofs.Flat.Boundary

/-!
# One instance inlined

A sound graph under construction is one in which the later steps find all that they look up. To
inline an instance of it either fails for a reason that the instance, an edge on it or its patch
shows, or replaces the instance by its copies and leaves the graph sound (`inline_cases`,
`Inlined.sound`).
-/

namespace Patchbay.Inlining

/-- A graph under construction over a sound closure: ids tell its nodes apart, the types of its
nodes have a kind, and its edges join nodes of it, on the boundary of those that are instances. -/
structure Sound (closure : Closure) (c : Inlining) : Prop where
  closure_eq : c.closure = closure
  ids_nodup : (c.nodes.map FlatNode.id).Nodup
  id_le : ∀ flat ∈ c.nodes, flat.id ≤ c.maxId
  classified : ∀ flat ∈ c.nodes, ∃ kind, closure.kinds.kind flat.type = .ok kind
  ends_known : ∀ edge ∈ c.edges, ∀ e ∈ edge.ends, ∃ flat ∈ c.nodes, flat.id = e.node
  on_boundary : ∀ flat ∈ c.nodes, ∀ patch, closure.Instantiates flat.type patch →
    ∀ edge ∈ c.edges, ∀ e ∈ edge.ends, OnBoundary flat.id e

/-- The places of the copies of a patch in a graph. -/
def newPlaces (c : Inlining) (patch : Patch) : Places := placesOf patch (c.maxId + 1)

/-- The graph after the instance has given way to the copies of its patch. -/
structure Inlined (closure : Closure) (c : Inlining) (owner : FlatNode) (patch : Patch)
    (c' : Inlining) : Prop where
  closure_eq : c'.closure = closure
  maxId_eq : c'.maxId = c.maxId + patch.nodes.length
  nodes_eq : c'.nodes = c.nodes.filter (·.id ≠ owner.id) ++
    (numbered (c.maxId + 1) patch.sortedNodes).map (copyOf owner.properties.sorted owner.debugId)
  edges_eq : ∃ moved added links, c'.edges = moved ++ added ∧
    List.Forall₂ (Spliced closure patch (c.newPlaces patch) owner.id) c.edges moved ∧
    links.Perm patch.links ∧ List.Forall₂ (Placed closure patch (c.newPlaces patch)) links added
  /-- The literal values on the boundary of the instance were for terminals. -/
  named : ∀ literal ∈ owner.properties, ¬ Stray closure patch literal ∧
    Document.keyFault? literal.1 = none
  good : ∀ link ∈ patch.links, ¬ closure.BadLink patch link ∧ Link.idFault? link.id = none

/-- Why an instance of a sound graph cannot be inlined. -/
inductive Refused (closure : Closure) (c : Inlining) (owner : FlatNode) (patch : Patch)
    (failure : Failure) : Prop
  | stray : failure.IsInvalid → (∃ literal ∈ owner.properties, Stray closure patch literal) →
      Refused closure c owner patch failure
  | loose : failure.IsInvalid →
      (∃ edge ∈ c.edges, ∃ e ∈ edge.ends, Loose closure patch owner.id e) →
      Refused closure c owner patch failure
  | badLink : failure.IsInvalid → (∃ link ∈ patch.links, closure.BadLink patch link) →
      Refused closure c owner patch failure
  | unreadKey : failure.IsUnread →
      (∃ literal ∈ owner.properties, Document.keyFault? literal.1 ≠ none) →
      Refused closure c owner patch failure
  | unreadLink : failure.IsUnread → (∃ link ∈ patch.links, Link.idFault? link.id ≠ none) →
      Refused closure c owner patch failure

variable {closure : Closure} {patch : Patch} {c c' : Inlining} {owner : FlatNode}

/-! ## The step -/

theorem Sound.eq_of_id_eq (hsound : Sound closure c) {f g : FlatNode} (hf : f ∈ c.nodes)
    (hg : g ∈ c.nodes) (h : f.id = g.id) : f = g :=
  List.inj_on_of_nodup_map hsound.ids_nodup hf hg h

theorem takeNode_eq_ok (hsound : Sound closure c) (howner : owner ∈ c.nodes) :
    c.takeNode owner.id = .ok (owner, { c with nodes := c.nodes.filter (·.id ≠ owner.id) }) := by
  have hfind : c.nodes.find? (·.id = owner.id) = some owner :=
    (Keyed.find?_eq_some_iff fun _ hf _ hg => hsound.eq_of_id_eq hf hg).mpr ⟨howner, rfl⟩
  unfold takeNode
  rw [hfind]

theorem instancePatch_eq_ok (hs : closure.Sound) (hpatch : closure.Instantiates owner.type patch)
    (hkind : ∃ kind, closure.kinds.kind owner.type = .ok kind) :
    instancePatch closure owner.type = .ok patch := by
  unfold instancePatch
  rcases hs.kind_cases hkind with ⟨q, hq, hkind⟩ | ⟨p, hkind, hnone⟩
  · rw [hkind, ← hpatch.2]
    exact hs.patch_of_path hpatch.1
  · exact absurd hpatch (hnone patch)

/-- The graph with the instance replaced by its copies, on which literal values have settled. -/
def replaced (c : Inlining) (owner : FlatNode) (patch : Patch) (literals : Members) : Inlining :=
  { c with
    nodes := c.nodes.filter (·.id ≠ owner.id) ++
      (numbered (c.maxId + 1) patch.sortedNodes).map (copyOf literals owner.debugId),
    maxId := c.maxId + patch.nodes.length }

theorem nodup_replaced (hsound : Sound closure c) (owner : FlatNode) (patch : Patch)
    (literals : Members) : ((c.replaced owner patch literals).nodes.map FlatNode.id).Nodup := by
  simp only [replaced, List.map_append, map_id_copies]
  refine List.nodup_append.mpr ⟨hsound.ids_nodup.sublist (List.filter_sublist.map _),
    nodup_numbers _ _, fun id hid i hi => ?_⟩
  obtain ⟨flat, hflat, rfl⟩ := List.mem_map.mp hid
  obtain ⟨⟨j, node⟩, hj, rfl⟩ := List.mem_map.mp hi
  have := hsound.id_le flat (List.mem_of_mem_filter hflat)
  have := le_of_numbered hj
  dsimp only
  omega

/-- The steps by which an instance is inlined. -/
theorem inline_eq (hs : closure.Sound) (hsound : Sound closure c) (howner : owner ∈ c.nodes)
    (hpatch : closure.Instantiates owner.type patch) :
    c.inline owner.id =
      (moveLiterals patch (c.newPlaces patch) owner.id (c.replaced owner patch [])
        owner.properties.sorted).bind fun c' =>
          match spliceEdges c'.closure.kinds patch (c.newPlaces patch) owner.id c'.edges with
          | .error failure => .error ⟨c', failure⟩
          | .ok edges => addLinks { c' with edges } patch (c.newPlaces patch) := by
  have hcopies : ({ c with nodes := c.nodes.filter (·.id ≠ owner.id) } : Inlining).addCopies patch
      owner.debugId = c.replaced owner patch [] := by
    unfold addCopies replaced
    simp only [copies_eq]
    rw [foldl_putNode (nodup_replaced hsound owner patch [])]
  obtain rfl := hsound.closure_eq
  unfold inline
  rw [takeNode_eq_ok hsound howner, ← hcopies]
  simp only [bind, Except.bind, instancePatch_eq_ok hs hpatch (hsound.classified _ howner)]
  rfl

/-- An instance of a sound graph is inlined, or refused for a cause of its own. -/
theorem inline_cases (hs : closure.Sound) (hsound : Sound closure c) (howner : owner ∈ c.nodes)
    (hpatch : closure.Instantiates owner.type patch) :
    (∃ stopped, c.inline owner.id = .error stopped ∧
      Refused closure c owner patch stopped.failure) ∨
    (∃ c', c.inline owner.id = .ok c' ∧ Inlined closure c owner patch c') := by
  have hp := hpatch.1
  have hsorted : ∀ literal, literal ∈ owner.properties.sorted ↔ literal ∈ owner.properties :=
    fun literal => (List.mergeSort_perm _ _).mem_iff
  have hothers : ∀ flat ∈ c.nodes.filter (·.id ≠ owner.id), flat.id < c.maxId + 1 := by
    intro flat hflat
    have := hsound.id_le flat (List.mem_of_mem_filter hflat)
    omega
  rw [inline_eq hs hsound howner hpatch]
  rcases moveLiterals_cases hs hp owner.id hothers (c := c.replaced owner patch [])
      hsound.closure_eq rfl with ⟨stopped, hstop, hcause⟩ | ⟨hok, hnamed⟩
  · refine .inl ⟨stopped, by rw [newPlaces, hstop]; rfl, ?_⟩
    rcases hcause with ⟨hinvalid, l, hl, h⟩ | ⟨hunread, l, hl, h⟩
    · exact .stray hinvalid ⟨l, (hsorted l).mp hl, h⟩
    · exact .unreadKey hunread ⟨l, (hsorted l).mp hl, h⟩
  rw [newPlaces, hok]
  have hc : (c.replaced owner patch []).closure.kinds = closure.kinds :=
    congrArg Closure.kinds hsound.closure_eq
  simp only [Except.bind, List.nil_append, hc]
  rcases spliceEdges_cases hs hp (c.maxId + 1) (hsound.on_boundary owner howner patch hpatch) with
    ⟨failure, hfail, hinvalid, hloose⟩ | ⟨moved, hmoved, hspliced⟩
  · exact .inl ⟨_, by simp only [replaced, hfail]; rfl, .loose hinvalid hloose⟩
  simp only [replaced, hmoved]
  rcases addLinks_cases hs hp (covers_placesOf (hs.patch_sound _ hp) (c.maxId + 1))
      (c := { c.replaced owner patch owner.properties.sorted with edges := moved })
      hsound.closure_eq with
    ⟨stopped, hstop, hcause⟩ | ⟨links, added, hadd, hperm, hgood, hplaced⟩
  · refine .inl ⟨stopped, hstop, ?_⟩
    rcases hcause with ⟨hinvalid, hbad⟩ | ⟨hunread, hfault⟩
    · exact .badLink hinvalid hbad
    · exact .unreadLink hunread hfault
  · exact .inr ⟨_, hadd,
      { closure_eq := hsound.closure_eq
        maxId_eq := rfl
        nodes_eq := rfl
        edges_eq := ⟨moved, added, links, rfl, hspliced, hperm, hplaced⟩
        named := fun l hl => hnamed l ((hsorted l).mpr hl)
        good := hgood }⟩

/-! ## What the step keeps -/

namespace Inlined

variable (h : Inlined closure c owner patch c')
include h

/-- The nodes after the step: those before it without the instance, and the copies. -/
theorem mem_nodes_iff {flat : FlatNode} :
    flat ∈ c'.nodes ↔ (flat ∈ c.nodes ∧ flat.id ≠ owner.id) ∨
      ∃ i node, Numbered patch (c.maxId + 1) i node ∧
        flat = copyOf owner.properties.sorted owner.debugId (i, node) := by
  rw [h.nodes_eq, List.mem_append, List.mem_filter, List.mem_map, decide_eq_true_eq]
  refine or_congr_right ⟨?_, ?_⟩
  · rintro ⟨⟨i, node⟩, hmem, rfl⟩
    exact ⟨i, node, hmem, rfl⟩
  · rintro ⟨i, node, hmem, rfl⟩
    exact ⟨(i, node), hmem, rfl⟩

/-- An edge after the step is an edge before it, moved off the instance, or a link of the patch. -/
theorem exists_of_mem_edges {edge : Edge} (hedge : edge ∈ c'.edges) :
    (∃ old ∈ c.edges, Spliced closure patch (c.newPlaces patch) owner.id old edge) ∨
      ∃ link ∈ patch.links, Placed closure patch (c.newPlaces patch) link edge := by
  obtain ⟨moved, added, links, heq, hspliced, hperm, hplaced⟩ := h.edges_eq
  rw [heq] at hedge
  rcases List.mem_append.mp hedge with hedge | hedge
  · exact .inl (Matched.exists_left hspliced hedge)
  · obtain ⟨link, hlink, hplace⟩ := Matched.exists_left hplaced hedge
    exact .inr ⟨link, hperm.mem_iff.mp hlink, hplace⟩

theorem exists_spliced {old : Edge} (hold : old ∈ c.edges) :
    ∃ edge ∈ c'.edges, Spliced closure patch (c.newPlaces patch) owner.id old edge := by
  obtain ⟨moved, added, links, heq, hspliced, hperm, hplaced⟩ := h.edges_eq
  obtain ⟨edge, hedge, hs⟩ := Matched.exists_right hspliced hold
  exact ⟨edge, heq ▸ List.mem_append_left _ hedge, hs⟩

theorem exists_placed {link : Link} (hlink : link ∈ patch.links) :
    ∃ edge ∈ c'.edges, Placed closure patch (c.newPlaces patch) link edge := by
  obtain ⟨moved, added, links, heq, hspliced, hperm, hplaced⟩ := h.edges_eq
  obtain ⟨edge, hedge, hp⟩ := Matched.exists_right hplaced (hperm.mem_iff.mpr hlink)
  exact ⟨edge, heq ▸ List.mem_append_right _ hedge, hp⟩

/-- The place of a node of the patch is the id of its copy. -/
theorem exists_copy (hp : patch.Sound) {id i : Int}
    (hplace : place (c.newPlaces patch) id = .ok i) :
    ∃ node ∈ patch.nodes, node.id = id ∧ ∃ flat ∈ c'.nodes, flat.id = i ∧ c.maxId < i ∧
      flat = copyOf owner.properties.sorted owner.debugId (i, node) := by
  obtain ⟨node, hnum, hid⟩ := (place_placesOf_iff hp).mp hplace
  have := le_of_numbered hnum
  exact ⟨node, mem_sortedNodes.mp (mem_of_numbered hnum), hid, _,
    h.mem_nodes_iff.mpr (.inr ⟨i, node, hnum, rfl⟩), rfl, by omega, rfl⟩

end Inlined

/-- A directed link has the ends of the link. -/
theorem mem_ends_of_orient (hs : closure.Sound) (hp : patch ∈ closure.patches) {link : Link}
    (hlink : link ∈ patch.links) {edge : Edge} (h : orient closure.kinds patch link = .ok edge)
    {e : LinkEnd} : e ∈ edge.ends ↔ e ∈ link.ends := by
  rcases orient_cases hs hp hlink with ⟨failure, hfail, _⟩ | ⟨edge', hok, _, hends⟩
  · exact absurd (hfail.symm.trans h) (by simp)
  · obtain rfl := Except.ok.inj (hok.symm.trans h)
    rcases hends with rfl | rfl
    · rfl
    · simp [Edge.ends, Link.ends, or_comm]

theorem Placed.exists_end (hs : closure.Sound) (hp : patch ∈ closure.patches) {link : Link}
    (hlink : link ∈ patch.links) {places : Places} {edge : Edge}
    (h : Placed closure patch places link edge) {e : LinkEnd} (he : e ∈ edge.ends) :
    ∃ e' ∈ link.ends, place places e'.node = .ok e.node ∧ e.pin = e'.pin := by
  obtain ⟨directed, horient, hsource, htarget, hpin, hpin'⟩ := h
  have hends := fun e => @mem_ends_of_orient _ _ hs hp _ hlink _ horient e
  rcases Edge.mem_ends_iff.mp he with rfl | rfl
  · exact ⟨directed.source, (hends _).mp directed.source_mem_ends, hsource, hpin⟩
  · exact ⟨directed.target, (hends _).mp directed.target_mem_ends, htarget, hpin'⟩

/-- An end of a good link on an instance is on its boundary. -/
theorem boundary_of_good {link : Link} (hgood : ¬ closure.BadLink patch link) {e : LinkEnd}
    (he : e ∈ link.ends) {node : Node} (hn : node ∈ patch.nodes) (hid : node.id = e.node)
    {inner : Patch} (hinner : closure.Instantiates node.type inner) :
    ∃ d terminal, e.pin = .boundary d terminal := by
  cases hpin : e.pin with
  | boundary d terminal => exact ⟨d, terminal, rfl⟩
  | named key =>
    exact absurd (.inl ⟨e, he, node, hn, hid, .inl ⟨⟨inner, hinner⟩, key, hpin⟩⟩) hgood

/-- What `Names` names is no instance. -/
theorem not_instantiates_of_names (hs : closure.Sound) (hp : patch ∈ closure.patches)
    {d : Direction} {terminal : Nat} (h : closure.Names patch d terminal) {node : Node}
    (hn : node ∈ patch.nodes) (hid : node.id = terminal) (inner : Patch) :
    ¬ closure.Instantiates node.type inner := by
  obtain ⟨m, hm, hmid, p, t, hkind, _⟩ := h
  obtain rfl := (hs.patch_sound _ hp).eq_of_id_eq hn hm (hid.trans hmid.symm)
  exact fun hinner => (hs.primitive_kind _ _ hkind).2 inner hinner.1 hinner.2

namespace Inlined

variable (h : Inlined closure c owner patch c')
include h

/-- An end after the step lies where it was, on a terminal of the patch, or where a link of the
patch ends. -/
theorem end_cases (hs : closure.Sound) (hp : patch ∈ closure.patches) {edge : Edge}
    (hedge : edge ∈ c'.edges) {e : LinkEnd} (he : e ∈ edge.ends) :
    (∃ old ∈ c.edges, e ∈ old.ends ∧ e.node ≠ owner.id) ∨
    (∃ d terminal, closure.Names patch d terminal ∧
      place (c.newPlaces patch) (terminal : Nat) = .ok e.node) ∨
    (∃ link ∈ patch.links, ∃ e' ∈ link.ends,
      place (c.newPlaces patch) e'.node = .ok e.node ∧ e.pin = e'.pin) := by
  rcases h.exists_of_mem_edges hedge with ⟨old, hold, hspliced⟩ | ⟨link, hlink, hplaced⟩
  · have hend : ∃ e' ∈ old.ends, SplicedEnd closure patch (c.newPlaces patch) owner.id e' e := by
      rcases Edge.mem_ends_iff.mp he with rfl | rfl
      · exact ⟨old.source, old.source_mem_ends, hspliced.source⟩
      · exact ⟨old.target, old.target_mem_ends, hspliced.target⟩
    obtain ⟨e', he', ⟨hne, rfl⟩ | ⟨_, d, terminal, _, hnames, hplace, _⟩⟩ := hend
    · exact .inl ⟨old, hold, he', hne⟩
    · exact .inr (.inl ⟨d, terminal, hnames, hplace⟩)
  · obtain ⟨e', he', hplace, hpin⟩ := hplaced.exists_end hs hp hlink he
    exact .inr (.inr ⟨link, hlink, e', he', hplace, hpin⟩)

theorem ids_nodup (hsound : Sound closure c) : (c'.nodes.map FlatNode.id).Nodup := by
  rw [h.nodes_eq]
  exact nodup_replaced hsound owner patch owner.properties.sorted

/-- An end on the place of a node of the patch lies on its copy. -/
theorem instance_of_place (hp : patch.Sound) (hsound : Sound closure c) {flat : FlatNode}
    (hflat : flat ∈ c'.nodes) {inner : Patch} (hinner : closure.Instantiates flat.type inner)
    {id : Int} (hplace : place (c.newPlaces patch) id = .ok flat.id) :
    ∃ node ∈ patch.nodes, node.id = id ∧ closure.Instantiates node.type inner := by
  obtain ⟨node, hn, hnid, copied, hcopied, hcid, _, hcopy⟩ := h.exists_copy hp hplace
  obtain rfl := List.inj_on_of_nodup_map (h.ids_nodup hsound) hflat hcopied hcid.symm
  exact ⟨node, hn, hnid, by rwa [hcopy] at hinner⟩

theorem on_boundary (hs : closure.Sound) (hp : patch ∈ closure.patches)
    (hsound : Sound closure c) {flat : FlatNode} (hflat : flat ∈ c'.nodes) {inner : Patch}
    (hinner : closure.Instantiates flat.type inner) {edge : Edge} (hedge : edge ∈ c'.edges)
    {e : LinkEnd} (he : e ∈ edge.ends) : OnBoundary flat.id e := by
  intro hid
  have hpatch := hs.patch_sound _ hp
  rcases h.end_cases hs hp hedge he with
    ⟨old, hold, he, hne⟩ | ⟨d, terminal, hnames, hplace⟩ | ⟨link, hlink, e', he', hplace, hpin⟩
  · rcases h.mem_nodes_iff.mp hflat with ⟨hflat, _⟩ | ⟨i, node, hnum, rfl⟩
    · exact hsound.on_boundary flat hflat inner hinner old hold e he hid
    · obtain ⟨other, hother, hoid⟩ := hsound.ends_known old hold e he
      have := hsound.id_le other hother
      have := le_of_numbered hnum
      simp only [copyOf] at hid
      omega
  · rw [hid] at hplace
    obtain ⟨node, hn, hnid, hinst⟩ := h.instance_of_place hpatch hsound hflat hinner hplace
    exact absurd hinst (not_instantiates_of_names hs hp hnames hn hnid inner)
  · rw [hid] at hplace
    obtain ⟨node, hn, hnid, hinst⟩ := h.instance_of_place hpatch hsound hflat hinner hplace
    rw [hpin]
    exact boundary_of_good (h.good link hlink).1 he' hn hnid hinst

/-- The step keeps the graph sound. -/
theorem sound (hs : closure.Sound) (hp : patch ∈ closure.patches) (hsound : Sound closure c) :
    Sound closure c' where
  closure_eq := h.closure_eq
  ids_nodup := h.ids_nodup hsound
  id_le flat hflat := by
    rw [h.maxId_eq]
    rcases h.mem_nodes_iff.mp hflat with ⟨hold, _⟩ | ⟨i, node, hnum, rfl⟩
    · have := hsound.id_le flat hold
      omega
    · have := lt_of_numbered hnum
      rw [length_sortedNodes] at this
      simp only [copyOf]
      omega
  classified flat hflat := by
    rcases h.mem_nodes_iff.mp hflat with ⟨hold, _⟩ | ⟨i, node, hnum, rfl⟩
    · exact hsound.classified flat hold
    · exact hs.classified _ hp node (mem_sortedNodes.mp (mem_of_numbered hnum))
  ends_known edge hedge e he := by
    have hpatch := hs.patch_sound _ hp
    rcases h.end_cases hs hp hedge he with
      ⟨old, hold, he, hne⟩ | ⟨d, terminal, _, hplace⟩ | ⟨link, _, e', _, hplace, _⟩
    · obtain ⟨flat, hflat, hid⟩ := hsound.ends_known old hold e he
      exact ⟨flat, h.mem_nodes_iff.mpr (.inl ⟨hflat, hid ▸ hne⟩), hid⟩
    · obtain ⟨_, _, _, flat, hflat, hid, _⟩ := h.exists_copy hpatch hplace
      exact ⟨flat, hflat, hid⟩
    · obtain ⟨_, _, _, flat, hflat, hid, _⟩ := h.exists_copy hpatch hplace
      exact ⟨flat, hflat, hid⟩
  on_boundary _ hflat _ hinner _ hedge _ he := h.on_boundary hs hp hsound hflat hinner hedge he

end Inlined

end Patchbay.Inlining
