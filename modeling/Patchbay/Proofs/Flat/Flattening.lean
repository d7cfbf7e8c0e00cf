import Mathlib
import Patchbay.Proofs.Flat.Unfolding

/-!
# Complete unfoldings

The entry is put in with its own site opened (`Enters.unfolds`); a pass opens every instance that it
finds, and leaves instances of a lower rank (`inlineAll_cases`); so the passes end with every site
of the tree opened, or because a patch of the closure is ill-formed or cannot be read
(`flatten_cases`).
-/

namespace Patchbay

namespace Inlining

variable {closure : Closure} {sites : List Site} {c : Inlining} {patch : Patch}

/-! ## Passes -/

/-- The node is an instance of a patch of the closure. -/
def IsInstance (closure : Closure) (flat : FlatNode) : Prop :=
  ∃ patch, closure.Instantiates flat.type patch

/-- All instances that are shown have a rank below the bound. -/
def RankedBelow (closure : Closure) (rank : String → Nat) (bound : Nat) (c : Inlining) : Prop :=
  ∀ flat ∈ c.nodes, ∀ patch, closure.Instantiates flat.type patch → rank patch.path < bound

theorem instances_cases (hs : closure.Sound) {flats : List FlatNode}
    (hkinds : ∀ flat ∈ flats, ∃ kind, closure.kinds.kind flat.type = .ok kind) :
    ∃ ids, instances closure.kinds flats = .ok ids ∧ ids.Sublist (flats.map FlatNode.id) ∧
      ∀ id, id ∈ ids ↔ ∃ flat ∈ flats, flat.id = id ∧ IsInstance closure flat := by
  induction flats with
  | nil => exact ⟨[], rfl, .refl _, by simp⟩
  | cons flat rest ih =>
    obtain ⟨ids, hids, hsub, hmem⟩ := ih fun f hf => hkinds f (List.mem_cons_of_mem _ hf)
    rcases hs.kind_cases (hkinds flat List.mem_cons_self) with ⟨q, hq, hkind⟩ | ⟨p, hkind, hnone⟩
    · refine ⟨flat.id :: ids,
        by simp [instances, hkind, hids, bind, Except.bind, pure, Except.pure],
        hsub.cons_cons _, fun id => ?_⟩
      rw [List.mem_cons, hmem]
      constructor
      · rintro (rfl | ⟨f, hf, hid⟩)
        · exact ⟨flat, List.mem_cons_self, rfl, q, hq⟩
        · exact ⟨f, List.mem_cons_of_mem _ hf, hid⟩
      · rintro ⟨f, hf, hid, hinst⟩
        rcases List.mem_cons.mp hf with rfl | hf
        · exact .inl hid.symm
        · exact .inr ⟨f, hf, hid, hinst⟩
    · refine ⟨ids, by simp [instances, hkind, hids, bind, Except.bind, pure, Except.pure],
        hsub.cons _, fun id => ?_⟩
      rw [hmem]
      constructor
      · rintro ⟨f, hf, hid⟩
        exact ⟨f, List.mem_cons_of_mem _ hf, hid⟩
      · rintro ⟨f, hf, hid, hinst⟩
        rcases List.mem_cons.mp hf with rfl | hf
        · exact absurd hinst.choose_spec (hnone _)
        · exact ⟨f, hf, hid, hinst⟩

/-- The instances that wait are all that there are, each once. -/
theorem pending_cases (hs : closure.Sound) (hsound : Sound closure c) :
    ∃ ids, c.pending = .ok ids ∧ ids.Nodup ∧
      ∀ id, id ∈ ids ↔ ∃ flat ∈ c.nodes, flat.id = id ∧ IsInstance closure flat := by
  obtain ⟨ids, hids, hsub, hmem⟩ := instances_cases hs hsound.classified
  refine ⟨ids.mergeSort fun a b => a ≤ b, ?_, ?_, fun id => ?_⟩
  · obtain rfl := hsound.closure_eq
    rw [pending, hids]
    rfl
  · exact (List.mergeSort_perm ids _).nodup_iff.mpr (hsound.ids_nodup.sublist hsub)
  · rw [(List.mergeSort_perm ids _).mem_iff, hmem]

/-- A pass opens all the instances that it is given, unless a patch is to blame, and those that it
adds have a lower rank. -/
theorem inlineAll_cases (hs : closure.Sound) {rank : String → Nat}
    (hrank : ∀ p ∈ closure.patches, ∀ node ∈ p.nodes, ∀ q, closure.Instantiates node.type q →
      rank q.path < rank p.path) {bound : Nat} {ids : List Int} (hids : ids.Nodup)
    (hu : Unfolds closure sites c)
    (hgiven : ∀ id ∈ ids, ∃ flat ∈ c.nodes, flat.id = id ∧ IsInstance closure flat)
    (hbound : RankedBelow closure rank (bound + 1) c)
    (hrest : ∀ flat ∈ c.nodes, flat.id ∉ ids → ∀ q, closure.Instantiates flat.type q →
      rank q.path < bound) :
    (∃ stopped, c.inlineAll ids = .error stopped ∧ Blamed closure stopped.failure) ∨
    (∃ c' sites', c.inlineAll ids = .ok c' ∧ Unfolds closure sites' c' ∧
      RankedBelow closure rank bound c') := by
  -- What is still to be opened has a rank up to the bound; what the pass adds, and does not open
  -- itself, has a lower one.
  induction ids generalizing c sites with
  | nil => exact .inr ⟨c, sites, rfl, hu, fun flat hflat => hrest flat hflat List.not_mem_nil⟩
  | cons id rest ih =>
    obtain ⟨owner, howner, rfl, patch, hpatch⟩ := hgiven id List.mem_cons_self
    obtain ⟨hfresh, hids⟩ := List.nodup_cons.mp hids
    rcases hu.inline_cases hs howner hpatch with
      ⟨stopped, hstop, hblamed⟩ | ⟨c', site, hok, hin, hu'⟩
    · exact .inl ⟨stopped, by rw [inlineAll, hstop]; rfl, hblamed⟩
    have hstep : c.inlineAll (owner.id :: rest) = c'.inlineAll rest := by
      rw [inlineAll, hok]
      rfl
    have hcopy : ∀ node ∈ patch.nodes, ∀ q, closure.Instantiates node.type q →
        rank q.path < bound := by
      intro node hn q hq
      have := hrank patch hpatch.1 node hn q hq
      have := hbound owner howner patch hpatch
      omega
    rw [hstep]
    refine ih hids hu' (fun id hid => ?_) (fun flat hflat q hq => ?_)
      (fun flat hflat hnot q hq => ?_)
    · obtain ⟨flat, hflat, rfl, hinst⟩ := hgiven id (List.mem_cons_of_mem _ hid)
      exact ⟨flat, hin.mem_nodes_iff.mpr (.inl ⟨hflat, fun h => hfresh (h ▸ hid)⟩), rfl, hinst⟩
    · rcases hin.mem_nodes_iff.mp hflat with ⟨hold, _⟩ | ⟨i, node, hnum, rfl⟩
      · exact hbound flat hold q hq
      · have := hcopy node (mem_sortedNodes.mp (mem_of_numbered hnum)) q hq
        omega
    · rcases hin.mem_nodes_iff.mp hflat with ⟨hold, hne⟩ | ⟨i, node, hnum, rfl⟩
      · exact hrest flat hold (fun h => (List.mem_cons.mp h).elim hne hnot) q hq
      · exact hcopy node (mem_sortedNodes.mp (mem_of_numbered hnum)) q hq

theorem Unfolds.withPasses (hu : Unfolds closure sites c) (passes : Nat) :
    Unfolds closure sites { c with passes } :=
  { hu with
    sound := ⟨hu.sound.closure_eq, hu.sound.ids_nodup, hu.sound.id_le, hu.sound.classified,
      hu.sound.ends_known, hu.sound.on_boundary⟩ }

/-- The passes end with no instance left, unless a patch is to blame. -/
theorem expand_cases (hs : closure.Sound) {rank : String → Nat}
    (hrank : ∀ p ∈ closure.patches, ∀ node ∈ p.nodes, ∀ q, closure.Instantiates node.type q →
      rank q.path < rank p.path) {fuel : Nat} (hu : Unfolds closure sites c)
    (hbound : RankedBelow closure rank fuel c) :
    (∃ stopped, expand fuel c = .error stopped ∧ Blamed closure stopped.failure) ∨
    (∃ c' sites', expand fuel c = .ok c' ∧ Unfolds closure sites' c' ∧
      ∀ flat ∈ c'.nodes, ¬ IsInstance closure flat) := by
  -- A pass takes one from the fuel and one from the bound: the fuel lasts as long as the ranks.
  induction fuel generalizing c sites with
  | zero =>
    exact .inr ⟨c, sites, rfl, hu, fun flat hflat ⟨q, hq⟩ =>
      absurd (hbound flat hflat q hq) (Nat.not_lt_zero _)⟩
  | succ fuel ih =>
    obtain ⟨ids, hpending, hnodup, hmem⟩ := pending_cases hs hu.sound
    unfold expand
    rw [hpending]
    cases ids with
    | nil =>
      exact .inr ⟨c, sites, rfl, hu, fun flat hflat hinst =>
        absurd ((hmem flat.id).mpr ⟨flat, hflat, rfl, hinst⟩) List.not_mem_nil⟩
    | cons id ids =>
      rcases inlineAll_cases hs hrank hnodup (hu.withPasses (c.passes + 1))
        (fun id hid => (hmem id).mp hid) hbound
        (fun flat hflat hnot q hq =>
          absurd ((hmem flat.id).mpr ⟨flat, hflat, rfl, q, hq⟩) hnot) with
        ⟨stopped, hstop, hblamed⟩ | ⟨c', sites', hok, hu', hbound'⟩
      · exact .inl ⟨stopped, by simp only [hstop]; rfl, hblamed⟩
      · simp only [hok]
        exact ih hu' hbound'

/-! ## The entry -/

/-- The site of the entry. -/
def entrySite (closure : Closure) : Site := ⟨[], none, closure.entry⟩

/-- The places of the nodes of a patch that keep their ids. -/
def ownPlaces (patch : Patch) : Places := patch.nodes.map fun node => (node.id, node.id)

/-- The nodes of the entry under their own ids. -/
def entered (closure : Closure) : Inlining :=
  ⟨closure, entryNodes closure.entry, [], greatestId closure.entry, 0⟩

theorem place_ownPlaces_iff {id i : Int} :
    place (ownPlaces patch) id = .ok i ↔ i = id ∧ ∃ node ∈ patch.nodes, node.id = id := by
  have hlookup : ∀ nodes : List Node, (nodes.map fun node => (node.id, node.id)).lookup id =
      if ∃ node ∈ nodes, node.id = id then some id else none := by
    intro nodes
    induction nodes with
    | nil => simp
    | cons node rest ih =>
      rw [List.map_cons, List.lookup_cons]
      by_cases h : id = node.id
      · subst h
        simp
      · rw [beq_false_of_ne h, ih]
        simp [Ne.symm h]
  unfold place ownPlaces
  rw [hlookup]
  split
  · next h => split at h <;> simp_all [eq_comm]
  · next h => split at h <;> simp_all

theorem le_foldl_max {ids : List Int} {greatest : Int} :
    greatest ≤ ids.foldl max greatest ∧ ∀ id ∈ ids, id ≤ ids.foldl max greatest := by
  induction ids generalizing greatest with
  | nil => simp
  | cons head rest ih =>
    obtain ⟨hmax, hrest⟩ := @ih (max greatest head)
    rw [List.foldl_cons]
    refine ⟨by omega, fun id hid => ?_⟩
    rcases List.mem_cons.mp hid with rfl | hid
    · omega
    · exact hrest id hid

theorem id_le_greatestId {node : Node} (hn : node ∈ patch.nodes) :
    node.id ≤ greatestId patch := by
  have hid : node.id ∈ patch.nodes.map Node.id := List.mem_map_of_mem hn
  unfold greatestId
  split
  · next h => exact absurd (h ▸ hid) List.not_mem_nil
  · next id ids h =>
    rw [h] at hid
    rcases List.mem_cons.mp hid with rfl | hid
    · exact le_foldl_max.1
    · exact le_foldl_max.2 _ hid

theorem mem_entryNodes_iff {flat : FlatNode} :
    flat ∈ entryNodes patch ↔ ∃ node ∈ patch.nodes,
      flat = ⟨node.id, node.type, node.properties, node.arity, Text.Numeral.intText node.id⟩ := by
  unfold entryNodes
  rw [List.mem_map]
  constructor
  · rintro ⟨node, hn, rfl⟩
    exact ⟨node, mem_sortedNodes.mp hn, rfl⟩
  · rintro ⟨node, hn, rfl⟩
    exact ⟨node, mem_sortedNodes.mpr hn, rfl⟩

theorem nodup_entryNodes (hp : patch.Sound) : ((entryNodes patch).map FlatNode.id).Nodup := by
  unfold entryNodes
  rw [List.map_map]
  exact nodup_sortedNodes hp

/-- The run puts the entry in, and then makes passes. -/
theorem run_eq (hs : closure.Sound) :
    (start closure).run =
      ((entered closure).addLinks closure.entry (ownPlaces closure.entry)).bind fun c =>
        expand (c.closure.patches.length + 1) c := by
  have hnodes : (entryNodes closure.entry).foldl (fun flats flat => putNode flat flats) [] =
      entryNodes closure.entry := by
    rw [foldl_putNode (by simpa using nodup_entryNodes (hs.patch_sound _ hs.entry_mem))]
    exact List.nil_append _
  unfold run start
  simp only [hnodes]
  rfl

theorem leaf_entry_iff {site : Site} {node : Node} {path : List Int} :
    Leaf [entrySite closure] site node path ↔
      site = entrySite closure ∧ node ∈ closure.entry.nodes ∧ path = [node.id] := by
  constructor
  · intro h
    obtain rfl := List.mem_singleton.mp h.site_mem
    exact ⟨rfl, h.node_mem, h.path_eq⟩
  · rintro ⟨rfl, hn, rfl⟩
    refine ⟨List.mem_singleton_self _, hn, rfl, fun inner hinner => ?_⟩
    rw [List.mem_singleton.mp hinner]
    exact (List.cons_ne_nil _ _).symm

theorem shows_entry (node : Node) :
    Shows (entrySite closure) node
      ⟨node.id, node.type, node.properties, node.arity, Text.Numeral.intText node.id⟩ where
  type_eq := rfl
  arity_eq := rfl
  debugId_eq := (spell_singleton node.id).symm
  properties_eq := rfl

theorem cut_entry : Cut closure [entrySite closure] where
  stands site hsite := by
    rw [List.mem_singleton.mp hsite]
    exact .entry
  entry := List.mem_singleton_self _
  parent site hsite path id hpath := by
    rw [List.mem_singleton.mp hsite] at hpath
    exact absurd hpath (by simp [entrySite])

variable {links : List Link} {edges : List Edge}

/-- The entry is there with an edge for each of its links. -/
structure Enters (closure : Closure) (links : List Link) (edges : List Edge) : Prop where
  perm : links.Perm closure.entry.links
  good : ∀ link ∈ closure.entry.links,
    ¬ closure.BadLink closure.entry link ∧ Link.idFault? link.id = none
  placed : List.Forall₂ (Placed closure closure.entry (ownPlaces closure.entry)) links edges

namespace Enters

variable (he : Enters closure links edges) (hs : closure.Sound)

include he hs in
/-- The ends of the edges are those of the links. -/
theorem exists_end {edge : Edge} (hedge : edge ∈ edges) {e : LinkEnd} (hmem : e ∈ edge.ends) :
    ∃ link ∈ closure.entry.links, e ∈ link.ends := by
  obtain ⟨link, hlink, h⟩ := Matched.exists_left he.placed hedge
  have hlink := he.perm.mem_iff.mp hlink
  obtain ⟨e', he', hplace, hpin⟩ := h.exists_end hs hs.entry_mem hlink hmem
  obtain ⟨hid, _⟩ := place_ownPlaces_iff.mp hplace
  have : e = e' := by
    cases e
    cases e'
    simp_all
  exact ⟨link, hlink, this ▸ he'⟩

include he hs in
theorem sound : Sound closure { entered closure with edges } where
  closure_eq := rfl
  ids_nodup := nodup_entryNodes (hs.patch_sound _ hs.entry_mem)
  id_le flat hflat := by
    obtain ⟨node, hn, rfl⟩ := mem_entryNodes_iff.mp hflat
    exact id_le_greatestId hn
  classified flat hflat := by
    obtain ⟨node, hn, rfl⟩ := mem_entryNodes_iff.mp hflat
    exact hs.classified _ hs.entry_mem node hn
  ends_known edge hedge e hmem := by
    obtain ⟨link, hlink, hend⟩ := he.exists_end hs hedge hmem
    obtain ⟨node, hn, hid⟩ := (hs.patch_sound _ hs.entry_mem).ends_known link hlink e hend
    exact ⟨_, mem_entryNodes_iff.mpr ⟨node, hn, rfl⟩, hid⟩
  on_boundary flat hflat inner hinner edge hedge e hmem hid := by
    obtain ⟨link, hlink, hend⟩ := he.exists_end hs hedge hmem
    obtain ⟨node, hn, rfl⟩ := mem_entryNodes_iff.mp hflat
    exact boundary_of_good (he.good link hlink).1 hend hn hid.symm hinner

theorem meets {e shown : LinkEnd} (hplace : place (ownPlaces closure.entry) e.node = .ok shown.node)
    (hpin : shown.pin = e.pin) :
    Meets closure [entrySite closure] { entered closure with edges } (entrySite closure) e
      shown := by
  obtain ⟨hid, node, hn, hnid⟩ := place_ownPlaces_iff.mp hplace
  refine ⟨[e.node], .inl ⟨rfl, hpin, fun inner hinner => ?_⟩, _,
    mem_entryNodes_iff.mpr ⟨node, hn, rfl⟩, hnid.trans hid.symm, ?_⟩
  · rw [List.mem_singleton.mp hinner]
    exact (List.cons_ne_nil _ _).symm
  · rw [spell_singleton, hnid]

theorem carries {link : Link} {edge : Edge}
    (h : Placed closure closure.entry (ownPlaces closure.entry) link edge) :
    Carries closure [entrySite closure] { entered closure with edges } (entrySite closure) link
      edge := by
  obtain ⟨directed, horient, hsource, htarget, hpin, hpin'⟩ := h
  exact ⟨directed, horient, meets hsource hpin, meets htarget hpin'⟩

include he hs in
/-- The entry shows the tree with its own site opened. -/
theorem unfolds : Unfolds closure [entrySite closure] { entered closure with edges } where
  sound := he.sound hs
  cut := cut_entry
  leaf_of_node flat hflat := by
    obtain ⟨node, hn, rfl⟩ := mem_entryNodes_iff.mp hflat
    exact ⟨_, node, _, leaf_entry_iff.mpr ⟨rfl, hn, rfl⟩, shows_entry node⟩
  node_of_leaf site node path hleaf := by
    obtain ⟨rfl, hn, _⟩ := leaf_entry_iff.mp hleaf
    exact ⟨_, mem_entryNodes_iff.mpr ⟨node, hn, rfl⟩, shows_entry node⟩
  debugId_inj f hf g hg h := by
    obtain ⟨node, hn, rfl⟩ := mem_entryNodes_iff.mp hf
    obtain ⟨m, hm, rfl⟩ := mem_entryNodes_iff.mp hg
    rw [(hs.patch_sound _ hs.entry_mem).eq_of_id_eq hn hm (Text.Numeral.intText_injective h)]
  link_of_edge edge hedge := by
    obtain ⟨link, hlink, h⟩ := Matched.exists_left he.placed hedge
    exact ⟨_, List.mem_singleton_self _, link, he.perm.mem_iff.mp hlink, carries h⟩
  edge_of_link site hsite link hlink := by
    obtain rfl := List.mem_singleton.mp hsite
    obtain ⟨edge, hedge, h⟩ := Matched.exists_right he.placed (he.perm.mem_iff.mpr hlink)
    exact ⟨edge, hedge, carries h⟩
  good site hsite := by
    rw [List.mem_singleton.mp hsite]
    exact he.good
  named site hsite owner howner := by
    rw [List.mem_singleton.mp hsite] at howner
    exact absurd howner (by simp [entrySite])

end Enters

/-- The entry is put in with an edge for each of its links, unless it is to blame. -/
theorem enter_cases (hs : closure.Sound) :
    (∃ stopped, (entered closure).addLinks closure.entry (ownPlaces closure.entry)
        = .error stopped ∧ Blamed closure stopped.failure) ∨
    (∃ c links edges, (entered closure).addLinks closure.entry (ownPlaces closure.entry) = .ok c ∧
      c = { entered closure with edges } ∧ Enters closure links edges) := by
  have hcovers : Covers (ownPlaces closure.entry) closure.entry :=
    fun node hn => ⟨node.id, place_ownPlaces_iff.mpr ⟨rfl, node, hn, rfl⟩⟩
  rcases addLinks_cases hs hs.entry_mem hcovers (c := entered closure) rfl with
    ⟨stopped, hstop, hcause⟩ | ⟨links, edges, hadd, hperm, hgood, hplaced⟩
  · refine .inl ⟨stopped, hstop, ?_⟩
    rcases hcause with ⟨hinvalid, hbad⟩ | ⟨hunread, link, hlink, hfault⟩
    · exact .inl ⟨hinvalid, _, hs.entry_mem, .inl hbad⟩
    · exact .inr ⟨hunread, _, hs.entry_mem, fun hr => hfault (hr.links link hlink)⟩
  · exact .inr ⟨_, links, edges, hadd, rfl, hperm, hgood, hplaced⟩

/-! ## The whole run -/

/-- A graph without instances that shows the tree of its entry with every site opened. -/
structure Complete (closure : Closure) (sites : List Site) (c : Inlining) : Prop where
  unfolds : Unfolds closure sites c
  mem_iff : ∀ site, site ∈ sites ↔ closure.Stands site
  primitive : ∀ flat ∈ c.nodes, ¬ IsInstance closure flat

/-- Where no instance is left, every site is opened. -/
theorem Unfolds.complete (hs : closure.Sound) (hu : Unfolds closure sites c)
    (hprimitive : ∀ flat ∈ c.nodes, ¬ IsInstance closure flat) : Complete closure sites c := by
  refine ⟨hu, fun site => ⟨hu.cut.stands site, fun hstands => ?_⟩, hprimitive⟩
  induction hstands with
  | entry => exact hu.cut.entry
  | @inner site node patch hstands hn hinst ih =>
    by_cases hopen : ∃ inner ∈ sites, inner.path = site.path ++ [node.id]
    · obtain ⟨inner, hinner, hpath⟩ := hopen
      rwa [hs.stands_unique (hu.cut.stands inner hinner) (.inner hstands hn hinst) hpath] at hinner
    · have hleaf : Leaf sites site node (site.path ++ [node.id]) :=
        ⟨ih, hn, rfl, fun inner hinner hpath => hopen ⟨inner, hinner, hpath⟩⟩
      obtain ⟨flat, hflat, hshows⟩ := hu.node_of_leaf site node _ hleaf
      exact absurd ⟨patch, hshows.type_eq ▸ hinst⟩ (hprimitive flat hflat)

/-- The run ends with the whole tree of the entry shown, unless a patch is to blame. -/
theorem run_cases (hs : closure.Sound) :
    (∃ stopped, (start closure).run = .error stopped ∧ Blamed closure stopped.failure) ∨
    (∃ c sites, (start closure).run = .ok c ∧ Complete closure sites c) := by
  rw [run_eq hs]
  rcases enter_cases hs with ⟨stopped, hstop, hblamed⟩ | ⟨c, links, edges, hok, heq, he⟩
  · exact .inl ⟨stopped, by rw [hstop]; rfl, hblamed⟩
  have hu : Unfolds closure [entrySite closure] c := heq ▸ he.unfolds hs
  obtain ⟨rank, hrank⟩ := hs.ranked
  have hbound : RankedBelow closure rank (closure.patches.length + 1) c := by
    intro flat hflat q hq
    have := (hrank q hq.1).1
    omega
  rcases expand_cases hs (fun p hp => (hrank p hp).2) hu hbound with
    ⟨stopped, hstop, hblamed⟩ | ⟨c', sites, hok', hu', hprimitive⟩
  · exact .inl ⟨stopped, by simp only [hok, Except.bind, hu.sound.closure_eq, hstop], hblamed⟩
  · exact .inr ⟨c', sites, by simp only [hok, Except.bind, hu.sound.closure_eq, hok'],
      hu'.complete hs hprimitive⟩

/-- The graph of a sound closure is that of the whole tree of its entry, unless a patch is to
blame. -/
theorem flatten_cases (hs : closure.Sound) :
    (∃ failure, closure.flatten = .error failure ∧ Blamed closure failure) ∨
    (∃ c sites, closure.flatten = .ok c.graph ∧ Complete closure sites c) := by
  unfold Closure.flatten
  rcases run_cases hs with ⟨stopped, hstop, hblamed⟩ | ⟨c, sites, hok, h⟩
  · exact .inl ⟨stopped.failure, by rw [hstop], hblamed⟩
  · exact .inr ⟨c, sites, by rw [hok], h⟩

/-- A flat graph is that of a complete unfolding. -/
theorem complete_of_flatten (hs : closure.Sound) {graph : FlatGraph}
    (hf : closure.flatten = .ok graph) :
    ∃ c sites, graph = c.graph ∧ Complete closure sites c := by
  rcases flatten_cases hs with ⟨failure, hfail, _⟩ | ⟨c, sites, hok, h⟩
  · exact absurd (hfail.symm.trans hf) (by simp)
  · exact ⟨c, sites, Except.ok.inj (hf.symm.trans hok), h⟩

end Inlining

/-! ## A small project -/

namespace Lamp

/-- A node of a document. -/
def nodeOf (type : String) (properties : Members) : Value :=
  .obj [("type", .str type), ("properties", .obj properties)]

/-- A link of a document. -/
def linkOf (a : Int) (pinA : String) (b : Int) (pinB : String) : Value :=
  .obj [("pins", .arr [.obj [("nodeId", .int a), ("pinKey", .str pinA)],
    .obj [("nodeId", .int b), ("pinKey", .str pinB)]])]

/-- A lamp behind two nested patches, with a literal value under this key. -/
def document (key : String) : Value :=
  .obj [("patches", .obj [
    ("@/main", .obj [
      ("nodes", .obj [("1", nodeOf "@/lamp" [(key, .bool true)]), ("2", nodeOf "led" [])]),
      ("links", .obj [("1", linkOf 2 "brightness" 1 "output_43")])]),
    ("@/lamp", .obj [
      ("nodes", .obj [("41", nodeOf "core/inputBool" []), ("42", nodeOf "@/wire" []),
        ("43", nodeOf "core/outputBool" [])]),
      ("links", .obj [("1", linkOf 41 "PIN" 42 "input_61"), ("2", linkOf 42 "output_62" 43 "PIN")])]),
    ("@/wire", .obj [
      ("nodes", .obj [("61", nodeOf "core/inputBool" []), ("62", nodeOf "core/outputBool" [])]),
      ("links", .obj [("1", linkOf 61 "PIN" 62 "PIN")])])])]

def main (key : String) : Patch where
  path := "@/main"
  id := none
  nodes := [⟨1, "@/lamp", [(key, .bool true)], 1⟩, ⟨2, "led", [], 1⟩]
  links := [⟨"1", ⟨2, .named "brightness"⟩, ⟨1, .boundary .output 43⟩⟩]

def lamp : Patch where
  path := "@/lamp"
  id := none
  nodes := [⟨41, "core/inputBool", [], 1⟩, ⟨42, "@/wire", [], 1⟩, ⟨43, "core/outputBool", [], 1⟩]
  links := [⟨"1", ⟨41, .named "PIN"⟩, ⟨42, .boundary .input 61⟩⟩,
    ⟨"2", ⟨42, .boundary .output 62⟩, ⟨43, .named "PIN"⟩⟩]

def wire : Patch where
  path := "@/wire"
  id := none
  nodes := [⟨61, "core/inputBool", [], 1⟩, ⟨62, "core/outputBool", [], 1⟩]
  links := [⟨"1", ⟨61, .named "PIN"⟩, ⟨62, .named "PIN"⟩⟩]

def project (key : String) : Project := ⟨"", [main key, lamp, wire], []⟩

def closure (key : String) : Closure where
  entry := main key
  patches := [wire, lamp, main key]
  kinds := [
    ("core/inputBool", .primitive ⟨"core/inputBool", none, some ⟨.input, some "bool"⟩⟩),
    ("core/outputBool", .primitive ⟨"core/outputBool", none, some ⟨.output, some "bool"⟩⟩),
    ("@/wire", .subPatch "@/wire"), ("@/lamp", .subPatch "@/lamp"),
    ("led", .primitive ⟨"led", none, none⟩)]

theorem project_document (key : String) : Document.project (document key) = .ok (project key) := rfl

theorem ofEntry_project (key : String) :
    Closure.ofEntry (project key) "@/main" false = .ok (closure key) := by
  cbv

/-- The literal value is for a terminal of the lamp, so there is a flat graph. -/
theorem flatten_closure : ∃ graph, (closure "input_41").flatten = .ok graph ∧
    graph.nodes.map FlatNode.debugId = ["2", "1~41", "1~43", "1~42~61", "1~42~62"] :=
  ⟨_, by cbv, by cbv⟩

end Lamp

end Patchbay
