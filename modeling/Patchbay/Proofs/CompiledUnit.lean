import Patchbay.Compilation
import Patchbay.Proofs.Flat.OutLinks
import Patchbay.Proofs.Flat.Schedule
import Patchbay.Proofs.Flat.Tainting
import Patchbay.Proofs.Project.Closure

/-!
# Compiled units

What the stages of a compilation hand on to a unit (`CompiledUnit.Assembled`) makes it closed and
ordered: its parts are about the same nodes, it holds the links of the flat graph, and all of them
point forward (`compileDocument_closed`). The pins that an error can reach are all that the rules of
tainting give, and no others (`compileDocument_traces`).
-/

namespace Patchbay

namespace CompiledUnit

/-- What the stages of a compilation hand on to a unit. -/
structure Assembled (mode : Liveness) (backends : List Value) (kinds : Kinds) (graph : FlatGraph)
    (unit : CompiledUnit) : Prop where
  bound : ∃ t, (Typing.start kinds graph).bindAll = .ok (t, unit.nodes)
  scheduled : graph.schedule = .ok unit.topology
  reached : Liveness.reach mode kinds unit.nodes unit.topology = .ok unit.affected
  chosen : collectTemplates kinds unit.nodes backends = .ok unit.templates
  debugIds_eq : unit.debugIds = graph.nodes.map fun node => (node.id, node.debugId)

/-- A unit whose parts are about the same nodes, which holds the links of the graph once, and in
which they all point forward. -/
structure Closed (project : Project) (graph : FlatGraph) (unit : CompiledUnit) : Prop where
  ids_nodup : (unit.nodes.map BoundNode.id).Nodup
  topological : Topological unit.nodes unit.topology
  debugIds_nodup : (unit.debugIds.map Prod.fst).Nodup
  mem_debugIds : ∀ id, id ∈ unit.debugIds.map Prod.fst ↔ id ∈ unit.nodes.map BoundNode.id
  links_nodup : graph.links.Nodup
  links_perm : (unit.nodes.flatMap BoundNode.flatLinks).Perm graph.links
  outLinks : ∀ node ∈ unit.nodes, (node.outLinks.map Prod.fst).Nodup ∧
    ∀ entry ∈ node.outLinks, entry.2 ≠ [] ∧ entry.2.Pairwise OutLink.Before
  affected : ∀ id ∈ unit.affected.map Prod.fst, id ∈ unit.nodes.map BoundNode.id
  templates : ∀ type ∈ unit.templates.map Prod.fst, ∃ node ∈ unit.nodes, node.type = type
  not_patch : ∀ node ∈ unit.nodes, project.isPatch node.type = false

theorem json_of_sortedValue {unit : CompiledUnit} {v : Value} (h : unit.sortedValue = .ok v)
    (indent : Option Nat) : unit.json indent = .ok (Json.render indent v) := by
  rw [json, h]
  rfl

end CompiledUnit

/-! ## Stages -/

namespace Request

variable {request : Request} {document : Value} {unit : CompiledUnit}

theorem ofEntry_of_closure {project : Project} {strict : Bool} {entry : Value} {closure : Closure}
    (h : Request.closure project strict entry = .ok closure) :
    ∃ path, Closure.ofEntry project path strict = .ok closure := by
  unfold Request.closure at h
  split at h
  · exact absurd h (by simp)
  · next path _ => exact ⟨path, h⟩
  · exact absurd h (by simp)

theorem lift_eq_ok {α : Type} {step : Except Fault α} {a : α} (h : lift step = .ok a) :
    step = .ok a := by
  cases step with
  | error fault => exact absurd h (by simp [lift, Except.mapError])
  | ok b => exact congrArg Except.ok (Except.ok.inj h)

theorem assembled_of_assemble {mode : Liveness} {globals : Value} {backends : List Value}
    {kinds : Kinds} {graph : FlatGraph}
    (h : assemble mode globals backends kinds graph = .ok unit) :
    unit.Assembled mode backends kinds graph := by
  unfold assemble at h
  dsimp only at h
  split at h
  · next t bound hbound =>
    obtain ⟨nodes, hnodes, h⟩ := bind_eq_ok.mp h
    obtain rfl := Except.ok.inj hnodes
    obtain ⟨topology, htopology, h⟩ := bind_eq_ok.mp h
    obtain ⟨affected, haffected, h⟩ := bind_eq_ok.mp h
    obtain ⟨templates, htemplates, h⟩ := bind_eq_ok.mp h
    obtain ⟨table, _, h⟩ := bind_eq_ok.mp h
    obtain rfl := pure_eq_ok.mp h
    exact ⟨⟨t, hbound⟩, htopology, haffected, htemplates, rfl⟩
  · exact absurd h (by simp [bind, Except.bind])

theorem parameters_of_assemble {mode : Liveness} {globals : Value} {backends : List Value}
    {kinds : Kinds} {graph : FlatGraph}
    (h : assemble mode globals backends kinds graph = .ok unit) :
    unit.liveness = mode.name ∧ constants globals = .ok unit.globals := by
  unfold assemble at h
  dsimp only at h
  split at h
  · obtain ⟨_, _, h⟩ := bind_eq_ok.mp h
    obtain ⟨_, _, h⟩ := bind_eq_ok.mp h
    obtain ⟨_, _, h⟩ := bind_eq_ok.mp h
    obtain ⟨_, _, h⟩ := bind_eq_ok.mp h
    obtain ⟨table, htable, h⟩ := bind_eq_ok.mp h
    obtain rfl := pure_eq_ok.mp h
    exact ⟨rfl, lift_eq_ok htable⟩
  · exact absurd h (by simp [bind, Except.bind])

/-- A unit is assembled from the flat graph of the closure of its entry. -/
theorem assembled_of_compileDocument {backends : Value}
    (h : request.compileDocument backends document = .ok unit) :
    ∃ project closure graph mode names, Document.project document = .ok project ∧
      Request.closure project request.strict request.entry = .ok closure ∧
      closure.flatten = .ok graph ∧ Liveness.ofValue request.mode = .ok mode ∧
      unit.Assembled mode names closure.kinds graph := by
  obtain ⟨names, _, h⟩ := bind_eq_ok.mp h
  obtain ⟨project, hproject, h⟩ := bind_eq_ok.mp h
  obtain ⟨mode, hmode, h⟩ := bind_eq_ok.mp h
  obtain ⟨closure, hclosure, h⟩ := bind_eq_ok.mp h
  obtain ⟨graph, hgraph, h⟩ := bind_eq_ok.mp h
  exact ⟨project, closure, graph, mode, names, hproject, hclosure, hgraph, lift_eq_ok hmode,
    assembled_of_assemble h⟩

/-- What a unit keeps of the parameters: the mode, and the constants. -/
theorem parameters_of_compileDocument {backends : Value}
    (h : request.compileDocument backends document = .ok unit) :
    (∃ mode : Liveness, unit.liveness = mode.name) ∧
      constants request.globals = .ok unit.globals := by
  obtain ⟨_, _, h⟩ := bind_eq_ok.mp h
  obtain ⟨_, _, h⟩ := bind_eq_ok.mp h
  obtain ⟨mode, _, h⟩ := bind_eq_ok.mp h
  obtain ⟨_, _, h⟩ := bind_eq_ok.mp h
  obtain ⟨_, _, h⟩ := bind_eq_ok.mp h
  exact (parameters_of_assemble h).imp_left fun hmode => ⟨mode, hmode⟩

end Request

/-! ## Implementation texts -/

theorem templatesOf_cons {kinds : Kinds} {backends : List Value} {type : String}
    {types : List String} {texts : List (String × String)}
    (h : templatesOf kinds backends (type :: types) = .ok texts) :
    ∃ others, templatesOf kinds backends types = .ok others ∧
      (texts = others ∨ ∃ text, texts = (type, text) :: others) := by
  obtain ⟨p, _, h⟩ := bind_eq_ok.mp h
  dsimp only at h
  split at h
  · obtain ⟨text, htext, h⟩ := bind_eq_ok.mp h
    obtain ⟨others, hothers, h⟩ := bind_eq_ok.mp h
    obtain rfl := Except.ok.inj htext
    obtain rfl := pure_eq_ok.mp h
    exact ⟨others, hothers, .inl rfl⟩
  · obtain ⟨text, _, h⟩ := bind_eq_ok.mp h
    obtain ⟨others, hothers, h⟩ := bind_eq_ok.mp h
    obtain rfl := pure_eq_ok.mp h
    cases text with
    | none => exact ⟨others, hothers, .inl rfl⟩
    | some text => exact ⟨others, hothers, .inr ⟨text, rfl⟩⟩

/-- The texts are chosen for types in the order in which these are given. -/
theorem sublist_of_templatesOf {kinds : Kinds} {backends : List Value} {types : List String}
    {texts : List (String × String)} (h : templatesOf kinds backends types = .ok texts) :
    (texts.map Prod.fst).Sublist types := by
  induction types generalizing texts with
  | nil =>
    obtain rfl := Except.ok.inj h
    exact .slnil
  | cons first rest ih =>
    obtain ⟨others, hothers, rfl | ⟨text, rfl⟩⟩ := templatesOf_cons h
    · exact (ih hothers).cons _
    · exact (ih hothers).cons_cons _

/-! ## Units -/

namespace CompiledUnit.Assembled

variable {mode : Liveness} {backends : List Value} {kinds : Kinds} {graph : FlatGraph}
  {unit : CompiledUnit} (h : unit.Assembled mode backends kinds graph) (hg : graph.Sound kinds)
  (hn : graph.ids.Nodup)

include h hg hn

/-- Each node of the unit is a bound node of the graph, and the ids are the same. -/
theorem binds : (unit.nodes.map BoundNode.id).Perm graph.ids ∧
    ∀ node ∈ unit.nodes, ∃ flat ∈ graph.nodes, BoundNode.Binds kinds graph flat node := by
  obtain ⟨t, hbound⟩ := h.bound
  have hbinds := Typing.binds_of_bindAll hg hn hbound
  have hperm := List.mergeSort_perm graph.nodes fun a b => a.id ≤ b.id
  refine ⟨?_, fun node hnode => ?_⟩
  · have hids : unit.nodes.map BoundNode.id =
        (graph.nodes.mergeSort fun a b => a.id ≤ b.id).map FlatNode.id :=
      (Matched.map_eq hbinds fun _ _ hbind => hbind.id_eq.symm).symm
    rw [hids]
    exact hperm.map FlatNode.id
  · obtain ⟨flat, hflat, hbind⟩ := Matched.exists_left hbinds hnode
    exact ⟨flat, hperm.mem_iff.mp hflat, hbind⟩

theorem mem_ids_iff (id : Int) : id ∈ unit.nodes.map BoundNode.id ↔ id ∈ graph.ids :=
  (h.binds hg hn).1.mem_iff

theorem outLinks_eq {node : BoundNode} (hnode : node ∈ unit.nodes) :
    node.outLinks = BoundNode.outLinksOf graph node.id := by
  obtain ⟨flat, _, hbinds⟩ := (h.binds hg hn).2 node hnode
  rw [hbinds.id_eq, hbinds.outLinks_eq]

theorem topological : Topological unit.nodes unit.topology := by
  have hforward := FlatGraph.forward_of_schedule hg h.scheduled
  refine ⟨hforward.nodup, fun id => ?_, fun node hnode link hlink => ?_⟩
  · rw [hforward.mem_iff, h.mem_ids_iff hg hn]
  · obtain ⟨l, hl, htarget, _⟩ := BoundNode.mem_targets_iff.mp hlink
    obtain ⟨hl, hsource⟩ := (BoundNode.mem_flatLinks_iff (h.outLinks_eq hg hn hnode)).mp hl
    rw [← hsource, ← htarget]
    exact ⟨(hforward.mem_iff _).mpr (hg.ends_known l hl).2, hforward.forward l hl⟩

theorem exists_primitive {node : BoundNode} (hnode : node ∈ unit.nodes) :
    ∃ p, kinds.primitive node.type = .ok p := by
  obtain ⟨flat, hflat, hbinds⟩ := (h.binds hg hn).2 node hnode
  obtain ⟨p, hp, _⟩ := hg.primitive flat hflat
  exact ⟨p, hbinds.type_eq ▸ hp⟩

theorem links (hlinks : graph.links.Nodup) :
    (unit.nodes.flatMap BoundNode.flatLinks).Perm graph.links ∧
    ∀ node ∈ unit.nodes, (node.outLinks.map Prod.fst).Nodup ∧
      ∀ entry ∈ node.outLinks, entry.2 ≠ [] ∧ entry.2.Pairwise OutLink.Before := by
  constructor
  · refine BoundNode.perm_links hlinks ((h.binds hg hn).1.nodup_iff.mpr hn) (fun l hl => ?_)
      fun node hnode => h.outLinks_eq hg hn hnode
    exact (h.mem_ids_iff hg hn _).mpr (hg.ends_known l hl).1
  · intro node hnode
    rw [h.outLinks_eq hg hn hnode]
    exact ⟨BoundNode.nodup_outLinksOf graph node.id, fun entry hentry =>
      ⟨BoundNode.ne_nil_of_mem_outLinksOf hentry,
        BoundNode.pairwise_of_mem_outLinksOf hlinks hentry⟩⟩

omit hg hn in
theorem exists_type {type : String} (htype : type ∈ unit.templates.map Prod.fst) :
    ∃ node ∈ unit.nodes, node.type = type := by
  have hmem := (sublist_of_templatesOf h.chosen).subset htype
  exact List.mem_map.mp (mem_ascendingTexts.mp hmem)

/-- In a mode that traces errors, the sweep finds exactly what they taint. -/
theorem traced {catalog : Catalog} (hmode : mode ≠ .none)
    (hentries : ∀ type p, kinds.primitive type = .ok p → p.entry = catalog.type? type) :
    Liveness.Traced catalog unit.nodes unit.affected ∧
      ∀ node ∈ unit.nodes, Liveness.Legible kinds catalog unit.nodes node :=
  Liveness.traced_of_reach ((h.binds hg hn).1.nodup_iff.mpr hn)
    (fun node _ p hp => hentries node.type p hp) hmode (h.topological hg hn) h.reached

theorem affected_mem {catalog : Catalog}
    (hentries : ∀ type p, kinds.primitive type = .ok p → p.entry = catalog.type? type) :
    ∀ id ∈ unit.affected.map Prod.fst, id ∈ unit.nodes.map BoundNode.id := by
  intro id hid
  by_cases hmode : mode = .none
  · have hreached := h.reached
    rw [Liveness.reach, if_pos hmode] at hreached
    rw [← Except.ok.inj hreached] at hid
    exact absurd hid List.not_mem_nil
  · have htainted := ((h.traced hg hn hmode hentries).1.mem_iff id).mp hid
    exact htainted.mem_ids (h.topological hg hn)

end CompiledUnit.Assembled

/-- The declaration of a type in use is that of the catalog. -/
theorem Closure.entry_eq_of_primitive {project : Project} {strict : Bool} {entryPath : String}
    {closure : Closure} (hc : Closure.ofEntry project entryPath strict = .ok closure)
    {type : String} {p : Primitive} (hp : closure.kinds.primitive type = .ok p) :
    p.entry = project.catalog.type? type := by
  obtain ⟨_, rfl⟩ := Closure.primitive_of_ofEntry hc hp
  rfl

/-- A unit of a flat graph is closed. -/
theorem CompiledUnit.closed_of_assembled {project : Project} {strict : Bool} {entryPath : String}
    {closure : Closure} {graph : FlatGraph} {mode : Liveness} {backends : List Value}
    {unit : CompiledUnit} (hc : Closure.ofEntry project entryPath strict = .ok closure)
    (hs : closure.Sound) (hf : closure.flatten = .ok graph)
    (h : unit.Assembled mode backends closure.kinds graph) : unit.Closed project graph := by
  have hg := hs.sound_of_flatten hf
  have hn := hs.nodup_of_flatten hf
  have hlinks := hs.nodup_links_of_flatten hf
  have hdebugIds : unit.debugIds.map Prod.fst = graph.ids := by
    rw [h.debugIds_eq, List.map_map]
    rfl
  obtain ⟨hperm, houtLinks⟩ := h.links hg hn hlinks
  refine ⟨(h.binds hg hn).1.nodup_iff.mpr hn, h.topological hg hn, hdebugIds ▸ hn, fun id => ?_,
    hlinks, hperm, houtLinks,
    h.affected_mem hg hn fun _ _ => Closure.entry_eq_of_primitive hc, fun type => h.exists_type,
    fun node hnode => ?_⟩
  · rw [hdebugIds, h.mem_ids_iff hg hn]
  · obtain ⟨p, hp⟩ := h.exists_primitive hg hn hnode
    exact (Closure.primitive_of_ofEntry hc hp).1

/-! ## An alarm and two lamps -/

namespace Siren

/-- A node whose type raises errors, with a link to one of two lamps. -/
def document : Value :=
  .obj [
    ("patches", .obj [("@/main", .obj [
      ("nodes", .obj [("1", .obj [("type", .str "alarm")]), ("2", .obj [("type", .str "lamp")]),
        ("3", .obj [("type", .str "lamp")])]),
      ("links", .obj [("1", .obj [("pins", .arr [
        .obj [("nodeId", .int 1), ("pinKey", .str "OUT")],
        .obj [("nodeId", .int 2), ("pinKey", .str "IN")]])])])])]),
    ("nodeTypes", .obj [("alarm", .obj [("raises", .bool true),
      ("pins", .obj [("OUT", .obj [("direction", .str "output"), ("key", .str "ALARM")])])])])]

def request : Request := ⟨.str "@/main", .str "debug", .obj [], false⟩

def unit : CompiledUnit where
  nodes := [⟨1, "alarm", false, [], [("OUT", [⟨2, "IN"⟩])], []⟩, ⟨2, "lamp", false, [], [], []⟩,
    ⟨3, "lamp", false, [], [], []⟩]
  topology := [1, 2, 3]
  templates := []
  debugIds := [(1, "1"), (2, "2"), (3, "3")]
  affected := [(1, [.text "OUT", .text "ALARM"]), (2, [.text "IN"])]
  liveness := "debug"
  globals := []

theorem compileDocument_document :
    request.compileDocument (.arr [.str "js"]) document = .ok unit := by
  cbv

theorem topological : Topological unit.nodes [3, 1, 2] where
  nodup := by decide
  mem_iff id := by
    simp only [unit, List.map_cons, List.map_nil, List.mem_cons, List.not_mem_nil, or_false]
    omega
  forward := by decide

end Siren

/-- Every unit is closed, complete and ordered: its nodes, its topology and its debug ids have the
same ids, each once, its nodes hold the links of the flat graph, and no others, and each of them
ends on a node that stands later in the topology. -/
theorem Request.compileDocument_closed {request : Request} {backends document : Value}
    {unit : CompiledUnit} (h : request.compileDocument backends document = .ok unit) :
    ∃ project closure graph, Document.project document = .ok project ∧
      Request.closure project request.strict request.entry = .ok closure ∧
      closure.flatten = .ok graph ∧ unit.Closed project graph := by
  obtain ⟨project, closure, graph, mode, names, hp, hclosure, hf, _, hunit⟩ :=
    assembled_of_compileDocument h
  obtain ⟨path, hc⟩ := ofEntry_of_closure hclosure
  have hs := Closure.sound_of_ofEntry hp hc
  exact ⟨project, closure, graph, hp, hclosure, hf, CompiledUnit.closed_of_assembled hc hs hf hunit⟩

theorem Request.compileDocument_closed_siren :
    Siren.request.compileDocument (.arr [.str "js"]) Siren.document = .ok Siren.unit ∧
    ∃ project closure graph, Document.project Siren.document = .ok project ∧
      Request.closure project Siren.request.strict Siren.request.entry = .ok closure ∧
      closure.flatten = .ok graph ∧ Siren.unit.Closed project graph :=
  ⟨Siren.compileDocument_document, compileDocument_closed Siren.compileDocument_document⟩

/-- The pins that an error can reach are the least solution of the rules of tainting: a unit that
traces errors has an entry for each tainted node and no other, with the pins that are affected and
no others. Every order of the same nodes in which all links point forward finds the same. -/
theorem Request.compileDocument_traces {request : Request} {backends document : Value}
    {unit : CompiledUnit} {mode : Liveness}
    (h : request.compileDocument backends document = .ok unit)
    (hmode : Liveness.ofValue request.mode = .ok mode) (htraces : mode ≠ .none) :
    ∃ project closure, Document.project document = .ok project ∧
      Request.closure project request.strict request.entry = .ok closure ∧
      (unit.affected.map Prod.fst).Nodup ∧
      (∀ id, id ∈ unit.affected.map Prod.fst ↔
        Liveness.Tainted project.catalog unit.nodes id) ∧
      (∀ id, (∀ label ∈ unit.errorPins id,
          Liveness.Affects project.catalog unit.nodes id label) ∧
        ∀ label, Liveness.Affects project.catalog unit.nodes id label →
          (unit.errorPins id).holds label = true) ∧
      ∀ order, Topological unit.nodes order →
        ∃ reach, Liveness.reach mode closure.kinds unit.nodes order = .ok reach ∧
          reach.map Prod.fst = unit.affected.map Prod.fst ∧
          ∀ id, (∀ label ∈ Liveness.pinsOf reach id, (unit.errorPins id).holds label = true) ∧
            ∀ label ∈ unit.errorPins id, (Liveness.pinsOf reach id).holds label = true := by
  obtain ⟨project, closure, graph, mode', names, hp, hclosure, hf, hmode', hunit⟩ :=
    assembled_of_compileDocument h
  obtain rfl := Except.ok.inj (hmode'.symm.trans hmode)
  obtain ⟨path, hc⟩ := ofEntry_of_closure hclosure
  have hs := Closure.sound_of_ofEntry hp hc
  have hg := hs.sound_of_flatten hf
  have hn := hs.nodup_of_flatten hf
  have hentries : ∀ type p, closure.kinds.primitive type = .ok p →
      p.entry = project.catalog.type? type := fun _ _ => Closure.entry_eq_of_primitive hc
  obtain ⟨htraced, hlegible⟩ := hunit.traced hg hn htraces hentries
  refine ⟨project, closure, hp, hclosure, htraced.nodup, htraced.mem_iff,
    fun id => ⟨htraced.sound id, htraced.complete id⟩, fun order horder => ?_⟩
  have hids := (hunit.binds hg hn).1.nodup_iff.mpr hn
  obtain ⟨reach, hreach⟩ := Liveness.exists_reach hids (fun node _ p hp => hentries node.type p hp)
    htraces horder hlegible
  obtain ⟨hother, _⟩ := Liveness.traced_of_reach hids
    (fun node _ p hp => hentries node.type p hp) htraces horder hreach
  exact ⟨reach, hreach, hother.keys_eq htraced,
    fun id => ⟨fun label => hother.holds htraced, fun label => htraced.holds hother⟩⟩

theorem Request.compileDocument_traces_siren :
    Siren.request.compileDocument (.arr [.str "js"]) Siren.document = .ok Siren.unit ∧
    Liveness.ofValue Siren.request.mode = .ok .debug ∧ Liveness.debug ≠ .none ∧
    ∃ project closure, Document.project Siren.document = .ok project ∧
      Request.closure project Siren.request.strict Siren.request.entry = .ok closure ∧
      Liveness.Tainted project.catalog Siren.unit.nodes 2 ∧
      ¬ Liveness.Tainted project.catalog Siren.unit.nodes 3 ∧
      ∃ reach, Liveness.reach .debug closure.kinds Siren.unit.nodes [3, 1, 2] = .ok reach ∧
        reach.map Prod.fst = [1, 2] := by
  have h := Siren.compileDocument_document
  have hmode : Liveness.ofValue Siren.request.mode = .ok .debug := by cbv
  have htraces : Liveness.debug ≠ .none := by decide
  obtain ⟨project, closure, hp, hc, _, htainted, _, horders⟩ :=
    compileDocument_traces h hmode htraces
  obtain ⟨reach, hreach, hkeys, _⟩ := horders [3, 1, 2] Siren.topological
  refine ⟨h, hmode, htraces, project, closure, hp, hc, (htainted 2).mp (by decide), fun hbad => ?_,
    reach, hreach, hkeys⟩
  exact absurd ((htainted 3).mpr hbad) (by decide)

end Patchbay
