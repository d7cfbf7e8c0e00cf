import Patchbay.Proofs.CompiledUnit
import Patchbay.Proofs.Flat.LivenessOrder
import Patchbay.Proofs.Project.DocumentOrder

/-!
# Units of documents up to order

The order of members, nodes and links of a document does not show in the unit that it compiles to,
where the links of every patch have ids that differ, and the pins of the types in use have keys that
differ (`compileDocument_reordered`): another order compiles to a unit of the same JSON text, or
compiles neither. Where two outputs have keys that are one key and not the same, the order does show
(`compileDocument_reordered_odd`).
-/

namespace Patchbay

namespace CompiledUnit

/-- Two units differ in what their JSON texts do not show at most. -/
structure Alike (unit other : CompiledUnit) : Prop where
  nodes : List.Forall₂ BoundNode.Alike unit.nodes other.nodes
  topology_eq : unit.topology = other.topology
  templates_eq : unit.templates = other.templates
  debugIds_eq : unit.debugIds = other.debugIds
  affected : List.Forall₂ (fun entry entry' : Int × LabelSet => entry.1 = entry'.1 ∧
    Together Eq entry.2.sorted entry'.2.sorted) unit.affected other.affected
  liveness_eq : unit.liveness = other.liveness
  globals_eq : unit.globals = other.globals

end CompiledUnit

/-! ## JSON texts -/

theorem BoundNode.Alike.sortedValue {node other : BoundNode} (h : BoundNode.Alike node other)
    (errorPins : List Label) :
    Together Eq (node.sortedValue errorPins) (other.sortedValue errorPins) := by
  have houtLinks : node.outLinkMembers = other.outLinkMembers := by
    rw [outLinkMembers, outLinkMembers, h.outLinks_eq]
  refine (h.inputTypes.sortedMembers fun _ _ htype => congrArg Value.str htype).bind
    fun types _ htypes => ?_
  refine (h.properties.sortedMembers fun _ _ hv => Value.sortKeys_eq hv).bind
    fun values _ hvalues => .ok ?_
  rw [htypes, hvalues, houtLinks, h.id_eq, h.type_eq, h.pure_eq]

namespace CompiledUnit

theorem affectedMembers_together {rows rows' : List (Int × LabelSet)}
    (h : List.Forall₂ (fun row row' : Int × LabelSet => row.1 = row'.1 ∧
      Together Eq row.2.sorted row'.2.sorted) rows rows') :
    Together Eq (affectedMembers rows) (affectedMembers rows') := by
  induction h with
  | nil => exact .ok rfl
  | cons hr _ ih =>
    refine hr.2.bind fun pins _ hpins => ih.bind fun others _ hothers => .ok ?_
    rw [hr.1, hpins, hothers]

theorem sortedNodeMembers_together {nodes nodes' : List BoundNode}
    (h : List.Forall₂ BoundNode.Alike nodes nodes') :
    Together Eq (sortedNodeMembers nodes) (sortedNodeMembers nodes') := by
  induction h with
  | nil => exact .ok rfl
  | cons hn _ ih =>
    refine (hn.sortedValue []).bind fun value _ hvalue => ih.bind fun others _ hothers => .ok ?_
    rw [hn.id_eq, hvalue, hothers]

/-- Units that are alike have the same JSON text, or none. -/
theorem Alike.json {unit other : CompiledUnit} (h : Alike unit other) (indent : Option Nat) :
    Together Eq (unit.json indent) (other.json indent) := by
  have haffected : List.Forall₂ (fun entry entry' : Int × LabelSet => entry.1 = entry'.1 ∧
      Together Eq entry.2.sorted entry'.2.sorted) (byId unit.affected) (byId other.affected) :=
    Matched.mergeSort h.affected fun a b a' b' ha hb => by rw [ha.1, hb.1]
  have hnodes : List.Forall₂ BoundNode.Alike unit.nodesByIdText other.nodesByIdText :=
    Matched.mergeSort h.nodes fun a b a' b' ha hb => by rw [ha.id_eq, hb.id_eq]
  have hvalue : Together Eq unit.sortedValue other.sortedValue := by
    refine (affectedMembers_together haffected).bind fun affected _ haffected => ?_
    rw [← h.globals_eq]
    refine (Together.same _).bind fun globals _ hglobals => ?_
    refine (sortedNodeMembers_together hnodes).bind fun members _ hmembers => .ok ?_
    rw [haffected, hglobals, hmembers, h.templates_eq, h.liveness_eq, h.debugIds_eq,
      h.topology_eq]
  exact hvalue.map fun _ _ hv => congrArg _ hv

end CompiledUnit

/-! ## Stages -/

theorem FlatGraph.schedule_eq_of_like {graph other : FlatGraph}
    (h : FlatGraph.Like .reordered graph other) : graph.schedule = other.schedule := by
  have hids : graph.ids = other.ids := Matched.map_eq h.nodes fun _ _ hn => hn.id_eq
  refine schedule_congr (fun id => by rw [hids]) fun a b => ?_
  rw [Feeds, Feeds, h.links_eq]

theorem chooseTemplate_eq_of_alike {t other : NodeType} (h : NodeType.Alike t other)
    (backends : List Value) :
    chooseTemplate t.templates backends = chooseTemplate other.templates backends := by
  induction backends with
  | nil => rfl
  | cons backend rest ih =>
    unfold chooseTemplate
    simp only [h.lookup_template, ih]

namespace Request

variable {kinds kinds' : Kinds} {graph other : FlatGraph}

/-- Graphs that are alike are assembled to units that are alike, where the inputs of every node have
keys that differ and, if errors are tracked, outputs that are one key have the same key. -/
theorem assemble_together (mode : Liveness) (globals : Value) (backends : List Value)
    (hkinds : Kinds.Alike kinds kinds') (hgraph : FlatGraph.Like .reordered graph other)
    (hg : graph.Sound kinds) (hn : graph.ids.Nodup) (hinputs : graph.InputsApart kinds)
    (hclear : mode ≠ .none → kinds.OutputsClear) (hnan : kinds.NaNFree) :
    Together CompiledUnit.Alike (assemble mode globals backends kinds graph)
      (assemble mode globals backends kinds' other) := by
  have hbound := Typing.bindAll_together hkinds hgraph hg hn hinputs hnan
  unfold assemble
  generalize (Typing.start kinds graph).bindAll = bound at hbound
  generalize (Typing.start kinds' other).bindAll = bound' at hbound
  cases hbound with
  | error _ => exact .error
  | @ok a b hnodes =>
    obtain ⟨t, nodes⟩ := a
    obtain ⟨t', nodes'⟩ := b
    refine Agree.bind (.ok hnodes) fun nodes nodes' hnodes => ?_
    rw [← FlatGraph.schedule_eq_of_like hgraph]
    refine (Together.same graph.schedule).bind fun topology _ htopology => ?_
    subst htopology
    refine (Liveness.reach_sorted_together hkinds hclear hnan hnodes topology).bind
      fun affected affected' haffected => ?_
    have htypes : nodes.map BoundNode.type = nodes'.map BoundNode.type :=
      Matched.map_eq hnodes fun _ _ hn => hn.type_eq
    unfold collectTemplates
    rw [← htypes]
    refine (templatesOf_together hkinds.primitive (fun hpq => Found.map_eq hpq.entry
      fun _ _ ht => chooseTemplate_eq_of_alike ht backends) _).bind fun templates _ htemplates => ?_
    refine (Together.same (lift (constants globals))).bind fun table _ htable => .ok ?_
    exact {
      nodes := hnodes
      topology_eq := rfl
      templates_eq := htemplates
      debugIds_eq := Matched.map_eq hgraph.nodes fun _ _ hn => by rw [hn.id_eq, hn.debugId_eq]
      affected := haffected
      liveness_eq := rfl
      globals_eq := htable }

theorem closure_together {project other : Project} (h : Project.Alike project other)
    (strict : Bool) (entry : Value) :
    Together Closure.Alike (closure project strict entry) (closure other strict entry) := by
  unfold closure
  cases Label.ofValue entry with
  | error fault => exact .error
  | ok label =>
    cases label with
    | text path => exact h.ofEntry path strict
    | _ => exact .error

/-- The entry of a project is compiled to nodes with inputs whose keys differ, of types without pins
keyed by "not a number"; if errors are tracked, no type has two outputs that show one key in two
ways. -/
structure KeysApart (request : Request) (project : Project) : Prop where
  inputs : ∀ closure graph, Request.closure project request.strict request.entry = .ok closure →
    closure.flatten = .ok graph → graph.InputsApart closure.kinds
  outputs : Liveness.ofValue request.mode ≠ .ok .none → ∀ closure,
    Request.closure project request.strict request.entry = .ok closure → closure.kinds.OutputsClear
  naNFree : ∀ closure, Request.closure project request.strict request.entry = .ok closure →
    closure.kinds.NaNFree

/-- Projects that are alike are compiled to units that are alike. -/
theorem compile_together {request : Request} {document : Value} {project other : Project}
    (h : Project.Alike project other) (hread : Document.project document = .ok project)
    (hapart : request.KeysApart project) (backends : List Value) :
    Together CompiledUnit.Alike (request.compile backends project)
      (request.compile backends other) := by
  unfold compile
  refine (Together.same _).results.bind fun mode _ ⟨hmode, hnamed, _⟩ => ?_
  subst hmode
  refine (closure_together h request.strict request.entry).results.bind
    fun closure closure' ⟨hclosure, hc, _⟩ => ?_
  refine hclosure.flatten.results.bind fun graph graph' ⟨hgraph, hf, _⟩ => ?_
  obtain ⟨path, hentry⟩ := ofEntry_of_closure hc
  have hs := Closure.sound_of_ofEntry hread hentry
  have hclear : mode ≠ .none → closure.kinds.OutputsClear := fun htracked =>
    hapart.outputs (fun hnone => htracked
      (Except.ok.inj ((lift_eq_ok hnamed).symm.trans hnone))) closure hc
  exact assemble_together mode request.globals backends hclosure.kinds hgraph
    (hs.sound_of_flatten hf) (hs.nodup_of_flatten hf) (hapart.inputs closure graph hc hf) hclear
    (hapart.naNFree closure hc)

/-- Documents that are reordered are compiled to units that are alike. -/
theorem compileDocument_together {request : Request} {document other : Value}
    {project project' : Project} (hread : Document.checked document = .ok project)
    (hread' : Document.checked other = .ok project')
    (hordered : Document.Reordered document other) (hlinks : Document.DistinctLinks document)
    (hlinks' : Document.DistinctLinks other) (hapart : request.KeysApart project)
    (backends : Value) :
    Together CompiledUnit.Alike (request.compileDocument backends document)
      (request.compileDocument backends other) := by
  have halike := Document.alike_of_reordered hordered hlinks hlinks' hread hread'
  unfold compileDocument
  refine (Together.same _).bind fun names _ hnames => ?_
  subst hnames
  refine (Document.project_together hordered hread hread').results.bind fun p q hpq => ?_
  obtain ⟨⟨rfl, rfl⟩, hproject, _⟩ := hpq
  exact compile_together halike hproject hapart names

end Request

/-! ## Adders that are turned -/

namespace Turned

/-- A list, from its end if it is to be turned. -/
def turned {α : Type} (turn : Bool) (l : List α) : List α := if turn then l.reverse else l

def node (turn : Bool) (id : Int) : Value :=
  .obj (turned turn [("id", .int id), ("type", .str "sum")])

def linkEnd (turn : Bool) (id : Int) (key : String) : Value :=
  .obj (turned turn [("nodeId", .int id), ("pinKey", .str key)])

/-- A link from the output of the first node to an input of the second. -/
def link (turn : Bool) (id key : String) : Value :=
  .obj (turned turn [("id", .str id),
    ("pins", .arr [linkEnd turn 1 "out", linkEnd turn 2 key])])

def patch (turn : Bool) : Value :=
  .obj (turned turn [("nodes", .arr (turned turn [node turn 1, node turn 2])),
    ("links", .arr (turned turn [link turn "1" "a", link turn "01" "b"]))])

def input (turn : Bool) : Value :=
  .obj (turned turn [("direction", .str "input"), ("default", .int 5)])

def pins (turn : Bool) : Value :=
  .obj (turned turn [("a", input turn), ("b", input turn),
    ("out", .obj [("direction", .str "output")])])

def sumType (turn : Bool) : Value :=
  .obj (turned turn [("raises", .bool true), ("pins", pins turn)])

/-- Two adders, with links to both inputs of the second whose ids are equal as numbers. All objects
and lists of entries may be turned. -/
def document (turn : Bool) : Value :=
  .obj (turned turn [("patches", .obj [("@/main", patch turn)]),
    ("nodeTypes", .obj [("sum", sumType turn)])])

def request : Request := ⟨.str "@/main", .str "debug", .obj [], false⟩

def inputPin (key : String) : Pin := ⟨.str key, .input, "any", some (.int 5), false⟩

def outputPin : Pin := ⟨.str "out", .output, "any", none, false⟩

def type (turn : Bool) : NodeType :=
  ⟨"sum", turned turn [("a", inputPin "a"), ("b", inputPin "b"), ("out", outputPin)],
    false, true, []⟩

def main (turn : Bool) : Patch where
  path := "@/main"
  id := none
  nodes := turned turn [⟨1, "sum", [], 1⟩, ⟨2, "sum", [], 1⟩]
  links := turned turn [⟨"1", ⟨1, .named "out"⟩, ⟨2, .named "a"⟩⟩,
    ⟨"01", ⟨1, .named "out"⟩, ⟨2, .named "b"⟩⟩]

def project (turn : Bool) : Project := ⟨"", [main turn], [type turn]⟩

def closure : Closure where
  entry := main false
  patches := [main false]
  kinds := [("sum", .primitive ⟨"sum", some (type false), none⟩)]

def graph : FlatGraph where
  nodes := [⟨1, "sum", [], 1, "1"⟩, ⟨2, "sum", [], 1, "2"⟩]
  links := [⟨1, "out", 2, "a"⟩, ⟨1, "out", 2, "b"⟩]

def unit : CompiledUnit where
  nodes := [
    ⟨1, "sum", false, [(.text "a", "any"), (.text "b", "any")], [("out", [⟨2, "a"⟩, ⟨2, "b"⟩])],
      [(.text "a", .int 5), (.text "b", .int 5)]⟩,
    ⟨2, "sum", false, [(.text "a", "any"), (.text "b", "any")], [], []⟩]
  topology := [1, 2]
  templates := []
  debugIds := [(1, "1"), (2, "2")]
  affected := [(1, [.text "out"]), (2, [.text "a", .text "b", .text "out"])]
  liveness := "debug"
  globals := []

theorem checked_document (turn : Bool) :
    Document.checked (document turn) = .ok (project turn) := by
  cases turn with
  | false => cbv
  | true => cbv

theorem closure_project :
    Request.closure (project false) request.strict request.entry = .ok closure := by cbv

theorem flatten_closure : closure.flatten = .ok graph := by cbv

/-- Members with other values, from their end. -/
theorem obj_reordered {members others : Members} (hn : (members.map Prod.fst).Nodup)
    (h : Value.MembersReordered members others) :
    (Value.obj members).Reordered (.obj others.reverse) :=
  .obj hn h (List.reverse_perm _).symm

theorem objectBy_reversed {R : String → Value → Value → Prop} {members others : Members}
    (hn : (members.map Prod.fst).Nodup)
    (h : List.Forall₂ (fun a b : String × Value => a.1 = b.1 ∧ R a.1 a.2 b.2) members others) :
    Document.ObjectBy R (.obj members) (.obj others.reverse) :=
  ⟨members, _, rfl, rfl, hn, others, h, (List.reverse_perm _).symm⟩

/-- Entries of a list, from its end. -/
theorem arr_reordered {items others : List Value}
    (h : List.Forall₂ Value.Reordered items others) :
    Document.CollectionReordered (.arr items) (.arr others.reverse) :=
  .inr ⟨items, _, rfl, rfl, others, h, (List.reverse_perm _).symm⟩

theorem node_reordered (id : Int) : (node false id).Reordered (node true id) :=
  obj_reordered (by simp [turned]) (.cons (.int id) (.cons (.str _) .nil))

theorem linkEnd_reordered (id : Int) (key : String) :
    (linkEnd false id key).Reordered (linkEnd true id key) :=
  obj_reordered (by simp [turned]) (.cons (.int id) (.cons (.str key) .nil))

theorem link_reordered (id key : String) : (link false id key).Reordered (link true id key) := by
  have hends : (Value.arr [linkEnd false 1 "out", linkEnd false 2 key]).Reordered
      (.arr [linkEnd true 1 "out", linkEnd true 2 key]) :=
    .arr (.cons (linkEnd_reordered 1 "out") (.cons (linkEnd_reordered 2 key) .nil))
  exact obj_reordered (by simp [turned]) (.cons (.str id) (.cons hends .nil))

theorem input_reordered : (input false).Reordered (input true) :=
  obj_reordered (by simp [turned]) (.cons (.str _) (.cons (.int 5) .nil))

theorem pins_reordered : (pins false).Reordered (pins true) := by
  have hout : (Value.obj [("direction", .str "output")]).Reordered
      (.obj [("direction", .str "output")]) :=
    .obj (by simp) (.cons (.str _) .nil) (.refl _)
  exact obj_reordered (by simp [turned])
    (.cons input_reordered (.cons input_reordered (.cons hout .nil)))

theorem sumType_reordered : (sumType false).Reordered (sumType true) :=
  obj_reordered (by simp [turned]) (.cons (.bool true) (.cons pins_reordered .nil))

theorem patch_reordered : Document.PatchReordered (patch false) (patch true) := by
  refine objectBy_reversed (by simp [turned]) (.cons ⟨rfl, ?_⟩ (.cons ⟨rfl, ?_⟩ .nil))
  · rw [Document.PatchMember, if_pos (.inl rfl)]
    exact arr_reordered (.cons (node_reordered 1) (.cons (node_reordered 2) .nil))
  · rw [Document.PatchMember, if_pos (.inr rfl)]
    exact arr_reordered (.cons (link_reordered "1" "a") (.cons (link_reordered "01" "b") .nil))

theorem document_reordered : Document.Reordered (document false) (document true) := by
  refine objectBy_reversed (by simp [turned]) (.cons ⟨rfl, ?_⟩ (.cons ⟨rfl, ?_⟩ .nil))
  · rw [Document.DocumentMember, if_pos rfl]
    exact ⟨_, _, rfl, rfl, by simp, .of_forall₂ (.cons ⟨rfl, patch_reordered⟩ .nil)⟩
  · rw [Document.DocumentMember, if_neg (by decide)]
    exact .obj (by simp) (.cons sumType_reordered .nil) (.refl _)

theorem linkIds_patch (turn : Bool) : Document.linkIds (patch turn) = turned turn ["1", "01"] := by
  cases turn with
  | false => cbv
  | true => cbv

theorem distinctLinks_document (turn : Bool) : Document.DistinctLinks (document turn) := by
  have hitems : Document.itemsIn (((document turn).member? "patches").getD .null) =
      [patch turn] := by
    cases turn with
    | false => cbv
    | true => cbv
  rw [Document.DistinctLinks, hitems, List.forall_mem_singleton, linkIds_patch]
  cases turn with
  | false => decide
  | true => decide

theorem eq_of_primitive {id : String} {p : Primitive} (hp : closure.kinds.primitive id = .ok p) :
    p = ⟨"sum", some (type false), none⟩ := by
  by_cases hid : id = "sum"
  · subst hid
    have hsum : closure.kinds.primitive "sum" = .ok ⟨"sum", some (type false), none⟩ := by cbv
    exact Except.ok.inj (hp.symm.trans hsum)
  · have hnone : closure.kinds.lookup id = none := by
      rw [closure, List.lookup_cons, beq_false_of_ne hid]
      rfl
    rw [Kinds.primitive, Kinds.kind, hnone] at hp
    exact absurd hp (by simp)

theorem keysApart_project : request.KeysApart (project false) where
  inputs c graph hc hf := by
    obtain rfl := Except.ok.inj (closure_project.symm.trans hc)
    obtain rfl := Except.ok.inj (flatten_closure.symm.trans hf)
    rintro node hnode p hp _ entry hentry
    obtain rfl := eq_of_primitive hp
    obtain rfl := Option.some.inj hentry
    have harity : ∀ node ∈ graph.nodes, node.arity = 1 := by decide
    have hpins : BoundNode.inputPins (type false) 1 = [inputPin "a", inputPin "b"] := by cbv
    rw [NodeType.InputsApart, harity node hnode, hpins, List.pairwise_pair]
    cbv
  outputs _ c hc := by
    obtain rfl := Except.ok.inj (closure_project.symm.trans hc)
    intro id p hp entry hentry
    obtain rfl := eq_of_primitive hp
    obtain rfl := Option.some.inj hentry
    have houtputs : (type false).outputs = [outputPin] := by cbv
    intro pin hpin other hother _
    rw [houtputs, List.mem_singleton] at hpin hother
    rw [hpin, hother]
  naNFree c hc := by
    obtain rfl := Except.ok.inj (closure_project.symm.trans hc)
    intro id p hp entry hentry
    obtain rfl := eq_of_primitive hp
    obtain rfl := Option.some.inj hentry
    unfold NodeType.NaNFree
    decide

theorem compileDocument_document :
    request.compileDocument (.arr [.str "js"]) (document false) = .ok unit := by cbv

end Turned

/-- The order of members, nodes and links does not show in what a document compiles to. -/
theorem Request.compileDocument_reordered {request : Request} {document other : Value}
    {project project' : Project} (hread : Document.checked document = .ok project)
    (hread' : Document.checked other = .ok project')
    (hordered : Document.Reordered document other) (hlinks : Document.DistinctLinks document)
    (hlinks' : Document.DistinctLinks other) (hapart : request.KeysApart project)
    (backends : Value) :
    ((∃ unit, request.compileDocument backends document = .ok unit) ↔
      ∃ unit, request.compileDocument backends other = .ok unit) ∧
    ∀ unit unit', request.compileDocument backends document = .ok unit →
      request.compileDocument backends other = .ok unit' →
      ∀ indent text, unit.json indent = .ok text ↔ unit'.json indent = .ok text := by
  have hcompile := compileDocument_together hread hread' hordered hlinks hlinks' hapart backends
  generalize request.compileDocument backends document = left at hcompile
  generalize request.compileDocument backends other = right at hcompile
  cases hcompile with
  | error _ => exact ⟨by simp, by simp⟩
  | @ok unit unit' h =>
    refine ⟨by simp, ?_⟩
    rintro _ _ ⟨⟩ ⟨⟩ indent text
    have hjson := h.json indent
    generalize unit.json indent = left at hjson
    generalize unit'.json indent = right at hjson
    cases hjson with
    | error _ => simp
    | ok heq => rw [heq]

theorem Request.compileDocument_reordered_turned :
    Document.Reordered (Turned.document false) (Turned.document true) ∧
    Turned.request.KeysApart (Turned.project false) ∧
    ∃ unit unit' text,
      Turned.request.compileDocument (.arr [.str "js"]) (Turned.document false) = .ok unit ∧
      Turned.request.compileDocument (.arr [.str "js"]) (Turned.document true) = .ok unit' ∧
      unit.json none = .ok text ∧ unit'.json none = .ok text := by
  obtain ⟨hcompiles, hjson⟩ := compileDocument_reordered (Turned.checked_document false)
    (Turned.checked_document true) Turned.document_reordered (Turned.distinctLinks_document false)
    (Turned.distinctLinks_document true) Turned.keysApart_project (.arr [.str "js"])
  obtain ⟨unit', hunit'⟩ := hcompiles.mp ⟨_, Turned.compileDocument_document⟩
  obtain ⟨v, hvalue⟩ : ∃ v, Turned.unit.sortedValue = .ok v := ⟨_, by cbv⟩
  have htext := CompiledUnit.json_of_sortedValue hvalue none
  exact ⟨Turned.document_reordered, Turned.keysApart_project, Turned.unit, unit', _,
    Turned.compileDocument_document, hunit', htext,
    (hjson _ _ Turned.compileDocument_document hunit' none _).mp htext⟩

/-! ## Keys in two ways -/

namespace Request

/-- The document is sound, its links have different ids and its nodes inputs with different keys. -/
def Admits (request : Request) (document : Value) : Prop :=
  Document.DistinctLinks document ∧ ∃ project closure graph,
    Document.checked document = .ok project ∧
    Request.closure project request.strict request.entry = .ok closure ∧
    closure.flatten = .ok graph ∧ graph.InputsApart closure.kinds

/-- Two documents that differ in order are compiled to units with different texts. -/
def ShowsOrder (request : Request) (backends document other : Value) : Prop :=
  Document.Reordered document other ∧ request.Admits document ∧ request.Admits other ∧
  ∃ unit unit' text text', request.compileDocument backends document = .ok unit ∧
    request.compileDocument backends other = .ok unit' ∧ unit.json none = .ok text ∧
    unit'.json none = .ok text' ∧ text ≠ text'

end Request

namespace Twofold

def pin (side : Direction) (key : Value) : Value :=
  .obj [("direction", .str side.name), ("key", key)]

/-- Two pins with these keys, which may be turned. -/
def pins (turn : Bool) (side : Direction) (v w : Value) : Value :=
  .obj (Turned.turned turn [("a", pin side v), ("b", pin side w)])

def patch : Value := .obj [("nodes", .obj [("1", .obj [("type", .str "twofold")])])]

/-- One node of a type that raises errors and has two pins with these keys. -/
def document (turn : Bool) (side : Direction) (v w : Value) : Value :=
  .obj [("patches", .obj [("@/main", patch)]),
    ("nodeTypes", .obj [("twofold", .obj [("raises", .bool true), ("pins", pins turn side v w)])])]

def request (mode : Liveness) : Request := ⟨.str "@/main", .str mode.name, .obj [], false⟩

def main : Patch := ⟨"@/main", none, [⟨1, "twofold", [], 1⟩], []⟩

def type (turn : Bool) (side : Direction) (v w : Value) : NodeType :=
  ⟨"twofold", Turned.turned turn
    [("a", ⟨v, side, "any", none, false⟩), ("b", ⟨w, side, "any", none, false⟩)], false, true, []⟩

def project (t : NodeType) : Project := ⟨"", [main], [t]⟩

def closure (t : NodeType) : Closure where
  entry := main
  patches := [main]
  kinds := [("twofold", .primitive ⟨"twofold", some t, none⟩)]

def flat : FlatNode := ⟨1, "twofold", [], 1, "1"⟩

def graph : FlatGraph := ⟨[flat], []⟩

def bound (inputTypes : Table String) : BoundNode := ⟨1, "twofold", false, inputTypes, [], []⟩

def unit (mode : Liveness) (inputTypes : Table String) (affected : Liveness.Reach) :
    CompiledUnit where
  nodes := [bound inputTypes]
  topology := [1]
  templates := []
  debugIds := [(1, "1")]
  affected := affected
  liveness := mode.name
  globals := []

/-- The value of a unit. -/
def value (mode : Liveness) (inputTypes affected : Members) : Value :=
  .obj [("globals", .obj []), ("impl", .obj []), ("liveness", .str mode.name),
    ("nodeIdsMap", .obj [("1", .str "1")]),
    ("nodes", .obj [("1", .obj [("id", .int 1), ("implId", .str "twofold"),
      ("inputTypes", .obj inputTypes), ("outLinks", .obj []), ("props", .obj []),
      ("pure", .bool false)])]),
    ("pinsAffectedByErrorRaisers", .obj affected), ("topology", .arr [.int 1])]

theorem pin_reordered (side : Direction) {key : Value} (h : key.Reordered key) :
    (pin side key).Reordered (pin side key) :=
  .obj (by simp) (.cons (.str side.name) (.cons h .nil)) (.refl _)

theorem patch_reordered : Document.PatchReordered patch patch := by
  refine ⟨_, _, rfl, rfl, by simp, .of_forall₂ (.cons ⟨rfl, ?_⟩ .nil)⟩
  have hnode : (Value.obj [("type", .str "twofold")]).Reordered (.obj [("type", .str "twofold")]) :=
    .obj (by simp) (.cons (.str _) .nil) (.refl _)
  rw [Document.PatchMember, if_pos (.inl rfl)]
  exact .inl (.obj (by simp) (.cons hnode .nil) (.refl _))

theorem document_reordered (side : Direction) {v w : Value} (hv : v.Reordered v)
    (hw : w.Reordered w) :
    Document.Reordered (document false side v w) (document true side v w) := by
  have hpins : (pins false side v w).Reordered (pins true side v w) :=
    Turned.obj_reordered (by simp [Turned.turned])
      (.cons (pin_reordered side hv) (.cons (pin_reordered side hw) .nil))
  have htype : (Value.obj [("raises", .bool true), ("pins", pins false side v w)]).Reordered
      (.obj [("raises", .bool true), ("pins", pins true side v w)]) :=
    .obj (by simp) (.cons (.bool true) (.cons hpins .nil)) (.refl _)
  refine ⟨_, _, rfl, rfl, by simp, .of_forall₂ (.cons ⟨rfl, ?_⟩ (.cons ⟨rfl, ?_⟩ .nil))⟩
  · rw [Document.DocumentMember, if_pos rfl]
    exact ⟨_, _, rfl, rfl, by simp, .of_forall₂ (.cons ⟨rfl, patch_reordered⟩ .nil)⟩
  · rw [Document.DocumentMember, if_neg (by simp)]
    exact .obj (by simp) (.cons htype .nil) (.refl _)

theorem distinctLinks_document (turn : Bool) (side : Direction) (v w : Value) :
    Document.DistinctLinks (document turn side v w) := by
  have hitems : Document.itemsIn (((document turn side v w).member? "patches").getD .null) =
    [patch] := by cbv
  rw [Document.DistinctLinks, hitems, List.forall_mem_singleton]
  exact List.nodup_nil

theorem checked_document (turn : Bool) (side : Direction) (v w : Value) :
    Document.checked (document turn side v w) = .ok (project (type turn side v w)) := by
  cases turn with
  | false => cases side with
    | input => cbv
    | output => cbv
  | true => cases side with
    | input => cbv
    | output => cbv

theorem flatten_closure (t : NodeType) : (closure t).flatten = .ok graph := by cbv

theorem admits_document (mode : Liveness) {turn : Bool} {side : Direction} {v w : Value}
    (h : (type turn side v w).InputsApart 1) :
    (request mode).Admits (document turn side v w) := by
  refine ⟨distinctLinks_document turn side v w, _, closure (type turn side v w), graph,
    checked_document turn side v w, by cbv, flatten_closure _, ?_⟩
  rintro node hnode p hp _ entry hentry
  obtain rfl := List.mem_singleton.mp hnode
  have hprimitive : (closure (type turn side v w)).kinds.primitive "twofold" =
    .ok ⟨"twofold", some (type turn side v w), none⟩ := by cbv
  obtain rfl := Except.ok.inj (hprimitive.symm.trans hp)
  obtain rfl := Option.some.inj hentry
  exact h

/-! ### Two outputs -/

theorem inputPins_outputs (turn : Bool) (v w : Value) :
    BoundNode.inputPins (type turn .output v w) 1 = [] := by
  cases turn with
  | false => cbv
  | true => cbv

/-- Of two outputs with one key, the first is the one that the text of the unit shows. -/
theorem showsOrder_outputs :
    (request .debug).ShowsOrder (.arr [.str "js"]) (document false .output (.bool true) (.int 1))
      (document true .output (.bool true) (.int 1)) := by
  have hapart (turn : Bool) : (type turn .output (.bool true) (.int 1)).InputsApart 1 := by
    rw [NodeType.InputsApart, inputPins_outputs]
    exact .nil
  have hunit : (request .debug).compileDocument (.arr [.str "js"])
    (document false .output (.bool true) (.int 1)) = .ok (unit .debug [] [(1, [.bool true])]) := by
    cbv
  have hunit' : (request .debug).compileDocument (.arr [.str "js"])
    (document true .output (.bool true) (.int 1)) = .ok (unit .debug [] [(1, [.int 1])]) := by
    cbv
  have hvalue : (unit .debug [] [(1, [.bool true])]).sortedValue =
    .ok (value .debug [] [("1", .arr [.bool true])]) := by cbv
  have hvalue' : (unit .debug [] [(1, [.int 1])]).sortedValue =
    .ok (value .debug [] [("1", .arr [.int 1])]) := by cbv
  exact ⟨document_reordered .output (.bool true) (.int 1), admits_document .debug (hapart false),
    admits_document .debug (hapart true), _, _, _, _, hunit, hunit',
    CompiledUnit.json_of_sortedValue hvalue none, CompiledUnit.json_of_sortedValue hvalue' none,
    by decide +kernel⟩

/-! ### An input without a place -/

theorem bindInputs_pair {p q : Pin} {a b : Label} (ha : Label.ofValue p.key = .ok a)
    (hb : Label.ofValue q.key = .ok b) (hp : p.default? = none) (hq : q.default? = none)
    (h : a.same b = false) :
    BoundNode.bindInputs [] [] [] [p, q] = .ok ([(a, p.type), (b, q.type)], []) := by
  simp [BoundNode.bindInputs, ha, hb, hp, hq, Table.put, h]

/-- Two labels that are not found to descend stay in their places, if they have no order. -/
theorem sortedMembers_pair {a b : Label} (hlabels : Label.areAlike [a, b] = false)
    (h : Label.before b a = .ok false) :
    Table.sortedMembers .str [(a, "any"), (b, "any")] =
      .ok [(a.keyText, .str "any"), (b.keyText, .str "any")] := by
  simp [Table.sortedMembers, Label.sortOn, hlabels, h, Stepwise.sort, Stepwise.frontRun,
    Stepwise.runFrom, Stepwise.insertAll, bind, Except.bind, pure, Except.pure]

theorem bindAll_start {t : NodeType} {types : Table String} (hpure : t.pure = false)
    (h : BoundNode.bindInputs [] [] [] (BoundNode.inputPins t 1) = .ok (types, [])) :
    (Typing.start (closure t).kinds graph).bindAll =
      .ok (.start (closure t).kinds graph, [bound types]) := by
  have hprimitive : (Typing.start (closure t).kinds graph).primitive flat.id =
    .ok ⟨"twofold", some t, none⟩ := by cbv
  have hnode :
      BoundNode.ofNode (Typing.start (closure t).kinds graph) flat = .ok (bound types) := by
    have hlinked :
      BoundNode.linkedPins (Typing.start (closure t).kinds graph).graph flat.id = [] := by cbv
    have hconflict : BoundNode.conflict? flat [] = none := by cbv
    have harity : flat.arity = 1 := rfl
    unfold BoundNode.ofNode
    simp only [hprimitive, hlinked, hconflict, bind, Except.bind, Option.elim, harity, h, hpure]
    cbv
  have hresolve : (Typing.start (closure t).kinds graph).resolve =
    .ok (.start (closure t).kinds graph) := by cbv
  have hnodes : graph.nodes.mergeSort (fun a b => a.id ≤ b.id) = [flat] := by cbv
  have hgraph : (Typing.start (closure t).kinds graph).graph = graph := rfl
  unfold Typing.bindAll
  rw [hresolve]
  simp only [bind, Except.bind, hgraph, hnodes, BoundNode.ofNodes, hnode, pure, Except.pure]

theorem compileDocument_bound {turn : Bool} {side : Direction} {v w : Value} {types : Table String}
    (h : BoundNode.bindInputs [] [] [] (BoundNode.inputPins (type turn side v w) 1) =
      .ok (types, [])) :
    (request .none).compileDocument (.arr [.str "js"]) (document turn side v w) =
      .ok (unit .none types []) := by
  have hnames : Request.lift (Request.backends (.arr [.str "js"])) = .ok [.str "js"] := by cbv
  have hproject : Document.project (document turn side v w) =
      .ok (project (type turn side v w)) := by
    have hkeys : Document.pinKeys (document turn side v w) = [] := by cbv
    rw [Document.project, checked_document, hkeys]
    rfl
  have hmode : Request.lift (Liveness.ofValue (request .none).mode) = .ok .none := by cbv
  have hclosure : Request.closure (project (type turn side v w)) (request .none).strict
    (request .none).entry = .ok (closure (type turn side v w)) := by cbv
  have hassemble : Request.assemble .none (.obj []) [.str "js"]
      (closure (type turn side v w)).kinds graph = .ok (unit .none types []) := by
    unfold Request.assemble
    rw [bindAll_start rfl h]
    cbv
  exact bind_eq_ok.mpr ⟨_, hnames, bind_eq_ok.mpr ⟨_, hproject, bind_eq_ok.mpr ⟨_, hmode,
    bind_eq_ok.mpr ⟨_, hclosure, bind_eq_ok.mpr ⟨_, flatten_closure _, hassemble⟩⟩⟩⟩⟩

theorem sortedValue_unit {types : Table String} {members : Members}
    (h : Table.sortedMembers .str types = .ok members) :
    (unit .none types []).sortedValue = .ok (value .none members []) := by
  have hone : (unit .none types []).nodesByIdText = [bound types] := by cbv
  have hnode : (bound types).sortedValue [] = .ok (.obj [("id", .int 1),
      ("implId", .str "twofold"), ("inputTypes", .obj members), ("outLinks", .obj []),
      ("props", .obj []), ("pure", .bool false)]) := by
    rw [BoundNode.sortedValue, show (bound types).inputTypes = types from rfl, h]
    cbv
  unfold CompiledUnit.sortedValue
  rw [hone, CompiledUnit.sortedNodeMembers, hnode]
  cbv

/-- Two inputs of which one is "not a number" stay in the order of the document. -/
theorem showsOrder_inputs :
    (request .none).ShowsOrder (.arr [.str "js"]) (document false .input (.float .nan) (.int 1))
      (document true .input (.float .nan) (.int 1)) := by
  have hpins : BoundNode.inputPins (type false .input (.float .nan) (.int 1)) 1 =
    [⟨.float .nan, .input, "any", none, false⟩, ⟨.int 1, .input, "any", none, false⟩] := rfl
  have hpins' : BoundNode.inputPins (type true .input (.float .nan) (.int 1)) 1 =
    [⟨.int 1, .input, "any", none, false⟩, ⟨.float .nan, .input, "any", none, false⟩] := rfl
  have hsame : Label.same (.float .nan) (.int 1) = false := by decide +kernel
  have hsame' : Label.same (.int 1) (.float .nan) = false := by decide +kernel
  have hunit := compileDocument_bound (hpins ▸ bindInputs_pair rfl rfl rfl rfl hsame)
  have hunit' := compileDocument_bound (hpins' ▸ bindInputs_pair rfl rfl rfl rfl hsame')
  have hvalue := sortedValue_unit (sortedMembers_pair (a := .float .nan) (b := .int 1)
    (by decide +kernel) rfl)
  have hvalue' := sortedValue_unit (sortedMembers_pair (a := .int 1) (b := .float .nan)
    (by decide +kernel) rfl)
  refine ⟨document_reordered .input (.float _) (.int 1), admits_document .none ?_,
    admits_document .none ?_, _, _, _, _, hunit, hunit',
    CompiledUnit.json_of_sortedValue hvalue none, CompiledUnit.json_of_sortedValue hvalue' none,
    by decide +kernel⟩
  · rw [NodeType.InputsApart, hpins, List.pairwise_pair]
    exact hsame
  · rw [NodeType.InputsApart, hpins', List.pairwise_pair]
    exact hsame'

end Twofold

/-- Units whose texts show the order of pins: of two outputs with one key, and of two inputs one of
which is keyed by "not a number". -/
theorem Request.compileDocument_reordered_odd :
    (Twofold.request .debug).ShowsOrder (.arr [.str "js"])
      (Twofold.document false .output (.bool true) (.int 1))
      (Twofold.document true .output (.bool true) (.int 1)) ∧
    (Twofold.request .none).ShowsOrder (.arr [.str "js"])
      (Twofold.document false .input (.float .nan) (.int 1))
      (Twofold.document true .input (.float .nan) (.int 1)) :=
  ⟨Twofold.showsOrder_outputs, Twofold.showsOrder_inputs⟩

end Patchbay
