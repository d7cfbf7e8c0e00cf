import Patchbay.Proofs.CompiledUnit
import Patchbay.Proofs.Flat.Binding
import Patchbay.Proofs.Flat.Leaves
import Patchbay.Proofs.Project.Expansion

/-!
# Inputs that links end on

A bound node lists the inputs that its type has at its arity (`exists_inputPins_iff`). A link ends
on what the lookup of its target takes for an input, which does not look at the arity
(`input_of_flatten`). On regular types the two agree about the keys that a node exposes
(`compileDocument_inputs`), and on others they need not (`compileDocument_inputs_odd`).
-/

namespace Patchbay

/-- The node lists an input of this key. -/
def BoundNode.Lists (node : BoundNode) (key : String) : Prop :=
  .text key ∈ node.inputTypes.map Prod.fst

instance (node : BoundNode) (key : String) : Decidable (node.Lists key) :=
  inferInstanceAs (Decidable (_ ∈ _))

/-! ## Listed inputs -/

namespace BoundNode

variable {linked : List String} {types types' : Table String} {values values' : Table Value}
  {entry : NodeType} {arity : Int} {key : String}

theorem text_mem_keys_bindInputs {pins : List Pin}
    (h : bindInputs linked types values pins = .ok (types', values')) :
    .text key ∈ types'.map Prod.fst ↔
      .text key ∈ types.map Prod.fst ∨ ∃ pin ∈ pins, pin.key = .str key := by
  induction pins generalizing types values with
  | nil =>
    obtain ⟨rfl, rfl⟩ := Prod.mk.inj (Except.ok.inj h)
    simp
  | cons pin rest ih =>
    unfold bindInputs at h
    split at h
    · exact absurd h (by simp)
    · next label hlabel =>
      have hkey : label = .text key ↔ pin.key = .str key := by
        rw [← Label.ofValue_eq_text_iff, hlabel, Except.ok.injEq]
      rw [ih h, Table.text_mem_keys_put, hkey, List.exists_mem_cons_iff, or_assoc]
      exact or_left_comm

/-- The inputs of a regular type go by the keys of its inputs. -/
theorem exists_inputPins_iff (hr : entry.Regular arity) :
    (∃ pin ∈ inputPins entry arity, pin.key = .str key) ↔ entry.HasInput arity key := by
  constructor
  · rintro ⟨pin, hpin, hkey⟩
    obtain ⟨declared, hdeclared, hexpand⟩ := List.mem_flatMap.mp hpin
    obtain ⟨base, hmem, hinput⟩ := NodeType.mem_inputs_iff.mp hdeclared
    have hbase := hr.key_eq base declared hmem hinput
    rcases mem_expand_iff.mp hexpand with rfl | ⟨hvariadic, i, hpos, hlt, rfl⟩
    · obtain rfl := Value.str.inj (hbase.symm.trans hkey)
      exact .inl ⟨pin, hmem, hinput⟩
    · rw [hbase] at hkey
      exact .inr ⟨base, declared, i, hmem, hinput, hvariadic, hpos, hlt, (Value.str.inj hkey).symm⟩
  · rintro (⟨pin, hmem, hinput⟩ | ⟨base, pin, i, hmem, hinput, hvariadic, hpos, hlt, rfl⟩)
    · have hpin := NodeType.mem_inputs_iff.mpr ⟨key, hmem, hinput⟩
      exact ⟨pin, List.mem_flatMap.mpr ⟨pin, hpin, mem_expand_iff.mpr (.inl rfl)⟩,
        hr.key_eq key pin hmem hinput⟩
    · have hpin := NodeType.mem_inputs_iff.mpr ⟨base, hmem, hinput⟩
      refine ⟨_, List.mem_flatMap.mpr
        ⟨pin, hpin, mem_expand_iff.mpr (.inr ⟨hvariadic, i, hpos, hlt, rfl⟩)⟩, ?_⟩
      rw [hr.key_eq base pin hmem hinput]
      rfl

variable {p : Primitive} (hplain : p.isTerminal = false) (hentry : p.entry = some entry)
  (hr : entry.Regular arity)

include hplain hentry hr

/-- Of the keys that a node of a regular type exposes, it lists those that the lookup takes for
inputs. -/
theorem text_mem_inputs_iff
    (h : bindInputs linked [] [] (inputPins entry arity) = .ok (types, values)) :
    .text key ∈ types.map Prod.fst ↔ p.direction? key = some .input ∧ entry.Exposes arity key := by
  rw [text_mem_keys_bindInputs h, exists_inputPins_iff hr, ← hr.direction_iff,
    Primitive.direction?_of_entry hplain hentry]
  simp

/-- A node of a regular type is bound with its inputs, unless one of its pins is both linked and
set. -/
theorem ofNode_inputs {t : Typing} {flat : FlatNode} (hp : t.primitive flat.id = .ok p)
    (harity : flat.arity = arity) :
    (∃ key, conflict? flat (linkedPins t.graph flat.id) = some key ∧
      ofNode t flat = .error (.conflict flat.id key flat.debugId)) ∨
    ∃ bound, ofNode t flat = .ok bound ∧ ∀ key, bound.Lists key ↔
      p.direction? key = some .input ∧ entry.Exposes arity key := by
  subst harity
  unfold ofNode
  simp only [hp, bind, Except.bind]
  cases hconflict : conflict? flat (linkedPins t.graph flat.id) with
  | some key => exact .inl ⟨key, rfl, rfl⟩
  | none =>
    have hkeys : ∀ pin ∈ inputPins entry flat.arity, pin.KeyedByText := by
      refine keyedByText_of_inputPins fun pin hpin => ?_
      obtain ⟨key, hmem, hinput⟩ := NodeType.mem_inputs_iff.mp hpin
      exact ⟨key, hr.key_eq key pin hmem hinput⟩
    obtain ⟨types, values, hbind, _⟩ := bindInputs_eq_ok (linkedPins t.graph flat.id) hkeys
      Table.hasTexts_nil Table.hasTexts_nil
    refine .inr ⟨_, by simp only [hplain, hentry, Option.elim, hbind]; rfl, fun key => ?_⟩
    exact text_mem_inputs_iff hplain hentry hr hbind

end BoundNode

/-! ## Ends of links -/

namespace Inlining

variable {closure : Closure} {sites : List Site} {c : Inlining} {flat : FlatNode} {p : Primitive}

/-- A node with the path of a leaf shows it. -/
theorem Unfolds.type_eq_of_leaf (hu : Unfolds closure sites c) (hflat : flat ∈ c.nodes)
    {site : Site} {node : Node} {path : List Int} (hleaf : Leaf sites site node path)
    (hspell : flat.debugId = spell path) : flat.type = node.type := by
  obtain ⟨shown, hshown, hshows⟩ := hu.node_of_leaf site node path hleaf
  have hdebug : flat.debugId = shown.debugId := by
    rw [hspell, hleaf.path_eq, hshows.debugId_eq]
  rw [hu.debugId_inj flat hflat shown hshown hdebug, hshows.type_eq]

/-- An edge ends on an input of its target, if that is of a declared type and no terminal. -/
theorem Complete.input_of_edge (hs : closure.Sound) (h : Complete closure sites c) {edge : Edge}
    (hedge : edge ∈ c.edges) (hflat : flat ∈ c.nodes) (hid : flat.id = edge.target.node)
    (hkind : closure.kinds.kind flat.type = .ok (.primitive p)) (hplain : p.isTerminal = false)
    (hsig : p.hasSignature = true) : p.direction? edge.target.pin.key = some .input := by
  obtain ⟨site, hsite, link, hlink, directed, horient, _, path, hlands, shown, hshown, hshownId,
    hspell⟩ := h.unfolds.link_of_edge edge hedge
  obtain rfl := h.unfolds.sound.eq_of_id_eq hflat hshown (hid.trans hshownId.symm)
  have hp := hs.patch_mem ((h.mem_iff site).mp hsite)
  have hsound := hs.patch_sound _ hp
  rcases hlands with ⟨hpath, hpin, hshut⟩ |
    ⟨inner, hinner, _, d, terminal, _, ⟨node, hn, hnid, q, t, hq, hterminal, _⟩, hpath, _⟩
  · have hend := (mem_ends_of_orient hs hp hlink horient).mp directed.target_mem_ends
    obtain ⟨node, hn, hnid⟩ := hsound.ends_known link hlink _ hend
    rw [← hnid] at hpath
    rw [h.unfolds.type_eq_of_leaf hflat ⟨hsite, hn, hpath, hshut⟩ hspell] at hkind
    rw [hpin]
    exact direction?_of_orient horient hsound hn hnid hkind hsig
  · have hstands := (h.mem_iff inner).mp hinner
    rw [← hnid] at hpath
    have hleaf := (h.leaf_iff hs).mpr ⟨⟨hstands, hn, hpath⟩, q, hq⟩
    rw [h.unfolds.type_eq_of_leaf hflat hleaf hspell] at hkind
    obtain rfl := Kind.primitive.inj (Except.ok.inj (hq.symm.trans hkind))
    exact absurd hplain (by simp [Primitive.isTerminal, hterminal])

end Inlining

/-- A link of a flat graph ends on an input of its target, if that is of a declared type and no
terminal. -/
theorem Closure.Sound.input_of_flatten {closure : Closure} (hs : closure.Sound) {graph : FlatGraph}
    (hf : closure.flatten = .ok graph) {l : FlatLink} (hl : l ∈ graph.links) {flat : FlatNode}
    (hflat : flat ∈ graph.nodes) (hid : flat.id = l.target) {p : Primitive} {entry : NodeType}
    (hp : closure.kinds.primitive flat.type = .ok p) (hplain : p.isTerminal = false)
    (hentry : p.entry = some entry) : p.direction? l.targetPin = some .input := by
  obtain ⟨c, sites, rfl, h⟩ := Inlining.complete_of_flatten hs hf
  obtain ⟨edge, hedge, rfl⟩ := Inlining.mem_graph_links_iff.mp hl
  have hsig : p.hasSignature = true := Inlining.hasSignature_iff.mpr (.inl (by simp [hentry]))
  exact h.input_of_edge hs hedge (Inlining.mem_graph_nodes_iff.mp hflat) hid
    (Kinds.primitive_eq_ok_iff.mp hp) hplain hsig

/-- A link of a unit ends on a node of the unit, and so does one of the flat graph. -/
theorem CompiledUnit.Assembled.exists_target {mode : Liveness} {backends : List Value}
    {kinds : Kinds} {graph : FlatGraph} {unit : CompiledUnit}
    (h : unit.Assembled mode backends kinds graph) (hg : graph.Sound kinds) (hn : graph.ids.Nodup)
    {node : BoundNode} (hnode : node ∈ unit.nodes) {link : OutLink}
    (hlink : link ∈ Liveness.targets node) :
    ∃ l ∈ graph.links, l.target = link.node ∧ l.targetPin = link.key ∧
      ∃ flat ∈ graph.nodes, flat.id = link.node ∧
        ∃ target ∈ unit.nodes, BoundNode.Binds kinds graph flat target := by
  obtain ⟨l, hl, htarget, hkey⟩ := BoundNode.mem_targets_iff.mp hlink
  obtain ⟨hl, _⟩ := (BoundNode.mem_flatLinks_iff (h.outLinks_eq hg hn hnode)).mp hl
  have hid := (h.mem_ids_iff hg hn _).mpr (hg.ends_known l hl).2
  obtain ⟨target, hmem, hid⟩ := List.mem_map.mp hid
  obtain ⟨flat, hflat, hbinds⟩ := (h.binds hg hn).2 target hmem
  rw [hbinds.id_eq, htarget] at hid
  exact ⟨l, hl, htarget, hkey, flat, hflat, hid, target, hmem, hbinds⟩

/-! ## An adder -/

namespace Adder

/-- Two adders, with a link to this key of the first, which has this arity. -/
def document (arity : Int) (key : String) : Value :=
  .obj [
    ("patches", .obj [("@/main", .obj [
      ("nodes", .obj [("1", .obj [("type", .str "core/add"), ("arityLevel", .int arity)]),
        ("2", .obj [("type", .str "core/add")])]),
      ("links", .obj [("1", .obj [("pins", .arr [
        .obj [("nodeId", .int 2), ("pinKey", .str "OUT")],
        .obj [("nodeId", .int 1), ("pinKey", .str key)]])])])])]),
    ("nodeTypes", .obj [("core/add", .obj [("pins", .obj [
      ("ADD", .obj [("direction", .str "input"), ("variadic", .bool true)]),
      ("OUT", .obj [("direction", .str "output")])])])])]

def request : Request := ⟨.str "@/main", .str "none", .obj [], false⟩

def type : NodeType :=
  ⟨"core/add", [("ADD", ⟨.str "ADD", .input, "any", none, true⟩),
    ("OUT", ⟨.str "OUT", .output, "any", none, false⟩)], false, false, []⟩

def main : Patch where
  path := "@/main"
  id := none
  nodes := [⟨1, "core/add", [], 3⟩, ⟨2, "core/add", [], 1⟩]
  links := [⟨"1", ⟨2, .named "OUT"⟩, ⟨1, .named "ADD-$1"⟩⟩]

def project : Project := ⟨"", [main], [type]⟩

def closure : Closure where
  entry := main
  patches := [main]
  kinds := [("core/add", .primitive ⟨"core/add", some type, none⟩)]

/-- The node with three inputs. -/
def wide : FlatNode := ⟨1, "core/add", [], 3, "1"⟩

def graph : FlatGraph where
  nodes := [wide, ⟨2, "core/add", [], 1, "2"⟩]
  links := [⟨2, "OUT", 1, "ADD-$1"⟩]

def unit (inputTypes : Table String) (key : String) : CompiledUnit where
  nodes := [⟨1, "core/add", false, inputTypes, [], []⟩,
    ⟨2, "core/add", false, [(.text "ADD", "any")], [("OUT", [⟨1, key⟩])], []⟩]
  topology := [2, 1]
  templates := []
  debugIds := [(1, "1"), (2, "2")]
  affected := []
  liveness := "none"
  globals := []

/-- The unit where the first adder has three inputs, and the link ends on the second of them. -/
def wideUnit : CompiledUnit :=
  unit [(.text "ADD", "any"), (.text "ADD-$1", "any"), (.text "ADD-$2", "any")] "ADD-$1"

theorem compileDocument_wide :
    request.compileDocument (.arr [.str "js"]) (document 3 "ADD-$1") = .ok wideUnit := by
  cbv

theorem project_document : Document.project (document 3 "ADD-$1") = .ok project := by cbv

theorem closure_project :
    Request.closure project request.strict request.entry = .ok closure := by
  cbv

theorem flatten_closure : closure.flatten = .ok graph := by cbv

theorem eq_of_input {key : String} {pin : Pin} (hmem : (key, pin) ∈ type.pins)
    (hinput : pin.direction = .input) :
    key = "ADD" ∧ pin = ⟨.str "ADD", .input, "any", none, true⟩ := by
  simp only [type, List.mem_cons, Prod.mk.injEq, List.not_mem_nil, or_false] at hmem
  rcases hmem with hadd | ⟨_, rfl⟩
  · exact hadd
  · exact absurd hinput (by decide)

theorem regular_type (arity : Int) : type.Regular arity where
  keys_nodup := by decide
  key_eq key pin hmem hinput := by
    obtain ⟨rfl, rfl⟩ := eq_of_input hmem hinput
    rfl
  legible _ key pin hmem hinput _ := by
    obtain ⟨rfl, rfl⟩ := eq_of_input hmem hinput
    decide
  direction_eq key pin hmem hexpands := by
    obtain ⟨base, other, i, hother, hinput, _, _, _, rfl⟩ := hexpands
    obtain ⟨rfl, rfl⟩ := eq_of_input hother hinput
    simp only [type, List.mem_cons, Prod.mk.injEq, List.not_mem_nil, or_false] at hmem
    rcases hmem with ⟨_, rfl⟩ | ⟨hkey, _⟩
    · rfl
    · exact absurd (congrArg String.toList hkey) (by simp)

theorem expands_iff {arity : Int} {key : String} :
    type.Expands arity key ↔
      ∃ i : Nat, 0 < i ∧ (i : Int) < arity ∧ key = "ADD-$" ++ Text.Numeral.natText i := by
  constructor
  · rintro ⟨base, pin, i, hmem, hinput, _, hpos, hlt, rfl⟩
    obtain ⟨rfl, rfl⟩ := eq_of_input hmem hinput
    exact ⟨i, hpos, hlt, rfl⟩
  · rintro ⟨i, hpos, hlt, rfl⟩
    exact ⟨"ADD", _, i, List.mem_cons_self, rfl, rfl, hpos, hlt, rfl⟩

end Adder

/-- The pins that a link may use and the pins that a node has agree. A node of a regular type is
bound, unless a pin of it is both linked and set, and lists exactly those of the keys that it
exposes which the lookup takes for inputs. In every unit, a link that ends on a node of a declared
type, which is no terminal, ends on a key that the lookup takes for an input; where the type is
regular, the node lists that key exactly if it exposes it. -/
theorem Request.compileDocument_inputs :
    (∀ (t : Typing) (flat : FlatNode) (p : Primitive) (entry : NodeType),
      t.primitive flat.id = .ok p → p.isTerminal = false → p.entry = some entry →
      entry.Regular flat.arity →
      (∃ key, BoundNode.conflict? flat (BoundNode.linkedPins t.graph flat.id) = some key ∧
        BoundNode.ofNode t flat = .error (.conflict flat.id key flat.debugId)) ∨
      ∃ bound, BoundNode.ofNode t flat = .ok bound ∧ ∀ key, bound.Lists key ↔
        p.direction? key = some .input ∧ entry.Exposes flat.arity key) ∧
    ∀ (request : Request) (backends document : Value) (unit : CompiledUnit),
      request.compileDocument backends document = .ok unit →
      ∃ project closure graph, Document.project document = .ok project ∧
        Request.closure project request.strict request.entry = .ok closure ∧
        closure.flatten = .ok graph ∧
        ∀ node ∈ unit.nodes, ∀ link ∈ Liveness.targets node,
          ∃ flat ∈ graph.nodes, flat.id = link.node ∧
            ∃ target ∈ unit.nodes, target.id = link.node ∧ target.type = flat.type ∧
              ∀ entry, project.catalog.type? flat.type = some entry →
                Terminal.ofType? flat.type = none →
                (Project.primitive project.catalog flat.type).direction? link.key = some .input ∧
                (entry.Regular flat.arity →
                  (target.Lists link.key ↔ entry.Exposes flat.arity link.key)) := by
  constructor
  · intro t flat p entry hp hplain hentry hr
    exact BoundNode.ofNode_inputs hplain hentry hr hp rfl
  · intro request backends document unit h
    obtain ⟨project, closure, graph, mode, names, hproject, hclosure, hf, _, hunit⟩ :=
      assembled_of_compileDocument h
    obtain ⟨path, hc⟩ := ofEntry_of_closure hclosure
    have hs := Closure.sound_of_ofEntry hproject hc
    have hg := hs.sound_of_flatten hf
    refine ⟨project, closure, graph, hproject, hclosure, hf, fun node hnode link hlink => ?_⟩
    obtain ⟨l, hl, htarget, hkey, flat, hflat, hid, target, hmem, hbinds⟩ :=
      hunit.exists_target hg (hs.nodup_of_flatten hf) hnode hlink
    refine ⟨flat, hflat, hid, target, hmem, hbinds.id_eq.trans hid, hbinds.type_eq,
      fun entry hentry hterminal => ?_⟩
    obtain ⟨p, hp, _⟩ := hg.primitive flat hflat
    obtain ⟨_, rfl⟩ := Closure.primitive_of_ofEntry hc hp
    have hplain : (Project.primitive project.catalog flat.type).isTerminal = false := by
      simp [Project.primitive, Primitive.isTerminal, hterminal]
    have hinput := hs.input_of_flatten hf hl hflat (hid.trans htarget.symm) hp hplain hentry
    rw [hkey] at hinput
    refine ⟨hinput, fun hr => ?_⟩
    obtain ⟨values, hbind⟩ := hbinds.inputs _ hp hplain
    rw [show (Project.primitive project.catalog flat.type).entry = some entry from hentry] at hbind
    rw [BoundNode.Lists, BoundNode.text_mem_inputs_iff hplain hentry hr hbind]
    exact and_iff_right hinput

theorem Request.compileDocument_inputs_adder :
    (∃ bound, BoundNode.ofNode (.start Adder.closure.kinds Adder.graph) Adder.wide = .ok bound ∧
      bound.Lists "ADD-$2" ∧ ¬ bound.Lists "ADD-$3") ∧
    Adder.request.compileDocument (.arr [.str "js"]) (Adder.document 3 "ADD-$1") =
      .ok Adder.wideUnit ∧
    Adder.type.Regular 3 ∧
    ∃ target ∈ Adder.wideUnit.nodes, target.id = 1 ∧ target.Lists "ADD-$1" := by
  have hr := Adder.regular_type 3
  constructor
  · rcases compileDocument_inputs.1 (.start Adder.closure.kinds Adder.graph) Adder.wide
        ⟨"core/add", some Adder.type, none⟩ Adder.type (by cbv) rfl rfl hr with
      ⟨key, hkey, _⟩ | ⟨bound, hbound, hlists⟩
    · have hnone : BoundNode.conflict? Adder.wide
          (BoundNode.linkedPins Adder.graph Adder.wide.id) = none := by cbv
      exact absurd (hnone.symm.trans hkey) (by simp)
    refine ⟨bound, hbound, (hlists "ADD-$2").mpr ⟨by cbv, .inr ?_⟩, fun hlisted => ?_⟩
    · exact Adder.expands_iff.mpr ⟨2, by decide, by decide, by cbv⟩
    · obtain ⟨_, hdeclared | hexpands⟩ := (hlists "ADD-$3").mp hlisted
      · exact absurd hdeclared (by decide)
      · obtain ⟨i, hpos, hlt, hkey⟩ := Adder.expands_iff.mp hexpands
        have hone : "ADD-$" ++ Text.Numeral.natText 1 = "ADD-$1" := by cbv
        have htwo : "ADD-$" ++ Text.Numeral.natText 2 = "ADD-$2" := by cbv
        obtain rfl | rfl : i = 1 ∨ i = 2 := by
          have : (i : Int) < 3 := hlt
          omega
        · exact absurd (hkey.trans hone) (by decide)
        · exact absurd (hkey.trans htwo) (by decide)
  · refine ⟨Adder.compileDocument_wide, hr, ?_⟩
    obtain ⟨project, closure, graph, hp, hc, hf, hlinks⟩ :=
      compileDocument_inputs.2 _ _ _ _ Adder.compileDocument_wide
    obtain rfl := Except.ok.inj (Adder.project_document.symm.trans hp)
    obtain rfl := Except.ok.inj (Adder.closure_project.symm.trans hc)
    obtain rfl := Except.ok.inj (Adder.flatten_closure.symm.trans hf)
    obtain ⟨flat, hflat, hid, target, hmem, htarget, _, hends⟩ :=
      hlinks _ (List.mem_cons_of_mem _ List.mem_cons_self) ⟨1, "ADD-$1"⟩ (by decide)
    obtain rfl : flat = Adder.wide := by
      simp only [Adder.graph, List.mem_cons, List.not_mem_nil, or_false] at hflat
      rcases hflat with rfl | rfl
      · rfl
      · exact absurd hid (by decide)
    refine ⟨target, hmem, htarget, ((hends Adder.type (by cbv) (by cbv)).2 hr).mpr (.inr ?_)⟩
    exact Adder.expands_iff.mpr ⟨1, by decide, by decide, by cbv⟩

/-! ## Types that are not regular -/

namespace Odd

/-- One node of this arity, of a type with these pins. -/
def document (arity : Int) (pins : Members) : Value :=
  .obj [
    ("patches", .obj [("@/main", .obj [("nodes", .obj [
      ("1", .obj [("type", .str "odd"), ("arityLevel", .int arity)])])])]),
    ("nodeTypes", .obj [("odd", .obj [("pins", .obj pins)])])]

/-- Where the document compiles: the direction that the lookup tells of a key, and whether the node
lists it. -/
def told (arity : Int) (pins : Members) (key : String) : Option (Option Direction × Bool) :=
  match Document.project (document arity pins),
      Adder.request.compileDocument (.arr [.str "js"]) (document arity pins) with
  | .ok project, .ok unit =>
    some ((Project.primitive project.catalog "odd").direction? key,
      unit.nodes.all fun node => decide (node.Lists key))
  | _, _ => none

def renamedInput : Value := .obj [("direction", .str "input"), ("key", .str "Y")]

def variadicInput : Value := .obj [("direction", .str "input"), ("variadic", .bool true)]

def output : Value := .obj [("direction", .str "output")]

end Odd

/-- A unit with a link to an expansion that its target does not have. Of a type that is not regular,
what the lookup takes for an input and what a node lists are not the same: where an input has
another key, where an output is declared under an expansion, and where an expansion is not read
back. -/
theorem Request.compileDocument_inputs_odd :
    (∃ unit,
      Adder.request.compileDocument (.arr [.str "js"]) (Adder.document 1 "ADD-$4") = .ok unit ∧
      (∃ node ∈ unit.nodes, ⟨1, "ADD-$4"⟩ ∈ Liveness.targets node) ∧
      (Project.primitive [Adder.type] "core/add").direction? "ADD-$4" = some .input ∧
      ¬ ∃ node ∈ unit.nodes, node.id = 1 ∧ node.Lists "ADD-$4") ∧
    Odd.told 1 [("X", Odd.renamedInput)] "X" = some (some .input, false) ∧
    Odd.told 2 [("ADD", Odd.variadicInput), ("ADD-$1", Odd.output)] "ADD-$1" =
      some (some .output, true) ∧
    Odd.told 2 [("", Odd.variadicInput)] "-$1" = some (none, true) ∧
    Odd.told 2 [("A\nB", Odd.variadicInput)] "A\nB-$1" = some (none, true) := by
  refine ⟨⟨Adder.unit [(.text "ADD", "any")] "ADD-$4", by cbv, by decide, by cbv, by decide⟩,
    by cbv, by cbv, by cbv, by cbv⟩

end Patchbay
