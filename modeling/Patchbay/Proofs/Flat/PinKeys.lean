import Patchbay.Proofs.Flat.Refusal
import Patchbay.Proofs.Flat.Wiring
import Patchbay.Proofs.Project.Expansion

/-!
# Links to declared pins

A boundary reference is written from its number, so reading a pin key and writing it again is the
identity on canonical keys, and on no others (`PinRef.key_parse_eq_iff`). A declared pin with a
canonical key can be linked under its name, and the flat links carry that name; any other pin is
looked for under the name of the reference (`flatten_declared_pin`).
-/

namespace Patchbay

theorem Text.dropFinalFeed_digits (n : Nat) :
    dropFinalFeed (Numeral.digits n) = Numeral.digits n :=
  dropFinalFeed_of_not_mem fun hmem => absurd (Numeral.mem_digits hmem) (by decide)

namespace PinRef

variable {key : String} {d : Direction}

/-- The key has the form of a boundary reference of a direction, with this behind the low line. -/
def Spells (key : String) (d : Direction) (rest : List Char) : Prop :=
  key.toList = d.name.toList ++ '_' :: rest ∧
    Text.Numeral.isNumeral (Text.dropFinalFeed rest) = true

/-- A key that has the form of a boundary reference is the text of one: its number is in ASCII
digits without leading zeros, and nothing follows it. -/
def Canonical (key : String) : Prop :=
  ∀ d rest, Spells key d rest → ∃ n, rest = Text.Numeral.digits n

theorem Spells.unique {d' : Direction} {rest rest' : List Char} (h : Spells key d rest)
    (h' : Spells key d' rest') : d = d' ∧ rest = rest' := by
  have heq := h.1.symm.trans h'.1
  cases d with
  | input =>
    cases d' with
    | input => exact ⟨rfl, by simpa [Direction.name] using heq⟩
    | output => exact absurd heq (by simp [Direction.name])
  | output =>
    cases d' with
    | input => exact absurd heq (by simp [Direction.name])
    | output => exact ⟨rfl, by simpa [Direction.name] using heq⟩

theorem after?_eq_some_iff {front cs rest : List Char} :
    after? front cs = some rest ↔ cs = front ++ rest := by
  unfold after?
  constructor
  · intro h
    split at h
    · next hfront =>
      obtain ⟨tail, rfl⟩ := List.isPrefixOf_iff_prefix.mp hfront
      obtain rfl := Option.some.inj h
      rw [List.drop_left]
    · exact absurd h (by simp)
  · rintro rfl
    rw [if_pos (List.isPrefixOf_iff_prefix.mpr (List.prefix_append _ _)), List.drop_left]

theorem digits?_eq_some_iff {ds : List Char} :
    digits? d key.toList = some ds ↔ ∃ rest, Spells key d rest ∧ ds = Text.dropFinalFeed rest := by
  unfold digits? Spells
  cases h : after? (d.name.toList ++ ['_']) key.toList with
  | none =>
    refine ⟨fun hsome => absurd hsome (by simp), ?_⟩
    rintro ⟨rest, ⟨hkey, _⟩, _⟩
    rw [after?_eq_some_iff.mpr (by simpa using hkey)] at h
    exact absurd h (by simp)
  | some rest =>
    have hkey := after?_eq_some_iff.mp h
    rw [List.append_assoc, List.singleton_append] at hkey
    have hrest : ∀ other, key.toList = d.name.toList ++ '_' :: other → other = rest := by
      intro other hother
      simpa using hother.symm.trans hkey
    by_cases hnumeral : Text.Numeral.isNumeral (Text.dropFinalFeed rest) = true
    · simp only [if_pos hnumeral, Option.some.injEq]
      constructor
      · rintro rfl
        exact ⟨rest, ⟨hkey, hnumeral⟩, rfl⟩
      · rintro ⟨other, ⟨hother, _⟩, rfl⟩
        rw [hrest other hother]
    · simp only [if_neg hnumeral]
      refine ⟨fun hsome => absurd hsome (by simp), ?_⟩
      rintro ⟨other, ⟨hother, hother'⟩, _⟩
      exact absurd (hrest other hother ▸ hother') hnumeral

theorem terminal?_eq_some_iff {terminal : Nat} :
    terminal? d key.toList = some terminal ↔
      ∃ rest, Spells key d rest ∧ terminal = Text.Numeral.value (Text.dropFinalFeed rest) := by
  unfold terminal?
  rw [Option.map_eq_some_iff]
  constructor
  · rintro ⟨ds, hds, rfl⟩
    obtain ⟨rest, hspells, rfl⟩ := digits?_eq_some_iff.mp hds
    exact ⟨rest, hspells, rfl⟩
  · rintro ⟨rest, hspells, rfl⟩
    exact ⟨_, digits?_eq_some_iff.mpr ⟨rest, hspells, rfl⟩, rfl⟩

/-- A key is read as the boundary reference whose form it has, and as a name if it has none. -/
theorem parse_cases (key : String) :
    (∃ d rest, Spells key d rest ∧
      parse key = .boundary d (Text.Numeral.value (Text.dropFinalFeed rest))) ∨
    (∀ d rest, ¬ Spells key d rest) ∧ parse key = .named key := by
  have hnone : ∀ d, terminal? d key.toList = none → ∀ rest, ¬ Spells key d rest := by
    intro d h rest hspells
    rw [terminal?_eq_some_iff.mpr ⟨rest, hspells, rfl⟩] at h
    exact absurd h (by simp)
  unfold parse
  cases hinput : terminal? .input key.toList with
  | some terminal =>
    obtain ⟨rest, hspells, rfl⟩ := terminal?_eq_some_iff.mp hinput
    exact .inl ⟨.input, rest, hspells, rfl⟩
  | none =>
    cases houtput : terminal? .output key.toList with
    | some terminal =>
      obtain ⟨rest, hspells, rfl⟩ := terminal?_eq_some_iff.mp houtput
      exact .inl ⟨.output, rest, hspells, rfl⟩
    | none =>
      refine .inr ⟨fun d => ?_, rfl⟩
      cases d with
      | input => exact hnone _ hinput
      | output => exact hnone _ houtput

/-- Reading a key and writing it again is the identity on canonical keys, and on no others. -/
theorem key_parse_eq_iff : (parse key).key = key ↔ Canonical key := by
  rcases parse_cases key with ⟨d, rest, hspells, hparse⟩ | ⟨hnone, hparse⟩
  · have hkey : (parse key).key.toList = d.name.toList ++ '_' ::
        Text.Numeral.digits (Text.Numeral.value (Text.dropFinalFeed rest)) := by
      simp [hparse, PinRef.key, Text.Numeral.natText]
    rw [← String.toList_inj, hkey, hspells.1]
    constructor
    · intro h d' rest' hspells'
      obtain ⟨rfl, rfl⟩ := hspells.unique hspells'
      exact ⟨_, (List.cons.inj (List.append_cancel_left h)).2.symm⟩
    · intro h
      obtain ⟨n, rfl⟩ := h d rest hspells
      rw [Text.dropFinalFeed_digits, Text.Numeral.value_digits]
  · rw [hparse]
    exact ⟨fun _ d rest h => absurd h (hnone d rest), fun _ => rfl⟩

end PinRef

namespace Document

/-- The end that a document gives addresses what its pin key is read as. -/
theorem pin_of_linkEnd {place : Place} {known : List Node} {item : Value} {key : String}
    {e : LinkEnd} (h : linkEnd place known item = .ok e)
    (hkey : item.member? "pinKey" = some (.str key)) : e.pin = PinRef.parse key := by
  unfold linkEnd at h
  obtain ⟨fields, hfields, h⟩ := bind_eq_ok.mp h
  obtain ⟨id, _, h⟩ := bind_eq_ok.mp h
  obtain ⟨value, hvalue, h⟩ := bind_eq_ok.mp h
  obtain ⟨_, _, h⟩ := bind_eq_ok.mp h
  obtain ⟨text, htext, h⟩ := bind_eq_ok.mp h
  obtain ⟨number, _, h⟩ := bind_eq_ok.mp h
  cases item with
  | obj members =>
    obtain rfl := Except.ok.inj hfields
    rw [Value.member?] at hkey
    rw [hkey] at hvalue
    obtain rfl := Except.ok.inj hvalue
    obtain rfl := Except.ok.inj htext
    split at h
    · obtain rfl := Except.ok.inj h
      rfl
    · exact absurd h (by simp)
  | _ => exact absurd hkey (by simp [Value.member?])

end Document

namespace Inlining

variable {closure : Closure} {patch : Patch} {link : Link} {e : LinkEnd} {edge : Edge}

/-- A directed link leaves its outputs and enters its inputs. -/
theorem end_of_orient {kinds : Kinds} (horient : orient kinds patch link = .ok edge)
    (he : e ∈ link.ends) {type : String} (htype : typeIn patch e.node = .ok type) {d : Direction}
    (hd : direction kinds link.id type e = .ok (some d)) :
    (d = .output → edge.source = e) ∧ (d = .input → edge.target = e) := by
  obtain ⟨type₁, htype₁, h⟩ := bind_eq_ok.mp horient
  obtain ⟨first, hfirst, h⟩ := bind_eq_ok.mp h
  obtain ⟨type₂, htype₂, h⟩ := bind_eq_ok.mp h
  obtain ⟨second, hsecond, h⟩ := bind_eq_ok.mp h
  rcases List.mem_cons.mp he with rfl | he
  · obtain rfl := Except.ok.inj (htype.symm.trans htype₁)
    obtain rfl := Except.ok.inj (hd.symm.trans hfirst)
    match d, second with
    | .input, some .input => exact absurd h (by simp)
    | .output, some .output => exact absurd h (by simp)
    | .input, some .output => obtain rfl := Except.ok.inj h; simp
    | .input, none => obtain rfl := Except.ok.inj h; simp
    | .output, some .input => obtain rfl := Except.ok.inj h; simp
    | .output, none => obtain rfl := Except.ok.inj h; simp
  · obtain rfl := List.mem_singleton.mp he
    obtain rfl := Except.ok.inj (htype.symm.trans htype₂)
    obtain rfl := Except.ok.inj (hd.symm.trans hsecond)
    match first, d with
    | some .input, .input => exact absurd h (by simp)
    | some .output, .output => exact absurd h (by simp)
    | some .output, .input => obtain rfl := Except.ok.inj h; simp
    | none, .input => obtain rfl := Except.ok.inj h; simp
    | some .input, .output => obtain rfl := Except.ok.inj h; simp
    | none, .output => obtain rfl := Except.ok.inj h; simp

end Inlining

/-- The flat link joins the two nodes of the wire, at the pins of the wire. -/
structure FlatGraph.Carries (graph : FlatGraph) (l : FlatLink) (wire : Wire) : Prop where
  source : ∃ node ∈ graph.nodes, node.id = l.source ∧ node.debugId = spell wire.source
  sourcePin_eq : l.sourcePin = wire.sourcePin
  target : ∃ node ∈ graph.nodes, node.id = l.target ∧ node.debugId = spell wire.target
  targetPin_eq : l.targetPin = wire.targetPin

namespace Closure

variable {closure : Closure} {site : Site} {link : Link} {e : LinkEnd} {node : Node} {p : Primitive}

/-- An end on a primitive node lies on that node, under the key that is written there. -/
theorem EndsAt.of_primitive (hs : closure.Sound) (hstands : closure.Stands site)
    (hn : node ∈ site.patch.nodes) (hid : node.id = e.node)
    (hkind : closure.kinds.kind node.type = .ok (.primitive p)) {path : List Int} {key : String}
    (h : closure.EndsAt site e path key) : path = site.path ++ [node.id] ∧ key = e.pin.key :=
  h.unique hs hstands ⟨node, hn, hid, .inl ⟨⟨p, hkind⟩, rfl, rfl⟩⟩

/-- The wire of a link leaves a primitive node from its outputs and enters it at its inputs, under
the key that is written there. -/
theorem WiredBy.of_direction (hs : closure.Sound) (hstands : closure.Stands site)
    (he : e ∈ link.ends) (hn : node ∈ site.patch.nodes) (hid : node.id = e.node)
    (hkind : closure.kinds.kind node.type = .ok (.primitive p)) {d : Direction}
    (hd : Inlining.direction closure.kinds link.id node.type e = .ok (some d)) {wire : Wire}
    (h : closure.WiredBy site link wire) :
    (d = .output → wire.source = site.path ++ [node.id] ∧ wire.sourcePin = e.pin.key) ∧
    (d = .input → wire.target = site.path ++ [node.id] ∧ wire.targetPin = e.pin.key) := by
  obtain ⟨directed, horient, hsource, htarget⟩ := h
  have htype := Inlining.typeIn_eq_ok (hs.patch_sound _ (hs.patch_mem hstands)) hn hid
  obtain ⟨hout, hin⟩ := Inlining.end_of_orient horient he htype hd
  constructor
  · intro houtput
    rw [hout houtput] at hsource
    exact hsource.of_primitive hs hstands hn hid hkind
  · intro hinput
    rw [hin hinput] at htarget
    exact htarget.of_primitive hs hstands hn hid hkind

/-- Each link of a site has a flat link that carries its wire. -/
theorem exists_carries (hs : closure.Sound) {graph : FlatGraph} (hf : closure.flatten = .ok graph)
    (hstands : closure.Stands site) (hlink : link ∈ site.patch.links) :
    ∃ l ∈ graph.links, ∃ wire, closure.WiredBy site link wire ∧ graph.Carries l wire := by
  obtain ⟨c, sites, rfl, h⟩ := Inlining.complete_of_flatten hs hf
  have hsite := (h.mem_iff site).mpr hstands
  obtain ⟨edge, hedge, hcarries⟩ := h.unfolds.edge_of_link site hsite link hlink
  obtain ⟨source, target, hwired, ⟨f, hflat, hfid, hfdebug⟩, g, hg, hgid, hgdebug⟩ :=
    h.wiredBy_of_carries hs hsite hlink hcarries
  exact ⟨edge.flat, Inlining.mem_graph_links_iff.mpr ⟨edge, hedge, rfl⟩, _, hwired,
    ⟨⟨f, Inlining.mem_graph_nodes_iff.mpr hflat, hfid, hfdebug⟩, rfl,
      ⟨g, Inlining.mem_graph_nodes_iff.mpr hg, hgid, hgdebug⟩, rfl⟩⟩

/-- The kind of a node of a closure whose type is no patch. -/
theorem kind_of_not_isPatch {project : Project} {entryPath : String} {strict : Bool}
    (hc : ofEntry project entryPath strict = .ok closure) {patch : Patch}
    (hp : patch ∈ closure.patches) (hn : node ∈ patch.nodes)
    (hprimitive : project.isPatch node.type = false) :
    closure.kinds.kind node.type =
      .ok (.primitive (Project.primitive project.catalog node.type)) := by
  obtain ⟨order, hw⟩ := walked_of_ofEntry hc
  refine hw.kind_eq_ok_iff.mpr ⟨⟨patch, hp, node, hn, rfl⟩, ?_⟩
  rw [Project.kindOf, hprimitive]
  rfl

/-- On a primitive node of a type with a declaration, an end is on the pin of the key that is
written there, or is refused. -/
theorem direction_of_primitive (link : Link) (e : LinkEnd) {t : NodeType}
    (hkind : closure.kinds.kind node.type = .ok (.primitive p)) (hentry : p.entry = some t) :
    Inlining.direction closure.kinds link.id node.type e =
      match p.pin? e.pin.key with
      | some pin => .ok (some pin.direction)
      | none => .error (.noPin link.id e p.type) := by
  have hsig : p.hasSignature = true := by simp [Primitive.hasSignature, hentry]
  unfold Inlining.direction Primitive.direction?
  cases hpin : p.pin? e.pin.key with
  | some pin => simp only [hkind, hpin, Option.map_some]
  | none => simp only [hkind, hpin, Option.map_none, if_pos hsig]

end Closure

/-! ## A pin whose key looks like a boundary reference -/

namespace Probe

/-- A source that is linked to the one pin of a probe, which is declared under this key. -/
def document (key : String) : Value :=
  .obj [
    ("patches", .obj [("@/main", .obj [
      ("nodes", .obj [("1", Lamp.nodeOf "source" []), ("2", Lamp.nodeOf "probe" [])]),
      ("links", .obj [("1", Lamp.linkOf 1 "out" 2 key)])])]),
    ("nodeTypes", .obj [
      ("source", .obj [("pins", .obj [("out", .obj [("direction", .str "output")])])]),
      ("probe", .obj [("pins", .obj [(key, .obj [("direction", .str "input")])])])])]

/-- The end of the link that lies on the probe, as the document gives it. -/
def endItem (key : String) : Value := .obj [("nodeId", .int 2), ("pinKey", .str key)]

def pinOf (key : String) (direction : Direction) : Pin := ⟨.str key, direction, "any", none, false⟩

def source : NodeType := ⟨"source", [("out", pinOf "out" .output)], false, false, []⟩

def probe (key : String) : NodeType := ⟨"probe", [(key, pinOf key .input)], false, false, []⟩

def main (pin : PinRef) : Patch where
  path := "@/main"
  id := none
  nodes := [⟨1, "source", [], 1⟩, ⟨2, "probe", [], 1⟩]
  links := [⟨"1", ⟨1, .named "out"⟩, ⟨2, pin⟩⟩]

def project (key : String) (pin : PinRef) : Project := ⟨"", [main pin], [source, probe key]⟩

def closure (key : String) (pin : PinRef) : Closure where
  entry := main pin
  patches := [main pin]
  kinds := [("source", .primitive ⟨"source", some source, none⟩),
    ("probe", .primitive ⟨"probe", some (probe key), none⟩)]

theorem ofEntry_project (key : String) (pin : PinRef) :
    Closure.ofEntry (project key pin) "@/main" false = .ok (closure key pin) := by
  cbv

end Probe

/-- A declared pin can be linked under its name if its key is canonical, that is if it is written
again as it is read: then the end is on the pin that is declared under the key, and the flat link is
on the node under the key, at the end that the direction of the pin says. Under another key the end
is on the pin that is declared under the key of the reference, and the link is refused if there is
none. -/
theorem flatten_declared_pin {document : Value} {project : Project} {entryPath : String}
    {strict : Bool} {closure : Closure} (hp : Document.project document = .ok project)
    (hc : Closure.ofEntry project entryPath strict = .ok closure)
    {node : Node} (hn : node ∈ closure.entry.nodes) (hpatch : project.isPatch node.type = false)
    {t : NodeType} (ht : project.catalog.type? node.type = some t) {key : String} {pin : Pin}
    (hpin : t.pins.lookup key = some pin) {link : Link} (hlink : link ∈ closure.entry.links)
    {e : LinkEnd} (he : e ∈ link.ends) (hid : node.id = e.node) {place : Place} {known : List Node}
    {item : Value} (hread : Document.linkEnd place known item = .ok e)
    (hkey : item.member? "pinKey" = some (.str key)) :
    (e.pin.key = key ↔ PinRef.Canonical key) ∧
    (PinRef.Canonical key →
      (Project.primitive project.catalog node.type).pin? e.pin.key = some pin ∧
      Inlining.direction closure.kinds link.id node.type e = .ok (some pin.direction) ∧
      ∀ graph, closure.flatten = .ok graph →
        ∃ l ∈ graph.links, ∃ wire, closure.WiredBy (Inlining.entrySite closure) link wire ∧
          graph.Carries l wire ∧
          (pin.direction = .output → wire.source = [node.id] ∧ l.sourcePin = key) ∧
          (pin.direction = .input → wire.target = [node.id] ∧ l.targetPin = key)) ∧
    (¬ PinRef.Canonical key →
      (Project.primitive project.catalog node.type).pin? e.pin.key = none →
      Inlining.direction closure.kinds link.id node.type e =
        .error (.noPin link.id e node.type) ∧
      ∃ failure, closure.flatten = .error failure) := by
  have hs := Closure.sound_of_ofEntry hp hc
  have hstands : closure.Stands (Inlining.entrySite closure) := .entry
  have hkind := Closure.kind_of_not_isPatch hc hs.entry_mem hn hpatch
  have hdirection := Closure.direction_of_primitive link e hkind ht
  have hiff : e.pin.key = key ↔ PinRef.Canonical key := by
    rw [Document.pin_of_linkEnd hread hkey]
    exact PinRef.key_parse_eq_iff
  refine ⟨hiff, fun hcanonical => ?_, fun hcanonical hnone => ?_⟩
  · have hfound : (Project.primitive project.catalog node.type).pin? e.pin.key = some pin := by
      rw [hiff.mpr hcanonical]
      simp [Primitive.pin?, Project.primitive, ht, NodeType.pin?, hpin]
    rw [hfound] at hdirection
    refine ⟨hfound, hdirection, fun graph hf => ?_⟩
    obtain ⟨l, hl, wire, hwired, hcarries⟩ := Closure.exists_carries hs hf hstands hlink
    obtain ⟨hout, hin⟩ := hwired.of_direction hs hstands he hn hid hkind hdirection
    rw [hiff.mpr hcanonical] at hout hin
    refine ⟨l, hl, wire, hwired, hcarries, fun h => ?_, fun h => ?_⟩
    · exact ⟨(hout h).1, hcarries.sourcePin_eq.trans (hout h).2⟩
    · exact ⟨(hin h).1, hcarries.targetPin_eq.trans (hin h).2⟩
  · rw [hnone] at hdirection
    refine ⟨hdirection, ?_⟩
    have hmisplaced : closure.Misplaced closure.entry e :=
      (Inlining.misplaced_iff hs hs.entry_mem hn hid).mpr
        (.inr ⟨_, hkind, .inl (by simp [Project.primitive, ht]), hnone⟩)
    cases hf : closure.flatten with
    | error failure => exact ⟨failure, rfl⟩
    | ok graph =>
      have hgood := (Inlining.flatten_eq_ok_iff hs).mp ⟨graph, hf⟩ _ hs.entry_mem
      exact absurd (.inl ⟨link, hlink, .inl ⟨e, he, hmisplaced⟩⟩) hgood.1

theorem flatten_declared_pin_probe :
    Document.project (Probe.document "input_7") =
      .ok (Probe.project "input_7" (.boundary .input 7)) ∧
    PinRef.Canonical "input_7" ∧
    ∃ graph, (Probe.closure "input_7" (.boundary .input 7)).flatten = .ok graph ∧
      ∃ l ∈ graph.links, l.targetPin = "input_7" := by
  have hp : Document.project (Probe.document "input_7") =
      .ok (Probe.project "input_7" (.boundary .input 7)) := by cbv
  have hc := Probe.ofEntry_project "input_7" (.boundary .input 7)
  have hn : ⟨2, "probe", [], 1⟩ ∈ (Probe.closure "input_7" (.boundary .input 7)).entry.nodes := by
    simp [Probe.closure, Probe.main]
  have hpin : (Probe.probe "input_7").pins.lookup "input_7" = some (Probe.pinOf "input_7" .input) :=
    rfl
  have hlink : ⟨"1", ⟨1, .named "out"⟩, ⟨2, .boundary .input 7⟩⟩ ∈
      (Probe.closure "input_7" (.boundary .input 7)).entry.links := List.mem_cons_self
  have hread : Document.linkEnd [] (Probe.main (.boundary .input 7)).nodes
      (Probe.endItem "input_7") = .ok ⟨2, .boundary .input 7⟩ := by cbv
  obtain ⟨hiff, hfound, _⟩ := flatten_declared_pin hp hc hn (by decide) (by cbv) hpin hlink
    (Link.second_mem_ends _) rfl hread rfl
  have hcanonical := hiff.mp (by cbv)
  obtain ⟨graph, hf⟩ : ∃ graph,
      (Probe.closure "input_7" (.boundary .input 7)).flatten = .ok graph := ⟨_, by cbv⟩
  obtain ⟨l, hl, _, _, _, _, hin⟩ := (hfound hcanonical).2.2 graph hf
  exact ⟨hp, hcanonical, graph, hf, l, hl, (hin rfl).2⟩

/-- A declared pin that cannot be linked: its key is read as the reference `input_7`, which is
looked for in vain. -/
theorem flatten_refuses_padded_pin :
    Document.project (Probe.document "input_007") =
      .ok (Probe.project "input_007" (.boundary .input 7)) ∧
    Closure.ofEntry (Probe.project "input_007" (.boundary .input 7)) "@/main" false =
      .ok (Probe.closure "input_007" (.boundary .input 7)) ∧
    (Probe.probe "input_007").pins.lookup "input_007" = some (Probe.pinOf "input_007" .input) ∧
    Document.linkEnd [] (Probe.main (.boundary .input 7)).nodes (Probe.endItem "input_007") =
      .ok ⟨2, .boundary .input 7⟩ ∧
    (PinRef.boundary .input 7).key ≠ "input_007" ∧
    (Probe.closure "input_007" (.boundary .input 7)).flatten =
      .error (.noPin "1" ⟨2, .boundary .input 7⟩ "probe") :=
  ⟨by cbv, Probe.ofEntry_project _ _, rfl, by cbv, by decide +kernel, by cbv⟩

end Patchbay
