import Patchbay.Proofs.Compilation
import Patchbay.Proofs.CompiledUnit
import Patchbay.Proofs.Flat.Record
import Patchbay.Proofs.Json.Printing
import Patchbay.Proofs.Program.Lines

/-!
# Reading a program back

The text of a JavaScript program determines the graph that it was made of
(`compileDocument_determined`). It is read from its end: the exports say how many nodes there are,
and each of so many lines before them holds a node. What stands above does not matter, so that no
name, implementation text or constant can be taken for a part of the graph.

Only one thing is not told: two halves of a surrogate pair that stand one after the other on their
own are written as the character they would make together (`compileDocument_determined_halves`).
-/

namespace Patchbay

namespace Program

open Backend

/-! ## Reading the parts -/

section

variable {numbers : Set Binary64} {v v' : Value}

theorem feed_not_mem_statement {start : String} (hstart : '\n' ∉ start.toList) (v : Value) :
    '\n' ∉ (start ++ Json.render none v ++ ";").toList := by
  have hwrite : '\n' ∉ (Json.render none v).toList := by
    rw [Json.render, Json.renderIn, String.toList_ofList]
    exact Json.feed_not_mem_write v 0
  simp [hstart, hwrite]

theorem statement_inj (hnumbers : Set.InjOn Json.numberLayout.text numbers)
    (hv : Json.Clear numbers v) (hv' : Json.Clear numbers v') {start : String}
    (h : start ++ Json.render none v ++ ";" = start ++ Json.render none v' ++ ";") : v = v' := by
  have hclose : Json.Closes [';'] := ⟨';', [], rfl, by decide⟩
  have hchars := congrArg String.toList h
  simp only [String.append_assoc, String.toList_append, List.append_cancel_left_eq, Json.render,
    Json.renderIn, String.toList_ofList] at hchars
  exact (Json.write_injective hnumbers hv hv' hclose hclose hchars).1

theorem clear_ints (ids : List Int) : Json.Clear numbers (.arr (ids.map .int)) := by
  refine Json.clearItems_iff.mpr fun v hv => ?_
  obtain ⟨id, _, rfl⟩ := List.mem_map.mp hv
  trivial

theorem toNat_lt_of_mem_intText {n : Int} {c : Char} (h : c ∈ (Text.Numeral.intText n).toList) :
    c.toNat < 0xD800 := by
  rcases Text.Numeral.mem_intText h with rfl | h
  · decide
  · rw [Text.Numeral.isAsciiDigit, Bool.and_eq_true, decide_eq_true_eq, decide_eq_true_eq] at h
    have hle : c.toNat ≤ '9'.toNat := h.2
    exact Nat.lt_of_le_of_lt hle (by decide)

theorem toNat_lt_of_mem_spell {path : List Int} {c : Char} (h : c ∈ (spell path).toList) :
    c.toNat < 0xD800 := by
  induction path with
  | nil => exact absurd h List.not_mem_nil
  | cons n path ih =>
    cases path with
    | nil =>
      rw [spell_singleton] at h
      exact toNat_lt_of_mem_intText h
    | cons m path =>
      rw [toList_spell_cons_cons] at h
      rcases List.mem_append.mp h with h | h
      · exact toNat_lt_of_mem_intText h
      rcases List.mem_cons.mp h with rfl | h
      · decide
      · exact ih h

/-- Debug ids that spell paths can be read back. -/
theorem clear_debugIds {debugIds : List (Int × String)}
    (h : ∀ entry ∈ debugIds, ∃ path, entry.2 = spell path) :
    Json.Clear numbers (.obj (Members.sorted (CompiledUnit.idMembers .str debugIds))) := by
  refine Json.clearMembers_iff.mpr fun member hmember => ?_
  obtain ⟨entry, hentry, rfl⟩ := List.mem_map.mp ((List.mergeSort_perm _ _).mem_iff.mp hmember)
  obtain ⟨path, hpath⟩ := h entry hentry
  refine ⟨Json.halvesApart_of_low fun c hc => toNat_lt_of_mem_intText hc, ?_⟩
  show Json.HalvesApart (Text.codes entry.2.toList)
  rw [hpath]
  exact Json.halvesApart_of_low fun c hc => toNat_lt_of_mem_spell hc

theorem feed_not_mem_exports (unit : CompiledUnit) : ∀ line ∈ exports unit, '\n' ∉ line.toList := by
  intro line hline
  simp only [exports, List.mem_cons, List.not_mem_nil, or_false] at hline
  rcases hline with rfl | rfl | rfl | rfl | rfl
  · simp
  · exact feed_not_mem_statement (by decide) _
  · exact feed_not_mem_statement (by decide) _
  · simp
  · decide

/-- The exports tell the order of the nodes and their debug ids. -/
theorem exports_inj (hnumbers : Set.InjOn Json.numberLayout.text numbers)
    {unit other : CompiledUnit} (hunit : ∀ entry ∈ unit.debugIds, ∃ path, entry.2 = spell path)
    (hother : ∀ entry ∈ other.debugIds, ∃ path, entry.2 = spell path)
    (h : exports unit = exports other) :
    unit.topology = other.topology ∧ unit.debugIds.Perm other.debugIds := by
  simp only [exports, List.cons.injEq, and_true, true_and] at h
  have htopology := statement_inj hnumbers (clear_ints _) (clear_ints _) h.1
  have hdebugIds := statement_inj hnumbers (clear_debugIds hunit) (clear_debugIds hother) h.2
  have hentry : Function.Injective fun entry : Int × String =>
      (Text.Numeral.intText entry.1, Value.str entry.2) := by
    intro a b hab
    obtain ⟨hid, htext⟩ := Prod.mk.inj hab
    exact Prod.ext (Text.Numeral.intText_injective hid) (Value.str.inj htext)
  refine ⟨List.map_injective_iff.mpr (fun _ _ => Value.int.inj) (Value.arr.inj htopology), ?_⟩
  refine (List.map_perm_map_iff hentry).mp ?_
  have hperm := List.mergeSort_perm (CompiledUnit.idMembers .str unit.debugIds) fun a b =>
    Text.le a.1 b.1
  have hperm' := List.mergeSort_perm (CompiledUnit.idMembers .str other.debugIds) fun a b =>
    Text.le a.1 b.1
  have hsorted : Members.sorted (CompiledUnit.idMembers .str unit.debugIds) =
      Members.sorted (CompiledUnit.idMembers .str other.debugIds) := Value.obj.inj hdebugIds
  exact hperm.symm.trans ((List.Perm.of_eq hsorted).trans hperm')

end

end Program

/-! ## Agreement -/

namespace CompiledUnit

/-- Two units hold the same graph: the same order and debug ids, nodes with the same values up to the
order of members, and the same pins that an error can reach. -/
structure Agrees (unit other : CompiledUnit) : Prop where
  topology : unit.topology = other.topology
  debugIds : ∀ id, unit.debugIds.lookup id = other.debugIds.lookup id
  nodes : ∀ id, (unit.nodes.find? (·.id = id)).map (·.toValue.sortKeys) =
    (other.nodes.find? (·.id = id)).map (·.toValue.sortKeys)
  affected : ∀ id label, label ∈ unit.errorPins id ↔ label ∈ other.errorPins id

/-- What a record shows of the unit can be read back: the halves of surrogate pairs stand apart in
all texts, and the numbers that are not integers are among the given ones. -/
structure Clear (numbers : Set Binary64) (unit : CompiledUnit) : Prop where
  nodes : ∀ node ∈ unit.nodes, Json.Clear numbers node.toValue
  affected : ∀ id, ∀ label ∈ unit.errorPins id, Json.Clear numbers label.toValue

end CompiledUnit

namespace Program

open Backend

variable {numbers : Set Binary64} {unit other : CompiledUnit} {node node' : BoundNode}

theorem record_eq (hu : unit.Sound) (hnode : node ∈ unit.nodes) {text : String}
    (h : record unit node = .ok text) : ∃ pins, pins.Perm (unit.errorPins node.id) ∧
      text = Json.render none (.obj (BoundNode.errorMembers pins ++ node.recordMembers)) := by
  obtain ⟨pins, hpins, h⟩ := bind_eq_ok.mp h
  obtain ⟨value, hvalue, h⟩ := bind_eq_ok.mp h
  obtain rfl := pure_eq_ok.mp h
  rw [BoundNode.sortedValue_eq (hu.inputTypes node hnode) (hu.properties node hnode)] at hvalue
  obtain rfl := Except.ok.inj hvalue
  obtain ⟨sorted, hsorted, hperm⟩ :=
    Label.sortOn_texts id (hu.affected.pinsOf node.id)
  obtain rfl := Except.ok.inj (hsorted.symm.trans hpins)
  exact ⟨sorted, hperm, rfl⟩

theorem clear_record (hc : unit.Clear numbers) (hnode : node ∈ unit.nodes) {pins : List Label}
    (hpins : pins.Perm (unit.errorPins node.id)) :
    Json.Clear numbers (.obj (BoundNode.errorMembers pins ++ node.recordMembers)) := by
  have hrecord := Json.clear_sortKeys _ (hc.nodes node hnode)
  rw [BoundNode.sortKeys_toValue] at hrecord
  refine Json.clearMembers_iff.mpr fun member hmember => ?_
  rcases List.mem_append.mp hmember with hmember | hmember
  · unfold BoundNode.errorMembers at hmember
    split at hmember
    · exact absurd hmember List.not_mem_nil
    · obtain rfl := List.mem_singleton.mp hmember
      refine ⟨show Json.HalvesApart (Text.codes "errorPins".toList) by decide,
        Json.clearItems_iff.mpr fun v hv => ?_⟩
      obtain ⟨label, hlabel, rfl⟩ := List.mem_map.mp hv
      exact hc.affected node.id label (hpins.mem_iff.mp hlabel)
  · exact Json.clearMembers_iff.mp hrecord member hmember

theorem record_members_inj {pins pins' : List Label}
    (h : BoundNode.errorMembers pins ++ node.recordMembers =
      BoundNode.errorMembers pins' ++ node'.recordMembers) :
    pins = pins' ∧ node.recordMembers = node'.recordMembers := by
  have hfirst : ∀ (pins : List Label) (node node' : BoundNode),
      node.recordMembers ≠ ("errorPins", .arr (pins.map Label.toValue)) :: node'.recordMembers := by
    intro pins node node' heq
    exact absurd (congrArg Prod.fst (List.cons.inj heq).1) (by simp)
  unfold BoundNode.errorMembers at h
  cases pins with
  | nil =>
    cases pins' with
    | nil => exact ⟨rfl, h⟩
    | cons pin' pins' => exact absurd h (hfirst (pin' :: pins') node node')
  | cons pin pins =>
    cases pins' with
    | nil => exact absurd h.symm (hfirst (pin :: pins) node' node)
    | cons pin' pins' =>
      obtain ⟨hpins, hrest⟩ := List.cons.inj h
      exact ⟨List.map_injective_iff.mpr Label.toValue_injective
        (Value.arr.inj (Prod.mk.inj hpins).2), hrest⟩

/-- Of two nodes with the same id, the line tells the value and the pins that an error can reach. -/
theorem showsRecord_inj (hnumbers : Set.InjOn Json.numberLayout.text numbers) (hu : unit.Sound)
    (ho : other.Sound) (hcu : unit.Clear numbers) (hco : other.Clear numbers)
    (hnode : node ∈ unit.nodes) (hnode' : node' ∈ other.nodes) (hid : node.id = node'.id)
    {line : String} (h : ShowsRecord unit node line) (h' : ShowsRecord other node' line) :
    node.toValue.sortKeys = node'.toValue.sortKeys ∧
      ∀ label, label ∈ unit.errorPins node.id ↔ label ∈ other.errorPins node'.id := by
  obtain ⟨text, htext, rfl⟩ := h
  obtain ⟨text', htext', hline⟩ := h'
  obtain ⟨pins, hpins, rfl⟩ := record_eq hu hnode htext
  obtain ⟨pins', hpins', rfl⟩ := record_eq ho hnode' htext'
  rw [nodeLine, nodeLine, hid] at hline
  have hvalue := statement_inj hnumbers (clear_record hcu hnode hpins)
    (clear_record hco hnode' hpins') hline
  obtain ⟨rfl, hmembers⟩ := record_members_inj (Value.obj.inj hvalue)
  refine ⟨?_, fun label => hpins.mem_iff.symm.trans hpins'.mem_iff⟩
  rw [BoundNode.sortKeys_toValue, BoundNode.sortKeys_toValue, hmembers]

/-- Units that show the same lines for the same ids hold the same nodes there. -/
theorem agrees_of_lines (hnumbers : Set.InjOn Json.numberLayout.text numbers) (hu : unit.Sound)
    (ho : other.Sound) (hcu : unit.Clear numbers) (hco : other.Clear numbers) {ids : List Int}
    {nodes nodes' : List BoundNode} {lines : List String} (h : unit.nodesAt ids = .ok nodes)
    (h' : other.nodesAt ids = .ok nodes') (hlines : List.Forall₂ (ShowsRecord unit) nodes lines)
    (hlines' : List.Forall₂ (ShowsRecord other) nodes' lines) {id : Int} (hid : id ∈ ids) :
    (unit.nodes.find? (·.id = id)).map (·.toValue.sortKeys) =
        (other.nodes.find? (·.id = id)).map (·.toValue.sortKeys) ∧
      ∀ label, label ∈ unit.errorPins id ↔ label ∈ other.errorPins id := by
  induction ids generalizing nodes nodes' lines with
  | nil => exact absurd hid List.not_mem_nil
  | cons first rest ih =>
    unfold CompiledUnit.nodesAt at h h'
    cases hfound : unit.nodes.find? (·.id = first) with
    | none => exact absurd h (by simp [hfound])
    | some node =>
      cases hfound' : other.nodes.find? (·.id = first) with
      | none => exact absurd h' (by simp [hfound'])
      | some node' =>
        simp only [hfound, hfound', map_eq_ok] at h h'
        obtain ⟨nodes, hnodes, rfl⟩ := h
        obtain ⟨nodes', hnodes', rfl⟩ := h'
        cases hlines with
        | cons hline hlines =>
          cases hlines' with
          | cons hline' hlines' =>
            rcases List.mem_cons.mp hid with rfl | hid
            · obtain ⟨hmem, hnodeid⟩ := Keyed.mem_of_find? hfound
              obtain ⟨hmem', hnodeid'⟩ := Keyed.mem_of_find? hfound'
              obtain ⟨hvalue, hpins⟩ := showsRecord_inj hnumbers hu ho hcu hco hmem hmem'
                (hnodeid.trans hnodeid'.symm) hline hline'
              rw [hnodeid, hnodeid'] at hpins
              exact ⟨by rw [hfound, hfound', Option.map_some, Option.map_some, hvalue], hpins⟩
            · exact ih hnodes hnodes' hlines hlines' hid

theorem length_of_nodesAt {ids : List Int} {nodes : List BoundNode}
    (h : unit.nodesAt ids = .ok nodes) : nodes.length = ids.length := by
  induction ids generalizing nodes with
  | nil =>
    obtain rfl := Except.ok.inj h
    rfl
  | cons id rest ih =>
    unfold CompiledUnit.nodesAt at h
    split at h
    · exact absurd h (by simp)
    · obtain ⟨others, hothers, rfl⟩ := map_eq_ok.mp h
      rw [List.length_cons, List.length_cons, ih hothers]

theorem feed_not_mem_node {line : String} (h : ShowsRecord unit node line) (hu : unit.Sound)
    (hnode : node ∈ unit.nodes) : '\n' ∉ line.toList := by
  obtain ⟨text, htext, rfl⟩ := h
  obtain ⟨pins, _, rfl⟩ := record_eq hu hnode htext
  refine feed_not_mem_statement (fun hmem => ?_) _
  rw [String.toList_append, String.toList_append] at hmem
  rcases List.mem_append.mp hmem with hmem | hmem
  · rcases List.mem_append.mp hmem with hmem | hmem
    · exact absurd hmem (by decide)
    · rcases Text.Numeral.mem_intText hmem with h | h
      · exact absurd h (by decide)
      · exact absurd h (by decide)
  · exact absurd hmem (by decide)

theorem nodesAt_mem {ids : List Int} {nodes : List BoundNode} (h : unit.nodesAt ids = .ok nodes) :
    ∀ node ∈ nodes, node ∈ unit.nodes := by
  induction ids generalizing nodes with
  | nil =>
    obtain rfl := Except.ok.inj h
    simp
  | cons id rest ih =>
    unfold CompiledUnit.nodesAt at h
    split at h
    · exact absurd h (by simp)
    · next node hfound =>
      obtain ⟨others, hothers, rfl⟩ := map_eq_ok.mp h
      exact List.forall_mem_cons.mpr ⟨(Keyed.mem_of_find? hfound).1, ih hothers⟩

/-- Programs with the same text have the same exports, and the same lines for their nodes. -/
theorem agree_of_source (hnumbers : Set.InjOn Json.numberLayout.text numbers) (hu : unit.Sound)
    (ho : other.Sound) (hcu : unit.Clear numbers) (hco : other.Clear numbers)
    (hdu : ∀ entry ∈ unit.debugIds, ∃ path, entry.2 = spell path)
    (hdo : ∀ entry ∈ other.debugIds, ∃ path, entry.2 = spell path) {program program' : Program}
    (h : emit unit (.str "js") = .ok program) (h' : emit other (.str "js") = .ok program')
    (hsource : program.source = program'.source) :
    unit.topology = other.topology ∧ unit.debugIds.Perm other.debugIds ∧
      ∀ id ∈ unit.topology, (unit.nodes.find? (·.id = id)).map (·.toValue.sortKeys) =
          (other.nodes.find? (·.id = id)).map (·.toValue.sortKeys) ∧
        ∀ label, label ∈ unit.errorPins id ↔ label ∈ other.errorPins id := by
  obtain ⟨head, nodes, lines, hnodes, hlines, hhead, htext⟩ := source_eq h
  obtain ⟨head', nodes', lines', hnodes', hlines', hhead', htext'⟩ := source_eq h'
  have hbare : ∀ {unit : CompiledUnit} {nodes : List BoundNode} {lines : List String}, unit.Sound →
      unit.orderedNodes = .ok nodes → List.Forall₂ (ShowsRecord unit) nodes lines →
      ∀ line ∈ lines, '\n' ∉ line.toList := by
    intro unit nodes lines hu hnodes hlines line hline
    obtain ⟨node, hnode, hshows⟩ := Matched.exists_left hlines hline
    exact feed_not_mem_node hshows hu (nodesAt_mem hnodes node hnode)
  rw [hsource, htext'] at htext
  obtain ⟨hexports, hrest⟩ := Writer.chars_inj (List.append_ne_nil_of_left_ne_nil hhead' _)
    (List.append_ne_nil_of_left_ne_nil hhead _) (feed_not_mem_exports other)
    (feed_not_mem_exports unit) rfl htext
  obtain ⟨htopology, hdebugIds⟩ := exports_inj hnumbers hdu hdo hexports.symm
  have hlength : lines'.length = lines.length := by
    rw [← hlines'.length_eq, ← hlines.length_eq, length_of_nodesAt hnodes', length_of_nodesAt hnodes,
      htopology]
  obtain ⟨rfl, _⟩ := Writer.chars_inj hhead' hhead (hbare ho hnodes' hlines')
    (hbare hu hnodes hlines) hlength hrest
  refine ⟨htopology, hdebugIds, fun id hid => ?_⟩
  rw [CompiledUnit.orderedNodes, ← htopology] at hnodes'
  exact agrees_of_lines hnumbers hu ho hcu hco hnodes hnodes' hlines hlines' hid

end Program

/-! ## Compiled units -/

namespace CompiledUnit

variable {unit other : CompiledUnit}

theorem Assembled.sound {mode : Liveness} {backends : List Value} {kinds : Kinds} {graph : FlatGraph}
    (h : unit.Assembled mode backends kinds graph) (hg : graph.Sound kinds)
    (hkeys : kinds.HasTextKeys) : unit.Sound := by
  obtain ⟨t, hbound⟩ := h.bound
  rcases Typing.bindAll_cases hg hkeys with ⟨stopped, hstop, _⟩ | ⟨t', nodes, hbind, hids, hnodes⟩
  · exact absurd (hbound.symm.trans hstop) (by simp)
  obtain ⟨rfl, rfl⟩ := Prod.mk.inj (Except.ok.inj (hbound.symm.trans hbind))
  rcases FlatGraph.schedule_cases hg with ⟨failure, hfail, _⟩ | ⟨topology, horder, hknown⟩
  · exact absurd (h.scheduled.symm.trans hfail) (by simp)
  obtain rfl := Except.ok.inj (h.scheduled.symm.trans horder)
  have hscheduled : ∀ id ∈ unit.topology, id ∈ unit.nodes.map BoundNode.id :=
    fun id hid => (hids id).mpr (hknown id hid)
  obtain ⟨affected, haffected, htexts⟩ := Liveness.reach_eq_ok mode hkeys hnodes hscheduled
  obtain rfl := Except.ok.inj (h.reached.symm.trans haffected)
  exact ⟨fun node hnode => (hnodes node hnode).inputTypes,
    fun node hnode => (hnodes node hnode).properties, hscheduled, htexts⟩

/-- What is not in the topology is not in the unit. -/
theorem Closed.absent {project : Project} {graph : FlatGraph} (h : unit.Closed project graph)
    {id : Int} (hid : id ∉ unit.topology) :
    unit.nodes.find? (·.id = id) = none ∧ unit.errorPins id = [] := by
  have hno : id ∉ unit.nodes.map BoundNode.id := fun hmem =>
    hid ((h.topological.mem_iff id).mpr hmem)
  refine ⟨List.find?_eq_none.mpr fun node hnode heq => ?_, ?_⟩
  · exact hno (of_decide_eq_true heq ▸ List.mem_map_of_mem hnode)
  · have hlookup : unit.affected.lookup id = none := by
      rw [List.lookup_eq_none_iff]
      intro entry hentry
      rw [bne_iff_ne]
      rintro rfl
      exact hno (h.affected entry.1 (List.mem_map_of_mem hentry))
    rw [errorPins, Liveness.pinsOf, hlookup]
    rfl

/-- What a unit that is compiled of a document can be relied on for. -/
theorem reliable_of_compileDocument {request : Request} {backends document : Value}
    (hpins : ∀ pin ∈ Document.declaredPins document, Document.GivesTextKey pin)
    (h : request.compileDocument backends document = .ok unit) :
    unit.Sound ∧ (∃ project graph, unit.Closed project graph) ∧
      ∀ entry ∈ unit.debugIds, ∃ path, entry.2 = spell path := by
  obtain ⟨project, closure, graph, mode, names, hp, hclosure, hf, _, hunit⟩ :=
    Request.assembled_of_compileDocument h
  obtain ⟨path, hc⟩ := Request.ofEntry_of_closure hclosure
  have hs := Closure.sound_of_ofEntry hp hc
  have hkeys := Closure.hasTextKeys_of_ofEntry hc
    (Document.hasTextKeys_of_checked (Document.checked_of_project hp) hpins)
  refine ⟨hunit.sound (hs.sound_of_flatten hf) hkeys,
    ⟨project, graph, closed_of_assembled hc hs hf hunit⟩, fun entry hentry => ?_⟩
  rw [hunit.debugIds_eq] at hentry
  obtain ⟨flat, hflat, rfl⟩ := List.mem_map.mp hentry
  obtain ⟨site, node, _, _, hshows⟩ := (Inlining.primitives_of_flatten hs hf).2.1 flat hflat
  exact ⟨_, hshows.debugId_eq⟩

end CompiledUnit

/-! ## A node with a literal value -/

namespace Banner

/-- Some nodes, under a name. -/
def document (nodes : Value) : Value :=
  .obj [("patches", .obj [("@/main", .obj [("nodes", nodes)])])]

/-- One node that shows a literal value, in an object of nodes. -/
def keyed (literal : Value) : Value :=
  document (.obj [("1", .obj [("type", .str "banner"), ("properties", .obj [("text", literal)])])])

/-- The same in a list of nodes. -/
def listed (literal : Value) : Value :=
  document (.arr [.obj [("properties", .obj [("text", literal)]), ("id", .int 1),
    ("type", .str "banner")]])

def request : Request := ⟨.str "@/main", .str "none", .obj [], false⟩

def node (literal : Value) : BoundNode := ⟨1, "banner", false, [], [], [(.text "text", literal)]⟩

def unit (literal : Value) : CompiledUnit where
  nodes := [node literal]
  topology := [1]
  templates := []
  debugIds := [(1, "1")]
  affected := []
  liveness := "none"
  globals := []

theorem compileDocument_keyed (literal : Value) :
    request.compileDocument (.arr []) (keyed literal) = .ok (unit literal) := by
  cbv

theorem compileDocument_listed (literal : Value) :
    request.compileDocument (.arr []) (listed literal) = .ok (unit literal) := by
  cbv

/-- The halves of a surrogate pair, each on its own. -/
def halves : String := String.ofList (Text.ofCodes [0xD83D, 0xDE00])

/-- The character that the pair stands for. -/
def face : String := String.ofList (Text.ofCodes [0x1F600])

/-- A literal value of more parts than one. -/
def dimmed : Value := .obj [("glow", .float ⟨0x3FE0000000000000⟩), ("lines", .arr [.str "open"])]

theorem quote_halves : Json.quote .line halves = Json.quote .line face := by
  decide +kernel

theorem record_unit (literal : Value) : Backend.record (unit literal) (node literal) =
    .ok (Json.render none (.obj [("id", .int 1), ("implId", .str "banner"), ("inputTypes", .obj []),
      ("outLinks", .obj []), ("props", .obj [("text", literal.sortKeys)]),
      ("pure", .bool false)])) := by
  cbv

theorem record_halves : Backend.record (unit (.str halves)) (node (.str halves)) =
    Backend.record (unit (.str face)) (node (.str face)) := by
  rw [record_unit, record_unit]
  simp only [Json.render, Json.renderIn, Value.sortKeys, Json.write, Json.writeMembers, quote_halves]

theorem written_halves : Program.written .js (unit (.str halves)) =
    Program.written .js (unit (.str face)) := by
  have hordered : ∀ literal, (unit literal).orderedNodes = .ok [node literal] := fun _ => rfl
  simp only [Program.written, hordered, Program.nodes, Backend.node, record_halves]
  rfl

end Banner

/-- The text of a JavaScript program determines the graph it was made of. Units that are compiled of
documents with texts as pin keys have such programs, and if these have one text, the units agree:
given that the halves of surrogate pairs stand apart in what the nodes show, and that the numbers in
it are told apart by their texts. -/
theorem Request.compileDocument_determined {request request' : Request}
    {backends backends' document document' : Value} {unit other : CompiledUnit}
    {numbers : Set Binary64} (hnumbers : Set.InjOn Json.numberLayout.text numbers)
    (hpins : ∀ pin ∈ Document.declaredPins document, Document.GivesTextKey pin)
    (hpins' : ∀ pin ∈ Document.declaredPins document', Document.GivesTextKey pin)
    (h : request.compileDocument backends document = .ok unit)
    (h' : request'.compileDocument backends' document' = .ok other)
    (hclear : unit.Clear numbers) (hclear' : other.Clear numbers) :
    ∃ program program', Program.emit unit (.str "js") = .ok program ∧
      Program.emit other (.str "js") = .ok program' ∧
      (program.source = program'.source → unit.Agrees other) := by
  obtain ⟨hu, ⟨_, _, hcu⟩, hdu⟩ := CompiledUnit.reliable_of_compileDocument hpins h
  obtain ⟨ho, ⟨_, _, hco⟩, hdo⟩ := CompiledUnit.reliable_of_compileDocument hpins' h'
  have hjs : Backend.ofValue (.str "js") = .ok .js := rfl
  obtain ⟨program, hemit⟩ := Program.emit_eq_ok hu hjs
  obtain ⟨program', hemit'⟩ := Program.emit_eq_ok ho hjs
  refine ⟨program, program', hemit, hemit', fun hsource => ?_⟩
  obtain ⟨htopology, hdebugIds, hnodes⟩ :=
    Program.agree_of_source hnumbers hu ho hclear hclear' hdu hdo hemit hemit' hsource
  refine ⟨htopology, fun id => ?_, fun id => ?_, fun id label => ?_⟩
  · refine Option.ext fun text => ?_
    rw [Keyed.lookup_eq_some_iff hcu.debugIds_nodup, Keyed.lookup_eq_some_iff hco.debugIds_nodup,
      hdebugIds.mem_iff]
  · by_cases hid : id ∈ unit.topology
    · exact (hnodes id hid).1
    · rw [(hcu.absent hid).1, (hco.absent (htopology ▸ hid)).1]
  · by_cases hid : id ∈ unit.topology
    · exact (hnodes id hid).2 label
    · rw [(hcu.absent hid).2, (hco.absent (htopology ▸ hid)).2]

theorem Request.compileDocument_determined_banner :
    Set.InjOn Json.numberLayout.text {Binary64.mk 0x3FE0000000000000} ∧
    (∀ pin ∈ Document.declaredPins (Banner.keyed Banner.dimmed), Document.GivesTextKey pin) ∧
    (∀ pin ∈ Document.declaredPins (Banner.listed Banner.dimmed), Document.GivesTextKey pin) ∧
    Banner.request.compileDocument (.arr []) (Banner.keyed Banner.dimmed) =
      .ok (Banner.unit Banner.dimmed) ∧
    Banner.request.compileDocument (.arr []) (Banner.listed Banner.dimmed) =
      .ok (Banner.unit Banner.dimmed) ∧
    (Banner.unit Banner.dimmed).Clear {Binary64.mk 0x3FE0000000000000} ∧
    ∃ program program', Program.emit (Banner.unit Banner.dimmed) (.str "js") = .ok program ∧
      Program.emit (Banner.unit Banner.dimmed) (.str "js") = .ok program' ∧
      (program.source = program'.source →
        (Banner.unit Banner.dimmed).Agrees (Banner.unit Banner.dimmed)) := by
  have hnumbers := Set.injOn_singleton Json.numberLayout.text (Binary64.mk 0x3FE0000000000000)
  have hpins : ∀ pin ∈ Document.declaredPins (Banner.keyed Banner.dimmed),
      Document.GivesTextKey pin := fun _ hpin => absurd hpin List.not_mem_nil
  have hpins' : ∀ pin ∈ Document.declaredPins (Banner.listed Banner.dimmed),
      Document.GivesTextKey pin := fun _ hpin => absurd hpin List.not_mem_nil
  have h := Banner.compileDocument_keyed Banner.dimmed
  have h' := Banner.compileDocument_listed Banner.dimmed
  have hclear : (Banner.unit Banner.dimmed).Clear {Binary64.mk 0x3FE0000000000000} := by
    refine ⟨fun node hnode => ?_, fun id label hlabel => absurd hlabel List.not_mem_nil⟩
    obtain rfl := List.mem_singleton.mp hnode
    have hlinks : (Banner.node Banner.dimmed).outLinkMembers = [] := List.mergeSort_nil
    refine ⟨by decide, trivial, by decide, (by decide : Json.HalvesApart _), by decide, trivial,
      by decide, trivial, by decide, ?_, by decide, ⟨by decide, ⟨by decide, rfl, by decide,
        ⟨(by decide : Json.HalvesApart _), trivial⟩, trivial⟩, trivial⟩, trivial⟩
    rw [hlinks]
    trivial
  exact ⟨hnumbers, hpins, hpins', h, h', hclear,
    compileDocument_determined hnumbers hpins hpins' h h' hclear hclear⟩

/-- Two halves of a surrogate pair show as the character that the pair stands for. -/
theorem Request.compileDocument_determined_halves :
    (∀ pin ∈ Document.declaredPins (Banner.keyed (.str Banner.halves)),
      Document.GivesTextKey pin) ∧
    (∀ pin ∈ Document.declaredPins (Banner.keyed (.str Banner.face)), Document.GivesTextKey pin) ∧
    Banner.request.compileDocument (.arr []) (Banner.keyed (.str Banner.halves)) =
      .ok (Banner.unit (.str Banner.halves)) ∧
    Banner.request.compileDocument (.arr []) (Banner.keyed (.str Banner.face)) =
      .ok (Banner.unit (.str Banner.face)) ∧
    (∃ program program',
      Program.emit (Banner.unit (.str Banner.halves)) (.str "js") = .ok program ∧
      Program.emit (Banner.unit (.str Banner.face)) (.str "js") = .ok program' ∧
      program.source = program'.source) ∧
    ¬ (Banner.unit (.str Banner.halves)).Agrees (Banner.unit (.str Banner.face)) := by
  have hpins : ∀ literal, ∀ pin ∈ Document.declaredPins (Banner.keyed literal),
      Document.GivesTextKey pin := fun _ _ hpin => absurd hpin List.not_mem_nil
  have hjs : Backend.ofValue (.str "js") = .ok .js := rfl
  have hsound : ∀ literal, (Banner.unit literal).Sound := fun literal =>
    (CompiledUnit.reliable_of_compileDocument (hpins literal)
      (Banner.compileDocument_keyed literal)).1
  obtain ⟨program, h⟩ := Program.emit_eq_ok (hsound (.str Banner.halves)) hjs
  obtain ⟨program', h'⟩ := Program.emit_eq_ok (hsound (.str Banner.face)) hjs
  obtain ⟨w, hw, hsource⟩ := Program.written_of_emit h
  obtain ⟨w', hw', hsource'⟩ := Program.written_of_emit h'
  obtain rfl := Except.ok.inj (hw.symm.trans (Banner.written_halves.trans hw'))
  refine ⟨hpins _, hpins _, Banner.compileDocument_keyed _, Banner.compileDocument_keyed _,
    ⟨program, program', h, h', hsource.trans hsource'.symm⟩, fun hagrees => ?_⟩
  have hnode : (Banner.node (.str Banner.halves)).toValue.sortKeys =
      (Banner.node (.str Banner.face)).toValue.sortKeys := Option.some.inj (hagrees.nodes 1)
  rw [BoundNode.sortKeys_toValue, BoundNode.sortKeys_toValue] at hnode
  simp only [BoundNode.recordMembers, Banner.node, BoundNode.tableMembers, Members.sorted,
    Value.sortKeys, List.map_cons, List.map_nil, List.mergeSort_singleton, Value.obj.injEq,
    List.cons.injEq, Prod.mk.injEq, Value.str.injEq, true_and, and_true] at hnode
  exact absurd hnode.2 (by decide)

end Patchbay
