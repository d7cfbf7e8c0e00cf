import Patchbay.Proofs.Json.ReadBack
import Patchbay.Proofs.UnitValue

/-!
# Reading the text of a unit back

The JSON text of a compiled unit is read back as its value, up to the order of members and at any
indentation, and tells the unit apart from every other (`compileDocument_readBack`). As in programs,
two halves of a surrogate pair that stand one after the other on their own are written as the
character they would make together, and that is what is read (`compileDocument_misread`).
-/

namespace Patchbay

theorem Members.perm_of_sorted_eq {members others : Members}
    (h : members.sorted = others.sorted) : members.Perm others :=
  (List.mergeSort_perm _ _).symm.trans ((List.Perm.of_eq h).trans (List.mergeSort_perm _ _))

/-- Tables that show the same members in ascending order have the same keys, under which the same is
shown. -/
theorem Table.shuffled_of_sorted_eq {α : Type} {value : α → Value} {table other : Table α}
    (h : table.HasTexts) (h' : other.HasTexts)
    (heq : Members.sorted (BoundNode.tableMembers Label.keyText value table) =
      Members.sorted (BoundNode.tableMembers Label.keyText value other)) :
    Shuffled (Keyed.Corresponds fun a b => value a = value b) table other := by
  refine (Shuffled.of_map_perm (Members.perm_of_sorted_eq heq)).imp_of_mem fun a ha b hb hab => ?_
  obtain ⟨s, hs⟩ := h a ha
  obtain ⟨t, ht⟩ := h' b hb
  obtain ⟨hkey, hvalue⟩ := Prod.mk.inj hab
  rw [hs, ht] at hkey
  exact ⟨by rw [hs, ht]; exact congrArg Label.text hkey, hvalue⟩

theorem Table.reordered_of_sorted_eq {table other : Table Value} (h : table.Tidy Value.Regular)
    (h' : other.HasTexts)
    (heq : Members.sorted (BoundNode.tableMembers Label.keyText Value.sortKeys table) =
      Members.sorted (BoundNode.tableMembers Label.keyText Value.sortKeys other)) :
    Shuffled (Keyed.Corresponds Value.Reordered) table other :=
  (Table.shuffled_of_sorted_eq h.texts h' heq).imp_of_mem fun a ha _ _ hab =>
    ⟨hab.1, Value.reordered_of_sortKeys_eq a.2 (h.values a ha) hab.2⟩

/-! ## Nodes -/

namespace BoundNode

/-- Two nodes differ in the order of the entries of their tables and of the members of their literal
values at most. -/
structure Same (node other : BoundNode) : Prop where
  id_eq : node.id = other.id
  type_eq : node.type = other.type
  pure_eq : node.pure = other.pure
  inputTypes : node.inputTypes.Perm other.inputTypes
  outLinks : node.outLinks.Perm other.outLinks
  properties : Shuffled (Keyed.Corresponds Value.Reordered) node.properties other.properties

theorem outLinkValue_injective : Function.Injective outLinkValue := by
  rintro ⟨id, key⟩ ⟨id', key'⟩ h
  simpa [outLinkValue, and_comm] using h

variable {node other : BoundNode}

/-- Nodes with the same value are the same. -/
theorem same_of_sortKeys_eq (htypes : node.inputTypes.HasTexts)
    (htypes' : other.inputTypes.HasTexts)
    (hvalues : node.properties.Tidy Value.Regular) (hvalues' : other.properties.HasTexts)
    (h : node.toValue.sortKeys = other.toValue.sortKeys) : node.Same other := by
  rw [sortKeys_toValue, sortKeys_toValue] at h
  simp only [recordMembers, Value.obj.injEq, List.cons.injEq, Prod.mk.injEq, Value.int.injEq,
    Value.str.injEq, Value.bool.injEq, true_and, and_true] at h
  obtain ⟨hid, htype, htables, hlinks, hprops, hpure⟩ := h
  have hentry : Function.Injective fun entry : String × List OutLink =>
      (entry.1, Value.arr (entry.2.map outLinkValue)) := by
    intro a b hab
    obtain ⟨hkey, hvalue⟩ := Prod.mk.inj hab
    exact Prod.ext hkey (List.map_injective_iff.mpr outLinkValue_injective (Value.arr.inj hvalue))
  refine ⟨hid, htype, hpure, ?_, ?_, Table.reordered_of_sorted_eq hvalues hvalues' hprops⟩
  · exact ((Table.shuffled_of_sorted_eq htypes htypes' htables).imp_of_mem fun _ _ _ _ hab =>
      Prod.ext hab.1 (Value.str.inj hab.2)).perm
  · exact (List.map_perm_map_iff hentry).mp (Members.perm_of_sorted_eq hlinks)

end BoundNode

/-! ## Units -/

namespace CompiledUnit

/-- Two units differ in the order of entries and members at most: the nodes, the order of their
evaluation, the implementation texts, the debug ids, the pins that an error can reach, the mode and
the constants are the same. -/
structure Same (unit other : CompiledUnit) : Prop where
  nodes : Shuffled BoundNode.Same unit.nodes other.nodes
  topology_eq : unit.topology = other.topology
  templates : unit.templates.Perm other.templates
  debugIds : unit.debugIds.Perm other.debugIds
  affected : Shuffled (Keyed.Corresponds List.Perm) unit.affected other.affected
  liveness_eq : unit.liveness = other.liveness
  globals : Shuffled (Keyed.Corresponds Value.Reordered) unit.globals other.globals

variable {unit other : CompiledUnit}

/-- Entries that show the same members have the same ids, under which the same is shown. -/
theorem shuffled_of_idMembers {α : Type} {f : α → Value} {entries others : List (Int × α)}
    (h : Members.sorted (idMembers f entries) = Members.sorted (idMembers f others)) :
    Shuffled (Keyed.Corresponds fun a b => f a = f b) entries others := by
  refine (Shuffled.of_map_perm (Members.perm_of_sorted_eq h)).imp_of_mem fun a _ b _ hab => ?_
  obtain ⟨hid, hvalue⟩ := Prod.mk.inj hab
  exact ⟨Text.Numeral.intText_injective hid, hvalue⟩

theorem perm_of_pinsValue_eq {pins others : LabelSet} (h : pinsValue pins = pinsValue others) :
    pins.Perm others := by
  have hsorted := List.map_injective_iff.mpr Label.toValue_injective (Value.arr.inj h)
  exact (List.mergeSort_perm _ _).symm.trans
    ((List.Perm.of_eq hsorted).trans (List.mergeSort_perm _ _))

/-- Units with the same value are the same. -/
theorem same_of_sortKeys_eq (hu : unit.Tidy) (ho : other.Tidy)
    (h : (Value.obj unit.valueMembers).sortKeys = (Value.obj other.valueMembers).sortKeys) :
    unit.Same other := by
  simp only [valueMembers, Value.sortKeys, Value.sortMembers, sorted_fields,
    sortMembers_idMembers, sortKeys_pinsValue, sortItems_ints, sortMembers_texts,
    BoundNode.sortMembers_tableMembers, Value.obj.injEq, List.cons.injEq, Prod.mk.injEq,
    Value.str.injEq, Value.arr.injEq, true_and, and_true] at h
  obtain ⟨hglobals, htemplates, hliveness, hdebugIds, hnodes, haffected, htopology⟩ := h
  have hbyId {α : Type} (entries : List (Int × α)) : (byId entries).Perm entries :=
    List.mergeSort_perm _ _
  refine ⟨?_, List.map_injective_iff.mpr (fun _ _ => Value.int.inj) htopology, ?_, ?_, ?_,
    hliveness, Table.reordered_of_sorted_eq hu.globals ho.globals.texts hglobals⟩
  · have hperm := Members.perm_of_sorted_eq hnodes
    simp only [idMembers, List.map_map] at hperm
    have hsame : Shuffled BoundNode.Same unit.sortedNodes other.sortedNodes := by
      refine (Shuffled.of_map_perm hperm).imp_of_mem fun node hnode node' hnode' heq => ?_
      obtain ⟨htypes, hvalues⟩ := hu.tables node (List.mem_mergeSort.mp hnode)
      obtain ⟨htypes', hvalues'⟩ := ho.tables node' (List.mem_mergeSort.mp hnode')
      exact BoundNode.same_of_sortKeys_eq htypes.texts htypes'.texts hvalues hvalues'.texts
        (Prod.mk.inj heq).2
    exact (hsame.perm_left (List.mergeSort_perm _ _).symm).perm_right (List.mergeSort_perm _ _)
  · have hentry : Function.Injective fun entry : String × String =>
        (entry.1, Value.str entry.2) := by
      intro a b hab
      obtain ⟨htype, htext⟩ := Prod.mk.inj hab
      exact Prod.ext htype (Value.str.inj htext)
    exact (List.map_perm_map_iff hentry).mp (Members.perm_of_sorted_eq htemplates)
  · have hsame : Shuffled Eq (byId unit.debugIds) (byId other.debugIds) :=
      (shuffled_of_idMembers hdebugIds).imp_of_mem fun _ _ _ _ hab =>
        Prod.ext hab.1 (Value.str.inj hab.2)
    exact (hbyId _).symm.trans (hsame.perm.trans (hbyId _))
  · have hsame : Shuffled (Keyed.Corresponds List.Perm) (byId unit.affected)
        (byId other.affected) :=
      (shuffled_of_idMembers haffected).imp_of_mem fun _ _ _ _ hab =>
        ⟨hab.1, perm_of_pinsValue_eq hab.2⟩
    exact (hsame.perm_left (hbyId _).symm).perm_right (hbyId _)

/-- The text of a tidy unit is read back as its value with all keys ascending. -/
theorem Tidy.read_json (h : unit.Tidy) (hclear : Json.Clear Set.univ (.obj unit.valueMembers))
    (indent : Option Nat) : ∃ text, unit.json indent = .ok text ∧
      Json.read .none text = .ok (Value.obj unit.valueMembers).sortKeys := by
  refine ⟨_, json_of_sortedValue h.sortedValue_eq indent, ?_⟩
  exact Json.read_render (Value.regular_sortKeys _ h.regular_value) (Json.clear_sortKeys _ hclear)
    indent

end CompiledUnit

/-! ## A node with a literal value -/

namespace Banner

/-- The value of the unit, with a literal value in it. -/
def value (literal : Value) : Value :=
  .obj [("nodes", .obj [("1", .obj [("id", .int 1), ("implId", .str "banner"),
      ("pure", .bool false), ("inputTypes", .obj []), ("outLinks", .obj []),
      ("props", .obj [("text", literal)])])]),
    ("topology", .arr [.int 1]), ("impl", .obj []), ("nodeIdsMap", .obj [("1", .str "1")]),
    ("pinsAffectedByErrorRaisers", .obj []), ("liveness", .str "none"), ("globals", .obj [])]

/-- The same value with all keys ascending. -/
def sortedValue (literal : Value) : Value :=
  .obj [("globals", .obj []), ("impl", .obj []), ("liveness", .str "none"),
    ("nodeIdsMap", .obj [("1", .str "1")]),
    ("nodes", .obj [("1", .obj [("id", .int 1), ("implId", .str "banner"), ("inputTypes", .obj []),
      ("outLinks", .obj []), ("props", .obj [("text", literal.sortKeys)]),
      ("pure", .bool false)])]),
    ("pinsAffectedByErrorRaisers", .obj []), ("topology", .arr [.int 1])]

theorem toValue_unit (literal : Value) : (unit literal).toValue = .ok (value literal) := by
  cbv

theorem sortedValue_unit (literal : Value) :
    (unit literal).sortedValue = .ok (sortedValue literal) := by
  cbv

theorem regular_keyed {literal : Value} (h : literal.Regular) : (keyed literal).Regular := by
  simp [keyed, document, Value.Regular.obj_iff, Value.Regular.str, h]

theorem regular_listed {literal : Value} (h : literal.Regular) : (listed literal).Regular := by
  simp [listed, document, Value.Regular.obj_iff, Value.Regular.arr_iff, Value.Regular.str,
    Value.Regular.int, h]

theorem regular_globals : request.globals.Regular :=
  .obj List.nodup_nil fun _ hmember => absurd hmember List.not_mem_nil

/-- The literal value of the node tells the two units apart. -/
theorem not_same_halves : ¬ (unit (.str halves)).Same (unit (.str face)) := by
  intro hsame
  obtain ⟨node, hnode, hlike⟩ := hsame.nodes.exists_right List.mem_cons_self
  obtain rfl := List.mem_singleton.mp hnode
  obtain ⟨entry, hentry, -, hvalue⟩ := hlike.properties.exists_right List.mem_cons_self
  obtain rfl := List.mem_singleton.mp hentry
  exact absurd (Option.some.inj hvalue.text?_eq) (by decide : halves ≠ face)

theorem json_halves : (unit (.str halves)).json none = (unit (.str face)).json none := by
  rw [CompiledUnit.json_of_sortedValue (sortedValue_unit _),
    CompiledUnit.json_of_sortedValue (sortedValue_unit _)]
  simp only [sortedValue, Json.render, Json.renderIn, Value.sortKeys, Json.write, Json.writeItems,
    Json.writeMembers, quote_halves]

/-- The halves of surrogate pairs stand apart in the value of the unit as they do in the literal. -/
theorem clear_value {literal : Value} (h : Json.Clear Set.univ literal) :
    Json.Clear Set.univ (value literal) := by
  simp only [value, Json.Clear, Json.ClearItems, Json.ClearMembers, h, true_and, and_true]
  decide +kernel

theorem regular_dimmed : dimmed.Regular := by
  have hglow : Json.Canonical ⟨0x3FE0000000000000⟩ := fun hnan => absurd hnan (by decide)
  simp [dimmed, Value.Regular.obj_iff, Value.Regular.arr_iff, Value.Regular.str,
    Value.Regular.float hglow]

theorem clear_dimmed : Json.Clear Set.univ dimmed := by
  simp only [dimmed, Json.Clear, Json.ClearItems, Json.ClearMembers, Set.mem_univ, true_and,
    and_true]
  decide

end Banner

/-- The JSON text of a compiled unit is read back as its value, up to the order of members and at
any indentation, and units with the same text are the same. The documents and the constants are
regular, pins and constants are keyed by texts, and the halves of surrogate pairs stand apart in
what the units show. -/
theorem Request.compileDocument_readBack {request request' : Request}
    {backends backends' document document' : Value} {unit other : CompiledUnit}
    (hpins : ∀ pin ∈ Document.declaredPins document, Document.GivesTextKey pin)
    (hpins' : ∀ pin ∈ Document.declaredPins document', Document.GivesTextKey pin)
    (hdocument : document.Regular) (hdocument' : document'.Regular)
    (hglobals : request.globals.Regular) (hglobals' : request'.globals.Regular)
    (h : request.compileDocument backends document = .ok unit)
    (h' : request'.compileDocument backends' document' = .ok other)
    (hnames : unit.globals.HasTexts) (hnames' : other.globals.HasTexts)
    (hclear : ∀ value, unit.toValue = .ok value → Json.Clear Set.univ value)
    (hclear' : ∀ value, other.toValue = .ok value → Json.Clear Set.univ value) :
    (∃ value, unit.toValue = .ok value ∧ ∀ indent, ∃ text read, unit.json indent = .ok text ∧
      Json.read .none text = .ok read ∧ value.Reordered read) ∧
    ∀ indent indent' text, unit.json indent = .ok text → other.json indent' = .ok text →
      unit.Same other := by
  have hu := CompiledUnit.tidy_of_compileDocument hpins hdocument hglobals hnames h
  have ho := CompiledUnit.tidy_of_compileDocument hpins' hdocument' hglobals' hnames' h'
  have hvalue := CompiledUnit.toValue_eq hu.affected
  have hread := hu.read_json (hclear _ hvalue)
  have hread' := ho.read_json (hclear' _ (CompiledUnit.toValue_eq ho.affected))
  refine ⟨⟨_, hvalue, fun indent => ?_⟩, fun indent indent' text htext htext' => ?_⟩
  · obtain ⟨text, htext, hread⟩ := hread indent
    exact ⟨text, _, htext, hread, Value.reordered_sortKeys _ hu.regular_value⟩
  · obtain ⟨_, heq, hread⟩ := hread indent
    obtain ⟨_, heq', hread'⟩ := hread' indent'
    obtain rfl := Except.ok.inj (heq.symm.trans htext)
    obtain rfl := Except.ok.inj (heq'.symm.trans htext')
    exact CompiledUnit.same_of_sortKeys_eq hu ho (Except.ok.inj (hread.symm.trans hread'))

theorem Request.compileDocument_readBack_banner :
    (∀ pin ∈ Document.declaredPins (Banner.keyed Banner.dimmed), Document.GivesTextKey pin) ∧
    (∀ pin ∈ Document.declaredPins (Banner.listed Banner.dimmed), Document.GivesTextKey pin) ∧
    (Banner.keyed Banner.dimmed).Regular ∧ (Banner.listed Banner.dimmed).Regular ∧
    Banner.request.globals.Regular ∧
    Banner.request.compileDocument (.arr []) (Banner.keyed Banner.dimmed) =
      .ok (Banner.unit Banner.dimmed) ∧
    Banner.request.compileDocument (.arr []) (Banner.listed Banner.dimmed) =
      .ok (Banner.unit Banner.dimmed) ∧
    (Banner.unit Banner.dimmed).globals.HasTexts ∧
    (∀ value, (Banner.unit Banner.dimmed).toValue = .ok value → Json.Clear Set.univ value) ∧
    (∃ value, (Banner.unit Banner.dimmed).toValue = .ok value ∧ ∀ indent, ∃ text read,
      (Banner.unit Banner.dimmed).json indent = .ok text ∧ Json.read .none text = .ok read ∧
      value.Reordered read) ∧
    ∀ indent indent' text, (Banner.unit Banner.dimmed).json indent = .ok text →
      (Banner.unit Banner.dimmed).json indent' = .ok text →
      (Banner.unit Banner.dimmed).Same (Banner.unit Banner.dimmed) := by
  have hpins : ∀ pin ∈ Document.declaredPins (Banner.keyed Banner.dimmed),
      Document.GivesTextKey pin := fun _ hpin => absurd hpin List.not_mem_nil
  have hpins' : ∀ pin ∈ Document.declaredPins (Banner.listed Banner.dimmed),
      Document.GivesTextKey pin := fun _ hpin => absurd hpin List.not_mem_nil
  have hdocument := Banner.regular_keyed Banner.regular_dimmed
  have hdocument' := Banner.regular_listed Banner.regular_dimmed
  have h := Banner.compileDocument_keyed Banner.dimmed
  have h' := Banner.compileDocument_listed Banner.dimmed
  have hnames : (Banner.unit Banner.dimmed).globals.HasTexts :=
    fun _ hentry => absurd hentry List.not_mem_nil
  have hclear : ∀ value, (Banner.unit Banner.dimmed).toValue = .ok value →
      Json.Clear Set.univ value := by
    intro value hvalue
    obtain rfl := Except.ok.inj ((Banner.toValue_unit _).symm.trans hvalue)
    exact Banner.clear_value Banner.clear_dimmed
  exact ⟨hpins, hpins', hdocument, hdocument', Banner.regular_globals, h, h', hnames, hclear,
    compileDocument_readBack hpins hpins' hdocument hdocument' Banner.regular_globals
      Banner.regular_globals h h' hnames hnames hclear hclear⟩

/-- Two halves of a surrogate pair are read back as the character that the pair stands for. -/
theorem Request.compileDocument_misread :
    (∀ pin ∈ Document.declaredPins (Banner.keyed (.str Banner.halves)),
      Document.GivesTextKey pin) ∧
    (∀ pin ∈ Document.declaredPins (Banner.keyed (.str Banner.face)), Document.GivesTextKey pin) ∧
    (Banner.keyed (.str Banner.halves)).Regular ∧ (Banner.keyed (.str Banner.face)).Regular ∧
    Banner.request.compileDocument (.arr []) (Banner.keyed (.str Banner.halves)) =
      .ok (Banner.unit (.str Banner.halves)) ∧
    Banner.request.compileDocument (.arr []) (Banner.keyed (.str Banner.face)) =
      .ok (Banner.unit (.str Banner.face)) ∧
    (∃ value text read, (Banner.unit (.str Banner.halves)).toValue = .ok value ∧
      (Banner.unit (.str Banner.halves)).json none = .ok text ∧
      (Banner.unit (.str Banner.face)).json none = .ok text ∧
      Json.read .none text = .ok read ∧ ¬ value.Reordered read) ∧
    ¬ (Banner.unit (.str Banner.halves)).Same (Banner.unit (.str Banner.face)) := by
  have hpins : ∀ literal, ∀ pin ∈ Document.declaredPins (Banner.keyed literal),
      Document.GivesTextKey pin := fun _ _ hpin => absurd hpin List.not_mem_nil
  have htidy : ∀ s, (Banner.unit (.str s)).Tidy := fun s =>
    CompiledUnit.tidy_of_compileDocument (hpins _) (Banner.regular_keyed (.str s))
      Banner.regular_globals (fun _ hentry => absurd hentry List.not_mem_nil)
      (Banner.compileDocument_keyed _)
  have hvalue := CompiledUnit.toValue_eq (htidy Banner.halves).affected
  have hvalue' := CompiledUnit.toValue_eq (htidy Banner.face).affected
  have hclear : Json.Clear Set.univ (.obj (Banner.unit (.str Banner.face)).valueMembers) := by
    have hmembers := Except.ok.inj (hvalue'.symm.trans (Banner.toValue_unit _))
    exact hmembers ▸ Banner.clear_value (by decide : Json.HalvesApart _)
  obtain ⟨text, htext, hread⟩ := (htidy Banner.face).read_json hclear none
  refine ⟨hpins _, hpins _, Banner.regular_keyed (.str _), Banner.regular_keyed (.str _),
    Banner.compileDocument_keyed _, Banner.compileDocument_keyed _,
    ⟨_, text, _, hvalue, Banner.json_halves.trans htext, htext, hread, fun hordered => ?_⟩,
    Banner.not_same_halves⟩
  have hface := Value.reordered_sortKeys _ (htidy Banner.face).regular_value
  exact Banner.not_same_halves (CompiledUnit.same_of_sortKeys_eq (htidy _) (htidy _)
    ((Value.sortKeys_eq hordered).trans (Value.sortKeys_eq hface).symm))

end Patchbay
