import Patchbay.Proofs.Compilation
import Patchbay.Proofs.Flat.Literals
import Patchbay.Proofs.Flat.Record
import Patchbay.Proofs.Program.Decoding

/-!
# Units as values

A unit that is compiled of a regular document is tidy (`tidy_of_compileDocument`): its tables have
different texts as keys, and its parts each id once. Such a unit has a regular value
(`regular_value`), and its JSON text is that of this value with all keys ascending
(`sortedValue_eq`).
-/

namespace Patchbay

/-! ## Constants -/

namespace Request

theorem keys_put {α : Type} (label : Label) (a : α) (table : Table α) :
    (∀ key ∈ table.map Prod.fst, key ∈ (Table.put label a table).map Prod.fst) ∧
      ∃ key ∈ (Table.put label a table).map Prod.fst, key.same label = true := by
  induction table with
  | nil => exact ⟨nofun, label, by simp [Table.put], label.same_refl⟩
  | cons entry rest ih =>
    obtain ⟨k, b⟩ := entry
    unfold Table.put
    split
    · next hsame => exact ⟨fun _ hkey => hkey, k, List.mem_cons_self, hsame⟩
    · obtain ⟨hkeep, key, hkey, hsame⟩ := ih
      refine ⟨fun other hother => ?_, key, List.mem_cons_of_mem _ hkey, hsame⟩
      rcases List.mem_cons.mp hother with rfl | hother
      · exact List.mem_cons_self
      · exact List.mem_cons_of_mem _ (hkeep other hother)

theorem regular_of_sequence {v : Value} (hv : v.Regular) {items : List Value}
    (h : sequence? v = some items) : ∀ item ∈ items, item.Regular := by
  intro item hitem
  cases v with
  | arr _ =>
    obtain rfl := Option.some.inj h
    exact hv.item hitem
  | obj members =>
    obtain rfl := Option.some.inj h
    obtain ⟨m, _, rfl⟩ := List.mem_map.mp hitem
    exact .str _
  | str s =>
    obtain rfl := Option.some.inj h
    obtain ⟨code, _, rfl⟩ := List.mem_map.mp hitem
    exact .str _
  | _ => exact nomatch h

theorem keys_of_pairs {place : Nat} {table table' : Table Value} {items : List Value}
    (h : pairs place table items = .ok table') :
    ∀ key ∈ table.map Prod.fst, key ∈ table'.map Prod.fst := by
  induction items generalizing place table with
  | nil =>
    obtain rfl := Except.ok.inj h
    exact fun _ hkey => hkey
  | cons item rest ih =>
    unfold pairs at h
    split at h
    · exact nomatch h
    · split at h
      · exact nomatch h
      · next label _ => exact fun key hkey => ih h key ((keys_put label _ table).1 key hkey)
    · exact nomatch h

theorem tidy_of_pairs {place : Nat} {table table' : Table Value} {items : List Value}
    (h : pairs place table items = .ok table') (htexts : table'.HasTexts)
    (htable : table.Tidy Value.Regular) (hitems : ∀ item ∈ items, item.Regular) :
    table'.Tidy Value.Regular := by
  induction items generalizing place table with
  | nil =>
    obtain rfl := Except.ok.inj h
    exact htable
  | cons item rest ih =>
    obtain ⟨hitem, hrest⟩ := List.forall_mem_cons.mp hitems
    unfold pairs at h
    split at h
    · exact nomatch h
    · next key value hsequence =>
      split at h
      · exact nomatch h
      · next label _ =>
        obtain ⟨known, hknown, hsame⟩ := (keys_put label value table).2
        obtain ⟨entry, hentry, rfl⟩ := List.mem_map.mp (keys_of_pairs h known hknown)
        obtain ⟨s, hs⟩ := htexts entry hentry
        rw [hs, Label.same_comm] at hsame
        obtain rfl := Label.eq_text_of_same hsame
        have hpair := regular_of_sequence hitem hsequence
        exact ih h (htable.put s (hpair value (by simp))) hrest
    · exact nomatch h

/-- The constants of a regular value are a tidy table, if their names are texts. -/
theorem tidy_of_constants {v : Value} {table : Table Value} (h : constants v = .ok table)
    (hv : v.Regular) (htexts : table.HasTexts) : table.Tidy Value.Regular := by
  unfold constants at h
  split at h
  · obtain rfl := Except.ok.inj h
    exact .nil
  split at h
  · next members =>
    obtain rfl := Except.ok.inj h
    refine ⟨htexts, ?_, fun entry hentry => ?_⟩
    · rw [List.map_map]
      refine List.pairwise_map.mpr ((List.pairwise_map.mp hv.keys).imp fun {a b} hab => ?_)
      show Label.same (.text a.1) (.text b.1) = false
      rw [Label.same_text]
      exact decide_eq_false hab
    · obtain ⟨m, hm, rfl⟩ := List.mem_map.mp hentry
      exact hv.member hm
  · split at h
    · next items hsequence =>
      exact tidy_of_pairs h htexts .nil (regular_of_sequence hv hsequence)
    · exact nomatch h

end Request

/-! ## Tidy units -/

/-- The parts of a unit have each id once, and its tables have different texts as keys. -/
structure CompiledUnit.Tidy (unit : CompiledUnit) : Prop extends unit.Sound where
  ids_nodup : (unit.nodes.map BoundNode.id).Nodup
  debugIds_nodup : (unit.debugIds.map Prod.fst).Nodup
  affected_nodup : (unit.affected.map Prod.fst).Nodup
  templates_nodup : (unit.templates.map Prod.fst).Nodup
  outLinks_nodup : ∀ node ∈ unit.nodes, (node.outLinks.map Prod.fst).Nodup
  tables : ∀ node ∈ unit.nodes,
    (node.inputTypes.Tidy fun _ => True) ∧ node.properties.Tidy Value.Regular
  globals : unit.globals.Tidy Value.Regular

/-- A unit is tidy that is compiled of a regular document, with texts as names of constants. -/
theorem CompiledUnit.tidy_of_compileDocument {request : Request} {backends document : Value}
    {unit : CompiledUnit}
    (hpins : ∀ pin ∈ Document.declaredPins document, Document.GivesTextKey pin)
    (hdocument : document.Regular) (hglobals : request.globals.Regular)
    (hnames : unit.globals.HasTexts) (h : request.compileDocument backends document = .ok unit) :
    unit.Tidy := by
  obtain ⟨project, closure, graph, mode, names, hp, hclosure, hf, _, hunit⟩ :=
    Request.assembled_of_compileDocument h
  obtain ⟨path, hc⟩ := Request.ofEntry_of_closure hclosure
  have hs := Closure.sound_of_ofEntry hp hc
  have hg := hs.sound_of_flatten hf
  have hn := hs.nodup_of_flatten hf
  have hclosed := CompiledUnit.closed_of_assembled hc hs hf hunit
  have hkeys := Closure.hasTextKeys_of_ofEntry hc
    (Document.hasTextKeys_of_checked (Document.checked_of_project hp) hpins)
  have htables := hunit.tidy hg hkeys (P := Value.Regular)
    (fun flat hflat m hm => by
      obtain ⟨patch, hpatch, node, hnode, literal, hliteral, heq⟩ :=
        Inlining.literal_of_flatten hs hf hflat hm
      exact heq ▸ hdocument.part (Closure.literal_of_ofEntry hp hc patch hpatch node hnode literal
        hliteral))
    (fun type p htype entry hentry pin hpin v hv =>
      hdocument.part (Closure.default_of_primitive hp hc htype hentry hpin hv))
  refine ⟨hunit.sound hg hkeys, hclosed.ids_nodup, hclosed.debugIds_nodup, ?_, ?_,
    fun node hnode => (hclosed.outLinks node hnode).1, htables,
    Request.tidy_of_constants (Request.parameters_of_compileDocument h).2 hglobals hnames⟩
  · by_cases hmode : mode = .none
    · have hreached := hunit.reached
      rw [Liveness.reach, if_pos hmode] at hreached
      rw [← Except.ok.inj hreached]
      exact List.nodup_nil
    · exact (hunit.traced hg hn hmode fun _ _ => Closure.entry_eq_of_primitive hc).1.nodup
  · exact (nodup_ascendingTexts _).sublist (sublist_of_templatesOf hunit.chosen)

/-! ## Members -/

section Members

variable {α : Type} {f : α → Value} {entries entries' : List (Int × α)}

theorem CompiledUnit.nodup_idMembers (hn : (entries.map Prod.fst).Nodup) :
    ((idMembers f entries).map Prod.fst).Nodup := by
  have hkeys : (idMembers f entries).map Prod.fst =
      (entries.map Prod.fst).map Text.Numeral.intText := by
    rw [idMembers, List.map_map, List.map_map]
    rfl
  rw [hkeys]
  exact hn.map fun _ _ => Text.Numeral.intText_injective

theorem CompiledUnit.sorted_idMembers (hn : (entries.map Prod.fst).Nodup)
    (hperm : entries.Perm entries') :
    Members.sorted (idMembers f entries) = Members.sorted (idMembers f entries') :=
  Members.sorted_eq_of_perm (nodup_idMembers hn) (hperm.map _)

theorem CompiledUnit.sortMembers_idMembers (f : α → Value) (entries : List (Int × α)) :
    Value.sortMembers (idMembers f entries) = idMembers (fun a => (f a).sortKeys) entries := by
  rw [Value.sortMembers_eq_map, idMembers, List.map_map]
  rfl

end Members

namespace CompiledUnit

variable {unit : CompiledUnit}

/-- The pins that an error can reach, in ascending order. -/
def pinsValue (pins : LabelSet) : Value := .arr ((pins.mergeSort Label.le).map Label.toValue)

theorem affectedMembers_eq {rows : Liveness.Reach} (h : rows.HasTexts) :
    affectedMembers rows = .ok (idMembers pinsValue rows) := by
  induction rows with
  | nil => rfl
  | cons row rest ih =>
    obtain ⟨hrow, hrest⟩ := List.forall_mem_cons.mp h
    have hsorted : row.2.sorted = .ok (row.2.mergeSort Label.le) :=
      if_pos (Label.areAlike_of_texts id hrow)
    rw [affectedMembers, hsorted, ih hrest]
    rfl

/-- The members of the value of a unit. -/
def valueMembers (unit : CompiledUnit) : Members :=
  [("nodes", .obj (idMembers BoundNode.toValue
      (unit.sortedNodes.map fun node => (node.id, node)))),
    ("topology", .arr (unit.topology.map .int)),
    ("impl", .obj (unit.templates.map fun (type, text) => (type, .str text))),
    ("nodeIdsMap", .obj (idMembers .str (byId unit.debugIds))),
    ("pinsAffectedByErrorRaisers", .obj (idMembers pinsValue (byId unit.affected))),
    ("liveness", .str unit.liveness),
    ("globals", .obj (BoundNode.tableMembers Label.keyText (fun v => v) unit.globals))]

theorem hasTexts_byId (h : unit.affected.HasTexts) : Liveness.Reach.HasTexts (byId unit.affected) :=
  fun entry hentry => h entry (List.mem_mergeSort.mp hentry)

theorem toValue_eq (h : unit.affected.HasTexts) : unit.toValue = .ok (.obj unit.valueMembers) := by
  rw [toValue, valueSpelling, affectedMembers_eq (hasTexts_byId h)]
  rfl

theorem sorted_fields (a b c d e f g : Value) :
    Members.sorted [("nodes", a), ("topology", b), ("impl", c), ("nodeIdsMap", d),
      ("pinsAffectedByErrorRaisers", e), ("liveness", f), ("globals", g)] =
    [("globals", g), ("impl", c), ("liveness", f), ("nodeIdsMap", d), ("nodes", a),
      ("pinsAffectedByErrorRaisers", e), ("topology", b)] := by
  have hkeys : ["nodes", "topology", "impl", "nodeIdsMap", "pinsAffectedByErrorRaisers", "liveness",
      "globals"].Perm ["globals", "impl", "liveness", "nodeIdsMap", "nodes",
        "pinsAffectedByErrorRaisers", "topology"] := by decide
  have hascending : ["globals", "impl", "liveness", "nodeIdsMap", "nodes",
      "pinsAffectedByErrorRaisers", "topology"].Pairwise (fun s t => Text.le s t = true) := by
    decide
  have hnodup : ["nodes", "topology", "impl", "nodeIdsMap", "pinsAffectedByErrorRaisers",
      "liveness", "globals"].Nodup := by decide
  obtain ⟨found, hfound⟩ : ∃ found : String → Value, found = fun key =>
    (List.lookup key [("nodes", a), ("topology", b), ("impl", c), ("nodeIdsMap", d),
      ("pinsAffectedByErrorRaisers", e), ("liveness", f), ("globals", g)]).getD .null := ⟨_, rfl⟩
  have hperm := hkeys.map fun key => (key, found key)
  simp only [List.map_cons, List.map_nil, hfound] at hperm
  refine (Members.sorted_eq_of_perm ?_ hperm).trans (Members.sorted_eq_self ?_)
  · exact hnodup
  · exact hascending

theorem sortedNodeMembers_eq {nodes : List BoundNode}
    (h : ∀ node ∈ nodes, node.inputTypes.HasTexts ∧ node.properties.HasTexts) :
    sortedNodeMembers nodes = .ok (nodes.map fun node =>
      (Text.Numeral.intText node.id, node.toValue.sortKeys)) := by
  induction nodes with
  | nil => rfl
  | cons node rest ih =>
    obtain ⟨hnode, hrest⟩ := List.forall_mem_cons.mp h
    rw [sortedNodeMembers, BoundNode.sortedValue_eq hnode.1 hnode.2, ih hrest, List.map_cons,
      BoundNode.sortKeys_toValue]
    rfl

/-- The nodes as members with all keys ascending. -/
theorem nodesByIdText_eq (unit : CompiledUnit) :
    (unit.nodesByIdText.map fun node => (Text.Numeral.intText node.id, node.toValue.sortKeys)) =
      Members.sorted (idMembers (fun node => node.toValue.sortKeys)
        (unit.nodes.map fun node => (node.id, node))) := by
  rw [idMembers, List.map_map]
  exact List.map_mergeSort fun _ _ _ _ => rfl

theorem sortKeys_label (label : Label) : label.toValue.sortKeys = label.toValue := by
  cases label with
  | _ => rfl

theorem sortKeys_pinsValue (pins : LabelSet) : (pinsValue pins).sortKeys = pinsValue pins :=
  congrArg Value.arr
    (Value.sortItems_eq_self (List.forall_mem_map.mpr fun label _ => sortKeys_label label))

theorem sortItems_ints (ids : List Int) : Value.sortItems (ids.map Value.int) = ids.map Value.int :=
  Value.sortItems_eq_self (List.forall_mem_map.mpr fun _ _ => rfl)

theorem sortMembers_texts (entries : List (String × String)) :
    Value.sortMembers (entries.map fun entry => (entry.1, .str entry.2)) =
      entries.map fun entry => (entry.1, .str entry.2) := by
  rw [Value.sortMembers_eq_map, List.map_map]
  rfl

/-- The JSON text of a tidy unit is that of its value with all keys ascending. -/
theorem Tidy.sortedValue_eq (h : unit.Tidy) :
    unit.sortedValue = .ok (Value.obj unit.valueMembers).sortKeys := by
  have hids : ((unit.nodes.map fun node => (node.id, node)).map Prod.fst).Nodup := by
    rw [List.map_map]
    exact h.ids_nodup
  have hnodes := sorted_idMembers (f := fun node : BoundNode => node.toValue.sortKeys) hids
    ((List.mergeSort_perm unit.nodes fun a b => a.id ≤ b.id).symm.map fun node => (node.id, node))
  have hdebugIds := sorted_idMembers (f := Value.str) h.debugIds_nodup
    (List.mergeSort_perm unit.debugIds fun a b => a.1 ≤ b.1).symm
  have haffected : Members.sorted (idMembers pinsValue (byId unit.affected)) =
      Members.sorted (idMembers pinsValue unit.affected) :=
    (sorted_idMembers h.affected_nodup
      (List.mergeSort_perm unit.affected fun a b => a.1 ≤ b.1).symm).symm
  have htables : ∀ node ∈ unit.nodesByIdText,
      node.inputTypes.HasTexts ∧ node.properties.HasTexts := by
    intro node hnode
    have hmem := List.mem_mergeSort.mp hnode
    exact ⟨h.inputTypes node hmem, h.properties node hmem⟩
  unfold sortedValue
  rw [affectedMembers_eq (hasTexts_byId h.affected), Table.sortedMembers_eq h.globals.texts,
    sortedNodeMembers_eq htables, nodesByIdText_eq, hnodes, hdebugIds]
  simp only [valueMembers, Value.sortKeys, Value.sortMembers, sorted_fields,
    sortMembers_idMembers, sortKeys_pinsValue, sortItems_ints, sortMembers_texts,
    BoundNode.sortMembers_tableMembers]
  rfl

/-! ### Regular values -/

theorem regular_idMembers {α : Type} {f : α → Value} {entries : List (Int × α)}
    (hn : (entries.map Prod.fst).Nodup) (h : ∀ entry ∈ entries, (f entry.2).Regular) :
    (Value.obj (idMembers f entries)).Regular := by
  refine .obj (nodup_idMembers hn) fun m hm => ?_
  obtain ⟨entry, hentry, rfl⟩ := List.mem_map.mp hm
  exact h entry hentry

theorem regular_tableMembers {α : Type} {P : α → Prop} {table : Table α} (h : table.Tidy P)
    {value : α → Value} (hvalue : ∀ a, P a → (value a).Regular) :
    (Value.obj (BoundNode.tableMembers Label.keyText value table)).Regular := by
  refine .obj ?_ fun m hm => ?_
  · rw [BoundNode.tableMembers, List.map_map]
    exact h.nodup_keyText
  · obtain ⟨entry, hentry, rfl⟩ := List.mem_map.mp hm
    exact hvalue _ (h.values entry hentry)

theorem regular_label {label : Label} (h : label.IsText) : label.toValue.Regular := by
  obtain ⟨s, rfl⟩ := h
  exact .str s

theorem regular_outLinkMembers {node : BoundNode} (h : (node.outLinks.map Prod.fst).Nodup) :
    (Value.obj node.outLinkMembers).Regular := by
  have hperm := List.mergeSort_perm (node.outLinks.map fun entry =>
    (entry.1, Value.arr (entry.2.map BoundNode.outLinkValue))) fun a b => Text.le a.1 b.1
  refine .obj ?_ fun m hm => ?_
  · refine (hperm.map Prod.fst).nodup_iff.mpr ?_
    rw [List.map_map]
    exact h
  · obtain ⟨entry, _, rfl⟩ := List.mem_map.mp (hperm.mem_iff.mp hm)
    refine .arr (List.forall_mem_map.mpr fun link _ => .obj (by simp) ?_)
    simp [Value.Regular.str, Value.Regular.int]

theorem Tidy.regular_node (h : unit.Tidy) {node : BoundNode} (hnode : node ∈ unit.nodes) :
    node.toValue.Regular := by
  obtain ⟨htypes, hvalues⟩ := h.tables node hnode
  refine .obj (show ["id", "implId", "pure", "inputTypes", "outLinks", "props"].Nodup by decide) ?_
  simp only [List.forall_mem_cons, List.not_mem_nil, false_implies, implies_true, and_true]
  exact ⟨.int _, .str _, .bool _, regular_tableMembers htypes fun _ _ => .str _,
    regular_outLinkMembers (h.outLinks_nodup node hnode), regular_tableMembers hvalues fun _ h => h⟩

/-- The value of a tidy unit is regular. -/
theorem Tidy.regular_value (h : unit.Tidy) : (Value.obj unit.valueMembers).Regular := by
  have hsorted {α : Type} {entries : List (Int × α)} (hn : (entries.map Prod.fst).Nodup) :
      ((byId entries).map Prod.fst).Nodup :=
    ((List.mergeSort_perm _ _).map Prod.fst).nodup_iff.mpr hn
  refine .obj (show ["nodes", "topology", "impl", "nodeIdsMap", "pinsAffectedByErrorRaisers",
    "liveness", "globals"].Nodup by decide) ?_
  simp only [valueMembers, List.forall_mem_cons, List.not_mem_nil, false_implies, implies_true,
    and_true]
  refine ⟨regular_idMembers ?_ ?_, .arr (List.forall_mem_map.mpr fun _ _ => .int _),
    .obj ?_ (List.forall_mem_map.mpr fun _ _ => .str _),
    regular_idMembers (hsorted h.debugIds_nodup) fun _ _ => .str _,
    regular_idMembers (hsorted h.affected_nodup) fun entry hentry => ?_, .str _,
    regular_tableMembers h.globals fun _ h => h⟩
  · rw [List.map_map]
    exact ((List.mergeSort_perm unit.nodes _).map BoundNode.id).nodup_iff.mpr h.ids_nodup
  · exact List.forall_mem_map.mpr fun node hnode => h.regular_node (List.mem_mergeSort.mp hnode)
  · rw [List.map_map]
    exact h.templates_nodup
  · refine .arr (List.forall_mem_map.mpr fun label hlabel => ?_)
    exact regular_label (hasTexts_byId h.affected entry hentry label (List.mem_mergeSort.mp hlabel))

end CompiledUnit

end Patchbay
