import Patchbay.Flat.Binding
import Patchbay.Proofs.Flat.Typing
import Patchbay.Proofs.Label
import Patchbay.Proofs.Project.Catalog

/-!
# Binding the nodes of a sound graph

Where the pins of the catalog are keyed by texts, the nodes of a sound graph are bound by tables
with text keys; the only failures are a terminal without a type and a pin that is both linked and
set (`bindAll_cases`). Their implementation texts can always be told (`collectTemplates_eq_ok`).
-/

namespace Patchbay

/-- A bound node that the later stages can write out: its type is primitive and its tables are
keyed by texts. -/
structure BoundNode.Sound (kinds : Kinds) (node : BoundNode) : Prop where
  primitive : ∃ p, kinds.primitive node.type = .ok p
  inputTypes : node.inputTypes.HasTexts
  properties : node.properties.HasTexts

namespace BoundNode

variable {kinds : Kinds} {graph : FlatGraph} {entered : List Int} {t : Typing}

/-- Beside a pin stand its expansions with a number below the arity, if it is variadic. -/
theorem mem_expand_iff {arity : Int} {declared pin : Pin} :
    pin ∈ expand arity declared ↔ pin = declared ∨ declared.variadic = true ∧
      ∃ i : Nat, 0 < i ∧ (i : Int) < arity ∧ pin = { declared with
        key := .str (declared.key.display ++ "-$" ++ Text.Numeral.natText i) } := by
  unfold expand
  rw [List.mem_cons]
  refine or_congr_right ?_
  split
  · next hvariadic =>
    simp only [hvariadic, true_and, expansions, List.mem_map, List.mem_range]
    constructor
    · rintro ⟨key, ⟨i, hi, rfl⟩, rfl⟩
      exact ⟨i + 1, Nat.succ_pos i, by omega, rfl⟩
    · rintro ⟨i, hpos, hlt, rfl⟩
      exact ⟨_, ⟨i - 1, by omega, rfl⟩, by rw [Nat.sub_add_cancel hpos]⟩
  · next hvariadic => simp [hvariadic]

theorem keyedByText_of_inputPins {entry : NodeType} {arity : Int}
    (hentry : ∀ pin ∈ entry.inputs, pin.KeyedByText) :
    ∀ pin ∈ inputPins entry arity, pin.KeyedByText := by
  intro pin hpin
  obtain ⟨declared, hdeclared, hexpand⟩ := List.mem_flatMap.mp hpin
  rcases mem_expand_iff.mp hexpand with rfl | ⟨_, i, _, _, rfl⟩
  · exact hentry pin hdeclared
  · exact ⟨_, rfl⟩

theorem bindInputs_eq_ok (linked : List String) {pins : List Pin}
    (hpins : ∀ pin ∈ pins, pin.KeyedByText) {types : Table String} {values : Table Value}
    (htypes : types.HasTexts) (hvalues : values.HasTexts) :
    ∃ types' values', bindInputs linked types values pins = .ok (types', values') ∧
      types'.HasTexts ∧ values'.HasTexts := by
  induction pins generalizing types values with
  | nil => exact ⟨types, values, rfl, htypes, hvalues⟩
  | cons pin rest ih =>
    obtain ⟨key, hkey⟩ := hpins pin List.mem_cons_self
    have hrest := fun p hp => hpins p (List.mem_cons_of_mem _ hp)
    have hlabel := Label.isText_text key
    unfold bindInputs
    simp only [hkey, Label.ofValue]
    refine ih hrest (htypes.put hlabel _) ?_
    split
    · exact hvalues
    · split
      · exact hvalues
      · exact hvalues.put hlabel _

theorem hasTexts_overlay {values : Table Value} (h : values.HasTexts) (literals : Members) :
    (overlay values literals).HasTexts := by
  unfold overlay
  induction literals generalizing values with
  | nil => exact h
  | cons literal rest ih => exact ih (h.put (Label.isText_text literal.1) literal.2)

theorem terminalInput_eq_ok (h : Typing.Sound kinds graph entered t) {node : FlatNode}
    (hentered : node.id ∈ entered) (linked : List String) :
    ∃ types, terminalInput t node linked = .ok types ∧ types.HasTexts := by
  obtain ⟨type, htype⟩ := h.entered node.id hentered
  unfold terminalInput
  split
  · rw [htype]
    refine ⟨_, rfl, fun entry hentry => ?_⟩
    rw [List.mem_singleton.mp hentry]
    exact Label.isText_text _
  · exact ⟨[], rfl, Table.hasTexts_nil⟩

/-- A node of a typed graph is bound, unless one of its pins is both linked and set. -/
theorem ofNode_cases (hg : graph.Sound kinds) (hkeys : kinds.HasTextKeys)
    (h : Typing.Sound kinds graph entered t) {node : FlatNode} (hnode : node ∈ graph.nodes)
    (hentered : ∀ p, t.primitive node.id = .ok p → p.isTerminal = true → node.id ∈ entered) :
    (∃ failure, ofNode t node = .error failure ∧ failure.kind = .conflictingBinding) ∨
    (∃ bound, ofNode t node = .ok bound ∧ bound.id = node.id ∧ bound.Sound kinds) := by
  obtain ⟨found, _, p, hp, hkind, htype⟩ := h.primitive_eq_ok hg (List.mem_map_of_mem hnode)
  have hprimitive : ∃ q, kinds.primitive p.type = .ok q := ⟨p, htype ▸ hkind⟩
  unfold ofNode
  simp only [hp, bind, Except.bind]
  split
  · exact .inl ⟨_, rfl, rfl⟩
  · by_cases hterminal : p.isTerminal = true
    · obtain ⟨types, htypes, htexts⟩ :=
        terminalInput_eq_ok h (hentered p hp hterminal) (linkedPins t.graph node.id)
      simp only [hterminal, if_true, htypes, Except.map]
      exact .inr ⟨_, rfl, rfl, hprimitive, htexts, hasTexts_overlay Table.hasTexts_nil _⟩
    · have hpins : ∀ pin ∈ p.entry.elim [] (fun entry => inputPins entry node.arity),
          pin.KeyedByText := by
        cases hentry : p.entry with
        | none => simp
        | some entry =>
          refine keyedByText_of_inputPins fun pin hpin => ?_
          obtain ⟨key, hmem, _⟩ := NodeType.mem_inputs_iff.mp hpin
          exact hkeys _ p hkind entry hentry (key, pin) hmem
      obtain ⟨types, values, hbind, htypes, hvalues⟩ :=
        bindInputs_eq_ok (linkedPins t.graph node.id) hpins Table.hasTexts_nil
          Table.hasTexts_nil
      simp only [hterminal, hbind]
      exact .inr ⟨_, rfl, rfl, hprimitive, htypes, hasTexts_overlay hvalues _⟩

theorem ofNodes_cases (hg : graph.Sound kinds) (hkeys : kinds.HasTextKeys)
    (h : Typing.Sound kinds graph entered t) {nodes : List FlatNode}
    (hnodes : ∀ node ∈ nodes, node ∈ graph.nodes)
    (hentered : ∀ node ∈ nodes, ∀ p, t.primitive node.id = .ok p → p.isTerminal = true →
      node.id ∈ entered) :
    (∃ failure, ofNodes t nodes = .error failure ∧ failure.kind = .conflictingBinding) ∨
    (∃ bound, ofNodes t nodes = .ok bound ∧ bound.map BoundNode.id = nodes.map FlatNode.id ∧
      ∀ node ∈ bound, node.Sound kinds) := by
  induction nodes with
  | nil => exact .inr ⟨[], rfl, rfl, by simp⟩
  | cons node rest ih =>
    unfold ofNodes
    rcases ofNode_cases hg hkeys h (hnodes node List.mem_cons_self)
        (hentered node List.mem_cons_self) with ⟨failure, hfail, hkind⟩ | ⟨bound, hok, hid, hsound⟩
    · exact .inl ⟨failure, by rw [hfail]; rfl, hkind⟩
    rcases ih (fun n hn => hnodes n (List.mem_cons_of_mem _ hn))
        (fun n hn => hentered n (List.mem_cons_of_mem _ hn)) with
      ⟨failure, hfail, hkind⟩ | ⟨others, hothers, hids, hsounds⟩
    · exact .inl ⟨failure, by rw [hok, hfail]; rfl, hkind⟩
    · refine .inr ⟨bound :: others, by rw [hok, hothers]; rfl, by simp [hid, hids],
        fun n hn => ?_⟩
      rcases List.mem_cons.mp hn with rfl | hn
      · exact hsound
      · exact hsounds n hn

end BoundNode

/-- The nodes of a sound graph are bound, unless a linked terminal has no type, or a pin is both
linked and set. -/
theorem Typing.bindAll_cases {kinds : Kinds} {graph : FlatGraph} (hg : graph.Sound kinds)
    (hkeys : kinds.HasTextKeys) :
    (∃ stopped, (Typing.start kinds graph).bindAll = .error stopped ∧
      (stopped.failure.kind = .unresolvableTerminalType ∨
        stopped.failure.kind = .conflictingBinding)) ∨
    (∃ t bound, (Typing.start kinds graph).bindAll = .ok (t, bound) ∧
      (∀ id, id ∈ bound.map BoundNode.id ↔ id ∈ graph.ids) ∧
      ∀ node ∈ bound, node.Sound kinds) := by
  unfold bindAll
  rcases resolve_cases hg with ⟨stopped, hstop, hkind⟩ | ⟨t, entered, hok, hs, hall⟩
  · exact .inl ⟨stopped, by rw [hstop]; rfl, .inl hkind⟩
  simp only [hok, bind, Except.bind, hs.graph_eq]
  have hmem : ∀ node, node ∈ graph.nodes.mergeSort (fun a b => a.id ≤ b.id) ↔ node ∈ graph.nodes :=
    fun node => (List.mergeSort_perm _ _).mem_iff
  rcases BoundNode.ofNodes_cases hg hkeys hs (fun node hn => (hmem node).mp hn)
      (fun node hn => hall node ((hmem node).mp hn)) with
    ⟨failure, hfail, hkind⟩ | ⟨bound, hbound, hids, hsounds⟩
  · exact .inl ⟨_, by rw [hfail], .inr hkind⟩
  · refine .inr ⟨t, bound, by rw [hbound], fun id => ?_, hsounds⟩
    rw [hids, FlatGraph.ids]
    exact ((List.mergeSort_perm graph.nodes _).map FlatNode.id).mem_iff

/-! ## Implementation texts -/

theorem chooseTemplate_eq_ok (templates : List (String × String)) (names : List String) :
    ∃ text, chooseTemplate templates (names.map .str) = .ok text := by
  induction names with
  | nil => exact ⟨none, rfl⟩
  | cons name rest ih =>
    simp only [List.map_cons, chooseTemplate, Label.ofValue]
    split
    · exact ⟨_, rfl⟩
    · exact ih

theorem templatesOf_eq_ok {kinds : Kinds} {types : List String} (names : List String)
    (htypes : ∀ type ∈ types, ∃ p, kinds.primitive type = .ok p) :
    ∃ texts, templatesOf kinds (names.map .str) types = .ok texts := by
  induction types with
  | nil => exact ⟨[], rfl⟩
  | cons type rest ih =>
    obtain ⟨p, hp⟩ := htypes type List.mem_cons_self
    obtain ⟨others, hothers⟩ := ih fun t ht => htypes t (List.mem_cons_of_mem _ ht)
    unfold templatesOf
    simp only [hp, hothers, bind, Except.bind, pure, Except.pure]
    cases p.entry with
    | none => exact ⟨_, rfl⟩
    | some entry =>
      obtain ⟨text, htext⟩ := chooseTemplate_eq_ok entry.templates names
      simp only [htext]
      exact ⟨_, rfl⟩

/-- The implementation texts of bound nodes can be told. -/
theorem collectTemplates_eq_ok {kinds : Kinds} {nodes : List BoundNode} (names : List String)
    (hnodes : ∀ node ∈ nodes, node.Sound kinds) :
    ∃ texts, collectTemplates kinds nodes (names.map .str) = .ok texts := by
  refine templatesOf_eq_ok names fun type htype => ?_
  unfold ascendingTexts at htype
  rw [List.mem_mergeSort, List.mem_eraseDups, List.mem_map] at htype
  obtain ⟨node, hnode, rfl⟩ := htype
  exact (hnodes node hnode).primitive

end Patchbay
