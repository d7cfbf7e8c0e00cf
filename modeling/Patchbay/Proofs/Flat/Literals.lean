import Patchbay.Proofs.CompiledUnit
import Patchbay.Proofs.Flat.Binding
import Patchbay.Proofs.Flat.Leaves
import Patchbay.Proofs.Label.Table
import Patchbay.Proofs.Project.Parts

/-!
# Literal values

The tables of a bound node have different texts as keys, and every literal value in them was given
in the document: by a node, by an instance around it, or as the default of a pin
(`CompiledUnit.Assembled.tidy`).
-/

namespace Patchbay

/-- The keys of the table are different texts, and its values are of a kind. -/
structure Table.Tidy {α : Type} (P : α → Prop) (table : Table α) : Prop where
  texts : table.HasTexts
  apart : Label.Apart (table.map Prod.fst)
  values : ∀ entry ∈ table, P entry.2

namespace Table.Tidy

variable {α : Type} {P : α → Prop} {table : Table α}

protected theorem nil : Tidy P [] :=
  ⟨hasTexts_nil, .nil, fun _ h => absurd h List.not_mem_nil⟩

protected theorem put (h : Tidy P table) (s : String) {a : α} (ha : P a) :
    Tidy P (Table.put (.text s) a table) where
  texts := h.texts.put (Label.isText_text s) a
  apart := apart_put (.text s) a h.apart
  values := by
    intro entry hentry
    rcases List.mem_cons.mp ((put_text_perm s a h.apart).mem_iff.mp hentry) with rfl | hentry
    · exact ha
    · exact h.values entry (List.mem_filter.mp hentry).1

/-- Different texts as keys make different keys of an object. -/
theorem nodup_keyText (h : Tidy P table) :
    (table.map fun entry => entry.1.keyText).Nodup := by
  have hne : table.Pairwise fun a b => a.1.keyText ≠ b.1.keyText := by
    refine (List.pairwise_map.mp h.apart).imp_of_mem fun {a b} ha hb hab heq => ?_
    obtain ⟨s, hs⟩ := h.texts a ha
    obtain ⟨t, ht⟩ := h.texts b hb
    rw [hs, ht] at heq hab
    obtain rfl : s = t := heq
    exact absurd ((Label.same_refl _).symm.trans hab) (by decide)
  exact List.pairwise_map.mpr hne

end Table.Tidy

/-! ## Bound nodes -/

namespace BoundNode

variable {P : Value → Prop} {types types' : Table String} {values values' : Table Value}
  {linked : List String}

theorem tidy_of_bindInputs {pins : List Pin}
    (h : bindInputs linked types values pins = .ok (types', values'))
    (hpins : ∀ pin ∈ pins, pin.KeyedByText ∧ ∀ v, pin.default? = some v → P v)
    (htypes : types.Tidy fun _ => True) (hvalues : values.Tidy P) :
    (types'.Tidy fun _ => True) ∧ values'.Tidy P := by
  induction pins generalizing types values with
  | nil =>
    obtain ⟨rfl, rfl⟩ := Prod.mk.inj (Except.ok.inj h)
    exact ⟨htypes, hvalues⟩
  | cons pin rest ih =>
    obtain ⟨⟨⟨key, hkey⟩, hdefault⟩, hrest⟩ := List.forall_mem_cons.mp hpins
    unfold bindInputs at h
    simp only [hkey, Label.ofValue] at h
    refine ih h hrest (htypes.put key trivial) ?_
    split
    · exact hvalues
    · next v hv =>
      split
      · exact hvalues
      · exact hvalues.put key (hdefault v hv)

theorem tidy_overlay {literals : Members} (hvalues : values.Tidy P)
    (hliterals : ∀ m ∈ literals, P m.2) : (overlay values literals).Tidy P := by
  unfold overlay
  induction literals generalizing values with
  | nil => exact hvalues
  | cons literal rest ih =>
    obtain ⟨hliteral, hrest⟩ := List.forall_mem_cons.mp hliterals
    exact ih (hvalues.put literal.1 hliteral) hrest

/-- The inputs of a node at an arity have the defaults of its type. -/
theorem default_of_inputPins {entry : NodeType} {arity : Int} {pin : Pin}
    (hpin : pin ∈ inputPins entry arity) : ∃ declared ∈ entry.inputs,
      pin.default? = declared.default? := by
  obtain ⟨declared, hdeclared, hexpand⟩ := List.mem_flatMap.mp hpin
  rcases mem_expand_iff.mp hexpand with rfl | ⟨_, i, _, _, rfl⟩
  · exact ⟨pin, hdeclared, rfl⟩
  · exact ⟨declared, hdeclared, rfl⟩

theorem tidy_of_terminalInput {t : Typing} {flat : FlatNode}
    (h : terminalInput t flat linked = .ok types) : types.Tidy fun _ => True := by
  unfold terminalInput at h
  split at h
  · split at h
    · exact nomatch h
    · obtain rfl := Except.ok.inj h
      exact Table.Tidy.nil.put Terminal.pinKey trivial
  · obtain rfl := Except.ok.inj h
    exact .nil

/-- Binding a node keeps what its literal values and the defaults of its type have in common. -/
theorem tidy_of_ofNode {t : Typing} {flat : FlatNode} {node : BoundNode}
    (h : ofNode t flat = .ok node) (hflat : ∀ m ∈ flat.properties, P m.2)
    (hdefaults : ∀ p, t.primitive flat.id = .ok p → ∀ entry, p.entry = some entry →
      ∀ pin ∈ entry.inputs, pin.KeyedByText ∧ ∀ v, pin.default? = some v → P v) :
    (node.inputTypes.Tidy fun _ => True) ∧ node.properties.Tidy P := by
  obtain ⟨p, hp, h⟩ := bind_eq_ok.mp h
  dsimp only at h
  split at h
  · exact nomatch h
  · split at h
    · obtain ⟨_, htables, h⟩ := bind_eq_ok.mp h
      obtain rfl := Except.ok.inj h
      obtain ⟨_, htypes, rfl⟩ := map_eq_ok.mp htables
      exact ⟨tidy_of_terminalInput htypes, tidy_overlay .nil hflat⟩
    · obtain ⟨_, htables, h⟩ := bind_eq_ok.mp h
      obtain rfl := Except.ok.inj h
      have hpins : ∀ pin ∈ p.entry.elim [] (fun entry => inputPins entry flat.arity),
          pin.KeyedByText ∧ ∀ v, pin.default? = some v → P v := by
        cases hentry : p.entry with
        | none => exact fun _ hpin => absurd hpin List.not_mem_nil
        | some entry =>
          have hinputs := hdefaults p hp entry hentry
          intro pin hpin
          refine ⟨keyedByText_of_inputPins (fun pin hpin => (hinputs pin hpin).1) pin hpin, ?_⟩
          obtain ⟨declared, hdeclared, heq⟩ := default_of_inputPins hpin
          exact heq ▸ (hinputs declared hdeclared).2
      obtain ⟨htypes, hvalues⟩ := tidy_of_bindInputs htables hpins .nil .nil
      exact ⟨htypes, tidy_overlay hvalues hflat⟩

end BoundNode

/-! ## Flat nodes -/

namespace Inlining

variable {closure : Closure}

theorem owner_of_stands (hs : closure.Sound) {site : Site} (h : closure.Stands site) {owner : Node}
    (howner : site.owner? = some owner) : ∃ patch ∈ closure.patches, owner ∈ patch.nodes := by
  cases h with
  | entry => exact nomatch howner
  | inner hstands hnode _ =>
    obtain rfl := Option.some.inj howner
    exact ⟨_, hs.patch_mem hstands, hnode⟩

/-- The literal values of a flat graph are those of nodes in the patches of the closure. -/
theorem literal_of_flatten (hs : closure.Sound) {graph : FlatGraph}
    (hf : closure.flatten = .ok graph) {flat : FlatNode} (hflat : flat ∈ graph.nodes)
    {m : String × Value} (hm : m ∈ flat.properties) :
    ∃ patch ∈ closure.patches, ∃ node ∈ patch.nodes, ∃ literal ∈ node.properties,
      literal.2 = m.2 := by
  obtain ⟨site, node, path, hprim, hshows⟩ := (primitives_of_flatten hs hf).2.1 flat hflat
  have hpatch := hs.patch_mem hprim.stands
  have hsettles := hshows.settles
  generalize flat.properties = properties at hm hsettles
  cases hsettles with
  | own _ => exact ⟨_, hpatch, node, hprim.mem, m, hm, rfl⟩
  | @moved owner key value howner hliteral _ _ =>
    rcases Members.mem_put hm with rfl | hm
    · obtain ⟨patch, hpatch, hmem⟩ := owner_of_stands hs hprim.stands howner
      exact ⟨patch, hpatch, owner, hmem, _, hliteral, rfl⟩
    · exact ⟨_, hpatch, node, hprim.mem, m, hm, rfl⟩

end Inlining

/-! ## Units -/

/-- The tables of the nodes of a unit are tidy, where the literal values of the graph and the
defaults of the types in use are of a kind. -/
theorem CompiledUnit.Assembled.tidy {mode : Liveness} {backends : List Value} {kinds : Kinds}
    {graph : FlatGraph} {unit : CompiledUnit} (h : unit.Assembled mode backends kinds graph)
    (hg : graph.Sound kinds) (hkeys : kinds.HasTextKeys) {P : Value → Prop}
    (hflat : ∀ flat ∈ graph.nodes, ∀ m ∈ flat.properties, P m.2)
    (hdefaults : ∀ type p, kinds.primitive type = .ok p → ∀ entry, p.entry = some entry →
      ∀ pin ∈ entry.inputs, ∀ v, pin.default? = some v → P v) :
    ∀ node ∈ unit.nodes, (node.inputTypes.Tidy fun _ => True) ∧ node.properties.Tidy P := by
  obtain ⟨t, hbound⟩ := h.bound
  obtain ⟨entered, hs, hall⟩ := Typing.ofNode_of_bindAll hg hbound
  intro node hnode
  obtain ⟨flat, _, hmem, hof⟩ := Matched.exists_left hall hnode
  refine BoundNode.tidy_of_ofNode hof (hflat flat hmem) fun p hp entry hentry pin hpin => ?_
  obtain ⟨found, _, hp⟩ := bind_eq_ok.mp hp
  rw [hs.kinds_eq] at hp
  obtain ⟨key, hdeclared, _⟩ := NodeType.mem_inputs_iff.mp hpin
  exact ⟨hkeys _ p hp entry hentry (key, pin) hdeclared, hdefaults _ p hp entry hentry pin hpin⟩

end Patchbay
