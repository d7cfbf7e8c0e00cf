import Patchbay.Flat.Binding
import Patchbay.Proofs.Flat.Binding
import Patchbay.Proofs.Flat.Settling
import Patchbay.Proofs.Flat.TypingLikeness
import Patchbay.Proofs.Label.Table
import Patchbay.Proofs.Project.Reordering

/-!
# Binding graphs that are alike

The typing of terminals looks at the types of pins, at the order of ids and at the kind of a literal
value, and none of them depends on the order of the document (`Typing.Likeness.reordered`). Where the
inputs of every node have keys that differ, and none is "not a number", the nodes of graphs that are
alike are bound together (`Typing.bindAll_together`): the tables of a node get one entry for each
input, so that the order of the inputs is the order of the entries and nothing else.
-/

namespace Patchbay

namespace Pin

/-- Whether the keys of two pins are one key. -/
def sameKey (pin other : Pin) : Bool :=
  match Label.ofValue pin.key, Label.ofValue other.key with
  | .ok a, .ok b => a.same b
  | _, _ => false

theorem sameKey_eq {pin other : Pin} {a b : Label} (ha : Label.ofValue pin.key = .ok a)
    (hb : Label.ofValue other.key = .ok b) : pin.sameKey other = a.same b := by
  unfold sameKey
  rw [ha, hb]

/-- Whether the key of a pin is "not a number". -/
def keyedByNaN (pin : Pin) : Bool :=
  match pin.key with
  | .float x => x.isNaN
  | _ => false

end Pin

namespace NodeType

/-- The inputs of a node type at an arity have keys that differ. -/
def InputsApart (t : NodeType) (arity : Int) : Prop :=
  (BoundNode.inputPins t arity).Pairwise fun pin other => pin.sameKey other = false

/-- No pin of a node type has "not a number" as its key. -/
def NaNFree (t : NodeType) : Prop := ∀ entry ∈ t.pins, entry.2.keyedByNaN = false

end NodeType

/-- No pin of a type in use has "not a number" as its key. -/
def Kinds.NaNFree (kinds : Kinds) : Prop :=
  ∀ type p, kinds.primitive type = .ok p → ∀ entry, p.entry = some entry → entry.NaNFree

/-- The nodes of a graph have inputs with keys that differ. -/
def FlatGraph.InputsApart (kinds : Kinds) (graph : FlatGraph) : Prop :=
  ∀ node ∈ graph.nodes, ∀ p, kinds.primitive node.type = .ok p → p.isTerminal = false →
    ∀ entry, p.entry = some entry → entry.InputsApart node.arity

/-- Two bound nodes differ in the order of their inputs, of their properties and inside literal
values at most. -/
structure BoundNode.Alike (node other : BoundNode) : Prop where
  id_eq : node.id = other.id
  type_eq : node.type = other.type
  pure_eq : node.pure = other.pure
  outLinks_eq : node.outLinks = other.outLinks
  inputTypes : Table.Alike Eq node.inputTypes other.inputTypes
  properties : Table.Alike Value.Reordered node.properties other.properties

/-! ## Data types of terminals -/

/-- Literal values that are reordered are of one type. -/
theorem Value.Reordered.literalType_eq {v w : Value} (h : v.Reordered w) : literalType v = literalType w := by
  cases h with
  | _ => rfl

namespace Primitive.Alike

variable {p q : Primitive} (h : Primitive.Alike p q)
include h

theorem pinType_eq (key : String) : ((p.pin? key).bind fun pin => definite pin.type) =
    (q.pin? key).bind fun pin => definite pin.type := by
  have hpin := h.pin? key
  generalize p.pin? key = found at hpin
  generalize q.pin? key = found' at hpin
  cases hpin with
  | none => rfl
  | some hpin => exact congrArg definite hpin.type_eq

theorem declaredType_eq (terminal : Terminal) :
    Typing.declaredType p terminal = Typing.declaredType q terminal := by
  have hdeclared : ((p.entry.bind fun entry => entry.pins.lookup Terminal.pinKey).bind
      fun pin => definite pin.type) =
      ((q.entry.bind fun entry => entry.pins.lookup Terminal.pinKey).bind
        fun pin => definite pin.type) := by
    have hentry := h.entry
    generalize p.entry = entry at hentry
    generalize q.entry = entry' at hentry
    cases hentry with
    | none => rfl
    | @some entry entry' hentry =>
      have hpin := hentry.lookup_pin Terminal.pinKey
      dsimp only [Option.bind_some]
      generalize entry.pins.lookup Terminal.pinKey = found at hpin
      generalize entry'.pins.lookup Terminal.pinKey = found' at hpin
      cases hpin with
      | none => rfl
      | some hpin => exact congrArg definite hpin.type_eq
  unfold Typing.declaredType
  rw [hdeclared]

end Primitive.Alike

/-- The typing of terminals finds no difference in what differs in order at most. -/
def Typing.Likeness.reordered : Typing.Likeness where
  node := FlatNode.Like .reordered
  primitive := Primitive.Alike
  id_eq hn := hn.id_eq
  literalType_eq hn := Found.map_eq (Members.Alike.lookup hn.properties _) fun _ _ hv => hv.literalType_eq
  terminal_eq hp := hp.terminal_eq
  pinType_eq hp := hp.pinType_eq
  declaredType_eq hp := hp.declaredType_eq

/-! ## Named inputs -/

namespace Label

/-- Reordered values are one label, or none of them is a label. -/
theorem ofValue_cases {v w : Value} (h : v.Reordered w) :
    v = w ∨ (∃ fault, ofValue v = .error fault) ∧ ∃ fault, ofValue w = .error fault := by
  cases h with
  | arr _ => exact .inr ⟨⟨_, rfl⟩, ⟨_, rfl⟩⟩
  | obj _ _ _ => exact .inr ⟨⟨_, rfl⟩, ⟨_, rfl⟩⟩
  | _ => exact .inl rfl

end Label

namespace BoundNode

/-- A pin with its key as a label. -/
def named (pin : Pin) : Except Fault (Label × Pin) :=
  (Label.ofValue pin.key).map fun label => (label, pin)

/-- The default of an input, unless a link ends on it. -/
def openDefault (linked : List String) (input : Label × Pin) : Option (Label × Value) :=
  if (linked.map Label.text).any (·.same input.1) then none
  else input.2.default?.map fun v => (input.1, v)

variable {linked : List String} {pins : List Pin} {inputs : List (Label × Pin)}
  {types : Table String} {values : Table Value}

/-- An entry under a key of its own goes to the end of a table, and the keys still to come are no
keys of the longer table. -/
theorem put_of_apart {α : Type} {table : Table α} {label : Label} {others : List Label}
    (h : Label.Apart (table.map Prod.fst ++ label :: others)) (a : α) :
    Table.put label a table = table ++ [(label, a)] ∧
      Label.Apart ((table ++ [(label, a)]).map Prod.fst ++ others) := by
  refine ⟨Table.put_eq_append fun entry hentry => ?_, ?_⟩
  · exact (List.pairwise_append.mp h).2.2 _ (List.mem_map_of_mem hentry) _ List.mem_cons_self
  · rwa [List.map_append, List.map_singleton, List.append_assoc, List.singleton_append]

/-- Inputs with different keys are bound with one entry for each. -/
theorem bindInputs_eq (h : pins.mapM named = .ok inputs)
    (htypes : Label.Apart (types.map Prod.fst ++ inputs.map Prod.fst))
    (hvalues : Label.Apart (values.map Prod.fst ++ inputs.map Prod.fst)) :
    bindInputs linked types values pins = .ok (types ++ inputs.map (fun input =>
      (input.1, input.2.type)), values ++ inputs.filterMap (openDefault linked)) := by
  induction pins generalizing inputs types values with
  | nil =>
    obtain rfl := Except.ok.inj h
    simp [bindInputs]
  | cons pin rest ih =>
    rw [List.mapM_cons] at h
    obtain ⟨input, hinput, h⟩ := bind_eq_ok.mp h
    obtain ⟨others, hothers, h⟩ := bind_eq_ok.mp h
    obtain rfl := pure_eq_ok.mp h
    obtain ⟨label, hlabel, rfl⟩ := map_eq_ok.mp hinput
    obtain ⟨hput, hnext⟩ := put_of_apart htypes pin.type
    have hkeep : Label.Apart (values.map Prod.fst ++ others.map Prod.fst) :=
      hvalues.sublist ((List.sublist_cons_self _ _).append_left _)
    rw [bindInputs, hlabel]
    dsimp only
    rw [hput, List.map_cons, List.filterMap_cons]
    cases hdefault : pin.default? with
    | none =>
      have hopen : openDefault linked (label, pin) = none := by simp [openDefault, hdefault]
      rw [hopen, ih hothers hnext hkeep, List.append_assoc, List.singleton_append]
    | some v =>
      dsimp only
      split
      · next hlinked =>
        have hopen : openDefault linked (label, pin) = none := by simp [openDefault, hlinked]
        rw [hopen, ih hothers hnext hkeep, List.append_assoc, List.singleton_append]
      · next hlinked =>
        have hopen : openDefault linked (label, pin) = some (label, v) := by
          simp [openDefault, hlinked, hdefault]
        obtain ⟨hputValue, hnextValue⟩ := put_of_apart hvalues v
        rw [hopen, hputValue, ih hothers hnext hnextValue]
        simp only [List.append_assoc, List.singleton_append]

theorem bindInputs_error {fault : Fault} (h : pins.mapM named = .error fault) :
    ∃ failure, bindInputs linked types values pins = .error failure := by
  induction pins generalizing types values with
  | nil => exact absurd h (by simp [Pure.pure, Except.pure])
  | cons pin rest ih =>
    rw [List.mapM_cons] at h
    rw [bindInputs]
    cases hlabel : Label.ofValue pin.key with
    | error fault => exact ⟨_, rfl⟩
    | ok label =>
      refine ih ?_
      have hinput : named pin = .ok (label, pin) := by rw [named, hlabel]; rfl
      rw [hinput] at h
      cases hrest : rest.mapM named with
      | error fault' =>
        rw [hrest] at h
        exact h
      | ok others =>
        rw [hrest] at h
        exact absurd h (by simp [bind, Except.bind, Pure.pure, Except.pure])

/-- Two inputs are bound alike. -/
structure InputAlike (input other : Label × Pin) : Prop where
  label_eq : input.1 = other.1
  type_eq : input.2.type = other.2.type
  default? : Option.Rel Value.Reordered input.2.default? other.2.default?

theorem openDefault_alike {input other : Label × Pin} (h : InputAlike input other) :
    Option.Rel (Keyed.Corresponds Value.Reordered) (openDefault linked input)
      (openDefault linked other) := by
  have hdefault := h.default?
  unfold openDefault
  rw [← h.label_eq]
  split
  · exact .none
  · generalize input.2.default? = found at hdefault
    generalize other.2.default? = found' at hdefault
    cases hdefault with
    | none => exact .none
    | some hv => exact .some ⟨rfl, hv⟩

theorem fst_of_openDefault {input : Label × Pin} {entry : Label × Value}
    (h : openDefault linked input = some entry) : entry.1 = input.1 := by
  unfold openDefault at h
  split at h
  · exact absurd h (by simp)
  · obtain ⟨v, _, rfl⟩ := Option.map_eq_some_iff.mp h
    rfl

/-- The entries of inputs that are named alike, with keys that differ, make tables that are
alike. -/
theorem tables_alike {inputs' : List (Label × Pin)} (h : Shuffled InputAlike inputs inputs')
    (hapart : Label.Apart (inputs.map Prod.fst)) (hnan : ∀ input ∈ inputs, input.1.NotNaN) :
    Table.Alike Eq (inputs.map fun input => (input.1, input.2.type))
        (inputs'.map fun input => (input.1, input.2.type)) ∧
      Table.Alike Value.Reordered (inputs.filterMap (openDefault linked))
        (inputs'.filterMap (openDefault linked)) := by
  refine ⟨⟨?_, ?_, ?_⟩, ⟨?_, ?_, ?_⟩⟩
  · rwa [List.map_map]
  · intro entry hentry
    obtain ⟨input, hinput, rfl⟩ := List.mem_map.mp hentry
    exact hnan input hinput
  · exact h.map fun _ _ hi => ⟨hi.label_eq, hi.type_eq⟩
  · rw [Label.Apart, List.pairwise_map]
    refine (List.pairwise_map.mp hapart).filterMap _ fun input other hsame a ha b hb => ?_
    rw [fst_of_openDefault ha, fst_of_openDefault hb]
    exact hsame
  · intro entry hentry
    obtain ⟨input, hinput, hopen⟩ := List.mem_filterMap.mp hentry
    exact fst_of_openDefault hopen ▸ hnan input hinput
  · exact h.filterMap fun _ _ hi => openDefault_alike hi

/-- Inputs that are named alike, with keys that differ, are bound to tables that are alike. -/
theorem bindInputs_together {pins' : List Pin}
    (h : Together (Shuffled InputAlike) (pins.mapM named) (pins'.mapM named))
    (hapart : ∀ inputs, pins.mapM named = .ok inputs → Label.Apart (inputs.map Prod.fst))
    (hnan : ∀ inputs, pins.mapM named = .ok inputs → ∀ input ∈ inputs, input.1.NotNaN) :
    Together (fun a b => Table.Alike Eq a.1 b.1 ∧ Table.Alike Value.Reordered a.2 b.2)
      (bindInputs linked [] [] pins) (bindInputs linked [] [] pins') := by
  cases hleft : pins.mapM named with
  | error fault =>
    cases hright : pins'.mapM named with
    | error fault' =>
      obtain ⟨_, hbind⟩ := @bindInputs_error linked pins [] [] _ hleft
      obtain ⟨_, hbind'⟩ := @bindInputs_error linked pins' [] [] _ hright
      rw [hbind, hbind']
      exact .error
    | ok inputs' =>
      rw [hleft, hright] at h
      cases h
  | ok inputs =>
    cases hright : pins'.mapM named with
    | error fault' =>
      rw [hleft, hright] at h
      cases h
    | ok inputs' =>
      rw [hleft, hright] at h
      cases h with
      | ok hinputs =>
        have hlabels := hapart inputs hleft
        have hlabels' := hlabels.perm (hinputs.map_perm fun _ _ hi => hi.label_eq)
        rw [@bindInputs_eq linked pins inputs [] [] hleft hlabels hlabels,
          @bindInputs_eq linked pins' inputs' [] [] hright hlabels' hlabels']
        exact .ok (tables_alike hinputs hlabels (hnan inputs hleft))

/-! ## Inputs of types that are alike -/

theorem inputs_shuffled {t other : NodeType} (h : NodeType.Alike t other) :
    Shuffled Pin.Alike t.inputs other.inputs :=
  (h.pins.map fun _ _ hp => hp.2).filter fun _ _ hp => by rw [hp.direction_eq]

theorem expand_matched {pin other : Pin} (h : Pin.Alike pin other) (hkey : pin.key = other.key)
    (arity : Int) :
    List.Forall₂ (fun a b : Pin => a.key = b.key ∧ a.type = b.type ∧
      Option.Rel Value.Reordered a.default? b.default?) (expand arity pin) (expand arity other) := by
  refine .cons ⟨hkey, h.type_eq, h.default?⟩ ?_
  rw [← h.variadic_eq, ← hkey]
  split
  · rw [List.forall₂_map_left_iff, List.forall₂_map_right_iff, List.forall₂_same]
    exact fun _ _ => ⟨rfl, h.type_eq, h.default?⟩
  · exact .nil

theorem expand_together {pin other : Pin} (h : Pin.Alike pin other) (arity : Int) :
    Together (List.Forall₂ InputAlike) ((expand arity pin).mapM named)
      ((expand arity other).mapM named) := by
  have hfail {p : Pin} (hp : ∃ fault, Label.ofValue p.key = .error fault) :
      ∃ fault, (expand arity p).mapM named = .error fault := by
    obtain ⟨fault, hfault⟩ := hp
    refine ⟨fault, ?_⟩
    rw [expand, List.mapM_cons, named, hfault]
    rfl
  rcases Label.ofValue_cases h.key with hkey | ⟨hleft, hright⟩
  · refine Matched.mapM (expand_matched h hkey arity) fun a b hab => ?_
    unfold named
    rw [hab.1]
    exact (Together.same _).map fun label _ hlabel => ⟨hlabel, hab.2.1, hab.2.2⟩
  · obtain ⟨_, hfault⟩ := hfail hleft
    obtain ⟨_, hfault'⟩ := hfail hright
    rw [hfault, hfault']
    exact .error

/-- The inputs of types that are alike are named alike. -/
theorem inputPins_together {t other : NodeType} (h : NodeType.Alike t other) (arity : Int) :
    Together (Shuffled InputAlike) ((inputPins t arity).mapM named)
      ((inputPins other arity).mapM named) := by
  rw [inputPins, inputPins, mapM_flatMap, mapM_flatMap]
  refine ((inputs_shuffled h).mapM fun _ _ hp => expand_together hp arity).map fun _ _ hrows => ?_
  rw [← List.flatMap_id, ← List.flatMap_id]
  exact hrows.flatMap fun _ _ hrow => hrow

variable {t : NodeType} {arity : Int}

theorem apart_of_inputsApart (h : t.InputsApart arity)
    (hinputs : (inputPins t arity).mapM named = .ok inputs) :
    Label.Apart (inputs.map Prod.fst) := by
  rw [Label.Apart, List.pairwise_map]
  refine Matched.pairwise (Matched.of_mapM hinputs) h fun pin other a b hne ha hb => ?_
  obtain ⟨label, hlabel, rfl⟩ := map_eq_ok.mp ha
  obtain ⟨label', hlabel', rfl⟩ := map_eq_ok.mp hb
  exact (Pin.sameKey_eq hlabel hlabel').symm.trans hne

theorem notNaN_of_ofValue {pin : Pin} {label : Label} (hpin : pin.keyedByNaN = false)
    (h : Label.ofValue pin.key = .ok label) : label.NotNaN := by
  intro hfamily
  unfold Pin.keyedByNaN at hpin
  cases hkey : pin.key with
  | float x =>
    rw [hkey] at h hpin
    obtain rfl := Except.ok.inj h
    exact congrArg not hpin
  | arr _ =>
    rw [hkey] at h
    exact absurd h (by simp [Label.ofValue])
  | obj _ =>
    rw [hkey] at h
    exact absurd h (by simp [Label.ofValue])
  | _ =>
    rw [hkey] at h
    obtain rfl := Except.ok.inj h
    exact decide_eq_true hfamily

theorem notNaN_of_naNFree (h : t.NaNFree) (hinputs : (inputPins t arity).mapM named = .ok inputs) :
    ∀ input ∈ inputs, input.1.NotNaN := by
  intro input hinput
  obtain ⟨pin, hpin, hnamed⟩ := Matched.exists_left (Matched.of_mapM hinputs) hinput
  obtain ⟨label, hlabel, rfl⟩ := map_eq_ok.mp hnamed
  refine notNaN_of_ofValue ?_ hlabel
  obtain ⟨declared, hdeclared, hexpand⟩ := List.mem_flatMap.mp hpin
  obtain ⟨key, hmem, _⟩ := NodeType.mem_inputs_iff.mp hdeclared
  rcases mem_expand_iff.mp hexpand with rfl | ⟨_, i, _, _, rfl⟩
  · exact h (key, pin) hmem
  · rfl

/-! ## Properties -/

/-- The literals of a node stand over the values that it has without them. -/
theorem overlay_perm (hvalues : Label.Apart (values.map Prod.fst)) {literals : Members}
    (hn : (literals.map Prod.fst).Nodup) :
    (overlay values literals).Perm (literals.map (fun m => (Label.text m.1, m.2)) ++
      values.filter (·.1 ∉ literals.map fun m => Label.text m.1)) := by
  induction literals generalizing values with
  | nil => simp [overlay]
  | cons literal rest ih =>
    obtain ⟨hfresh, hrest⟩ := List.nodup_cons.mp hn
    have hput := Table.put_text_perm literal.1 literal.2 hvalues
    have hkept : literal.1 ∉ rest.map Prod.fst := hfresh
    have hfilter : ((Table.put (.text literal.1) literal.2 values).filter
        (·.1 ∉ rest.map fun m => Label.text m.1)).Perm ((.text literal.1, literal.2) ::
          values.filter (·.1 ∉ (literal :: rest).map fun m => Label.text m.1)) := by
      refine (hput.filter _).trans ?_
      rw [List.filter_cons_of_pos (by simpa using hkept), List.filter_filter]
      refine .cons _ (.of_eq (List.filter_congr fun entry _ => ?_))
      rw [Bool.eq_iff_iff, Bool.and_eq_true, decide_eq_true_eq, decide_eq_true_eq,
        decide_eq_true_eq, List.map_cons, List.mem_cons, not_or]
      exact and_comm
    have hrun := ih (Table.apart_put (.text literal.1) literal.2 hvalues) hrest
    exact hrun.trans ((hfilter.append_left _).trans List.perm_middle)

theorem overlay_alike {values' : Table Value} (h : Table.Alike Value.Reordered values values')
    {literals literals' : Members} (hl : literals.Alike literals') :
    Table.Alike Value.Reordered (overlay values literals) (overlay values' literals') := by
  have hright := h.apart_right
  have hn := hl.nodup
  obtain ⟨between, hmatch, hperm⟩ := hl.shuffled
  rw [Matched.map_eq hmatch fun _ _ hr => hr.1] at hn
  have hsame : Table.Alike Value.Reordered (overlay values literals) (overlay values' between) := by
    clear hperm hright hn hl
    induction hmatch generalizing values values' with
    | nil => exact h
    | cons hr _ ih => exact ih (h.put hr.1 hr.2)
  have hover := overlay_perm hright hn
  have hover' := overlay_perm hright ((hperm.map Prod.fst).nodup_iff.mp hn)
  refine ⟨hsame.apart, hsame.notNaN, hsame.shuffled.perm_right (hover.trans ?_)⟩
  refine (List.Perm.append (hperm.map _) (.of_eq (List.filter_congr fun entry _ => ?_))).trans
    hover'.symm
  exact decide_eq_decide.mpr (not_congr (hperm.map _).mem_iff)

/-! ## Nodes -/

theorem conflict?_eq {node node' : FlatNode} (hn : FlatNode.Like .reordered node node')
    (linked : List String) : conflict? node linked = conflict? node' linked := by
  have hkeys := Members.Alike.keys_perm hn.properties
  unfold conflict?
  rw [ascendingTexts_eq fun s => hkeys.mem_iff]

theorem tableAlike_nil {α β : Type} {R : α → β → Prop} : Table.Alike R [] [] :=
  ⟨.nil, by simp, .nil⟩

section Typed

variable {t other : Typing} (h : Typing.Like .reordered t other) {node node' : FlatNode}
  (hn : FlatNode.Like .reordered node node')
include h hn

theorem terminalInput_together (linked : List String) :
    Together (Table.Alike Eq) (terminalInput t node linked) (terminalInput other node' linked) := by
  have hset : Option.Rel Value.Reordered (node.properties.lookup Terminal.pinKey)
      (node'.properties.lookup Terminal.pinKey) := Members.Alike.lookup hn.properties _
  unfold terminalInput
  rw [← Found.isSome_eq hset, ← h.types_eq, ← hn.id_eq]
  split
  · cases t.types.lookup node.id with
    | none => exact .error
    | some type =>
      exact .ok ⟨List.pairwise_singleton _ _, List.forall_mem_singleton.mpr (Label.notNaN_text _),
        .cons ⟨rfl, rfl⟩ .nil⟩
  · exact .ok tableAlike_nil

end Typed

/-- The tables of a node without its literals. -/
def inputTables (t : Typing) (node : FlatNode) (p : Primitive) :
    Except Failure (Table String × Table Value) :=
  if p.isTerminal then
    (terminalInput t node (linkedPins t.graph node.id)).map fun types => (types, [])
  else bindInputs (linkedPins t.graph node.id) [] []
    (p.entry.elim [] fun entry => inputPins entry node.arity)

/-- A node of a primitive under its tables. -/
def withTables (t : Typing) (node : FlatNode) (p : Primitive)
    (tables : Table String × Table Value) : BoundNode :=
  { id := node.id, type := p.type, pure := p.entry.elim false NodeType.pure,
    inputTypes := tables.1, outLinks := outLinksOf t.graph node.id,
    properties := overlay tables.2 node.properties }

theorem ofNode_eq {t : Typing} {node : FlatNode} {p : Primitive}
    (hp : t.primitive node.id = .ok p) : ofNode t node =
      match conflict? node (linkedPins t.graph node.id) with
      | some key => .error (.conflict node.id key node.debugId)
      | none => (inputTables t node p).map (withTables t node p) := by
  unfold ofNode inputTables
  rw [hp]
  change (match conflict? node (linkedPins t.graph node.id) with | some key => _ | none => _) = _
  split
  · rfl
  · split
    · cases terminalInput t node (linkedPins t.graph node.id) with
      | error _ => rfl
      | ok _ => rfl
    · cases bindInputs (linkedPins t.graph node.id) [] []
        (p.entry.elim [] fun entry => inputPins entry node.arity) with
      | error _ => rfl
      | ok _ => rfl

section Typed

variable {t other : Typing} (h : Typing.Like .reordered t other) {node node' : FlatNode}
  (hn : FlatNode.Like .reordered node node') {p q : Primitive} (hpq : Primitive.Alike p q)
  (hinputs : p.isTerminal = false → ∀ entry, p.entry = some entry →
    entry.InputsApart node.arity ∧ entry.NaNFree)
include h hn hpq hinputs

theorem inputTables_together :
    Together (fun a b => Table.Alike Eq a.1 b.1 ∧ Table.Alike Value.Reordered a.2 b.2)
      (inputTables t node p) (inputTables other node' q) := by
  unfold inputTables
  rw [← hn.id_eq, ← h.linkedPins_eq, ← hpq.isTerminal_eq, ← hn.arity_eq]
  split
  · exact (terminalInput_together h hn _).map fun _ _ htypes => ⟨htypes, tableAlike_nil⟩
  · next hplain =>
    have hentry := hpq.entry
    have hplain := hinputs (by simpa using hplain)
    generalize p.entry = entry at hentry hplain
    generalize q.entry = entry' at hentry
    cases hentry with
    | none => exact .ok ⟨tableAlike_nil, tableAlike_nil⟩
    | @some entry entry' hentry =>
      obtain ⟨hapart, hnan⟩ := hplain entry rfl
      exact bindInputs_together (inputPins_together hentry node.arity)
        (fun _ => apart_of_inputsApart hapart) fun _ => notNaN_of_naNFree hnan

omit hinputs in
theorem withTables_alike {tables tables' : Table String × Table Value}
    (htypes : Table.Alike Eq tables.1 tables'.1)
    (hvalues : Table.Alike Value.Reordered tables.2 tables'.2) :
    BoundNode.Alike (withTables t node p tables) (withTables other node' q tables') where
  id_eq := hn.id_eq
  type_eq := hpq.type_eq
  pure_eq := by
    have hentry := hpq.entry
    unfold withTables
    dsimp only
    generalize p.entry = entry at hentry
    generalize q.entry = entry' at hentry
    cases hentry with
    | none => rfl
    | some hentry => exact hentry.pure_eq
  outLinks_eq := by
    unfold withTables
    rw [h.outLinksOf_eq, hn.id_eq]
  inputTypes := htypes
  properties := overlay_alike hvalues hn.properties

omit hpq hinputs in
/-- A node whose inputs have keys that differ is bound together with one that is alike. -/
theorem ofNode_together {p : Primitive} (hp : t.primitive node.id = .ok p)
    (hinputs : p.isTerminal = false → ∀ entry, p.entry = some entry →
      entry.InputsApart node.arity ∧ entry.NaNFree) :
    Together BoundNode.Alike (ofNode t node) (ofNode other node') := by
  obtain ⟨q, hq, hpq⟩ : ∃ q, other.primitive node'.id = .ok q ∧ Primitive.Alike p q := by
    have hprimitive := h.primitive node.id
    rw [hp, hn.id_eq] at hprimitive
    generalize other.primitive node'.id = found at hprimitive
    cases hprimitive with
    | ok hpq => exact ⟨_, rfl, hpq⟩
  rw [ofNode_eq hp, ofNode_eq hq, ← conflict?_eq hn, ← hn.id_eq, ← h.linkedPins_eq]
  split
  · exact .error
  · exact (inputTables_together h hn hpq hinputs).map fun _ _ htables =>
      withTables_alike h hn hpq htables.1 htables.2

end Typed

end BoundNode

/-- Sound graphs that are alike, whose inputs have keys that differ, are bound together. -/
theorem Typing.bindAll_together {kinds kinds' : Kinds} {graph other : FlatGraph}
    (hkinds : Kinds.Alike kinds kinds') (hgraph : FlatGraph.Like .reordered graph other)
    (hg : graph.Sound kinds) (hn : graph.ids.Nodup) (hinputs : graph.InputsApart kinds)
    (hnan : kinds.NaNFree) :
    Together (fun a b => List.Forall₂ BoundNode.Alike a.2 b.2) (start kinds graph).bindAll
      (start kinds' other).bindAll := by
  have hstart : Typing.Like .reordered (start kinds graph) (start kinds' other) :=
    ⟨fun hn => hn.type_eq ▸ hkinds.primitive _, hgraph.nodes, hgraph.links_eq, rfl⟩
  refine hstart.bindAll fun t t' hresolve ht node hnode node' hlike => ?_
  obtain ⟨entered, hs, _⟩ := exists_sound hg hresolve
  rw [hs.graph_eq] at hnode
  obtain ⟨p, hp, _⟩ := hg.primitive node hnode
  refine BoundNode.ofNode_together ht hlike (hs.primitive_of_isOf hn ⟨node, hnode, rfl, hp⟩)
    fun hplain entry hentry => ?_
  exact ⟨hinputs node hnode p hp hplain entry hentry, hnan _ p hp entry hentry⟩

end Patchbay
