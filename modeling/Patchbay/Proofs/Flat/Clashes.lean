import Patchbay.Proofs.Flat.BindingOrder
import Patchbay.Proofs.Flat.OutLinks
import Patchbay.Proofs.Flat.Provenance
import Patchbay.Proofs.Label.Lookup
import Patchbay.Proofs.Project.Reading

/-!
# Literals, defaults and links

A pin gets its value from a literal, from a link or from its default. A literal and a link together
are a conflict, and the first one by node and key is reported; a default gives way to both
(`BoundNode.Merges`). Nodes are bound by ascending id, so a node before the conflict that cannot be
bound for another reason hides it: the key of an input may be an array or an object, which cannot be
the key of a table (`FlatNode.Keyless`, `bindAll_clashes`).
-/

namespace Patchbay

/-- A link ends on the pin of this key of the node. -/
def FlatGraph.EndsOn (graph : FlatGraph) (id : Int) (key : String) : Prop :=
  ∃ l ∈ graph.links, l.target = id ∧ l.targetPin = key

/-- The pin is of this key, and has this default. -/
def Pin.Offers (pin : Pin) (label : Label) (v : Value) : Prop :=
  (∃ key, Label.ofValue pin.key = .ok key ∧ key.same label = true) ∧ pin.default? = some v

/-- A value can be a label, unless it is an array or an object. -/
theorem Label.ofValue_composite (v : Value) :
    (∃ fault, Label.ofValue v = .error fault) ∧ v.IsComposite ∨
      (∃ label, Label.ofValue v = .ok label) ∧ ¬ v.IsComposite := by
  cases v with
  | arr _ => exact .inl ⟨⟨_, rfl⟩, trivial⟩
  | obj _ => exact .inl ⟨⟨_, rfl⟩, trivial⟩
  | _ => exact .inr ⟨⟨_, rfl⟩, id⟩

namespace FlatNode

/-- The literal of the node under a key: that of the last property of this key. -/
def Sets (node : FlatNode) (key : String) (v : Value) : Prop :=
  LastOf (fun property v => property = (key, v)) node.properties v

/-- The key of a property is a pin that a link ends on. -/
def Clashes (node : FlatNode) (graph : FlatGraph) (key : String) : Prop :=
  key ∈ node.properties.map Prod.fst ∧ graph.EndsOn node.id key

/-- The node is off terminals, and this is the declaration of its type. -/
def DeclaredBy (node : FlatNode) (kinds : Kinds) (entry : NodeType) : Prop :=
  ∃ p, kinds.primitive node.type = .ok p ∧ p.isTerminal = false ∧ p.entry = some entry

/-- The key of an input is an array or an object. -/
def Keyless (node : FlatNode) (kinds : Kinds) : Prop :=
  ∃ entry, node.DeclaredBy kinds entry ∧ ∃ pin ∈ entry.inputs, pin.key.IsComposite

/-- The declared default of a key: of the inputs of this key at the arity of the node that have one,
the last one counts. -/
def DefaultOf (node : FlatNode) (kinds : Kinds) (label : Label) (v : Value) : Prop :=
  ∃ entry, node.DeclaredBy kinds entry ∧
    LastOf (fun pin v => pin.Offers label v) (BoundNode.inputPins entry node.arity) v

/-- Neither a property nor a link is on this key. -/
def Leaves (node : FlatNode) (graph : FlatGraph) (label : Label) : Prop :=
  ∀ key, label = .text key → key ∉ node.properties.map Prod.fst ∧ ¬ graph.EndsOn node.id key

end FlatNode

/-- The properties of a bound node are the literals of the flat node and, on the keys that neither a
literal nor a link is on, the declared defaults. There is nothing else, so nothing on the key of a
link. -/
structure BoundNode.Merges (kinds : Kinds) (graph : FlatGraph) (flat : FlatNode)
    (node : BoundNode) : Prop where
  id_eq : node.id = flat.id
  apart : Label.Apart (node.properties.map Prod.fst)
  literal : ∀ key v, flat.Sets key v → node.properties.get? (.text key) = some v
  default : ∀ label v, flat.Leaves graph label → flat.DefaultOf kinds label v →
    node.properties.get? label = some v
  only : ∀ label v, (label, v) ∈ node.properties →
    (∃ key, label = .text key ∧ flat.Sets key v) ∨
      flat.Leaves graph label ∧ flat.DefaultOf kinds label v
  unlinked : ∀ key, graph.EndsOn flat.id key → .text key ∉ node.properties.map Prod.fst

namespace BoundNode

open Table (puts)

variable {kinds : Kinds} {graph : FlatGraph} {node : FlatNode} {linked : List String}
  {types : Table String} {values : Table Value} {label : Label} {v : Value}

theorem mem_linkedPins_iff {id : Int} {key : String} :
    key ∈ linkedPins graph id ↔ graph.EndsOn id key := by
  simp only [linkedPins, FlatGraph.incoming, List.mem_map, List.mem_filter, decide_eq_true_eq,
    FlatGraph.EndsOn, and_assoc]

/-! ## Conflicts -/

/-- The conflict of a node is the least one. -/
theorem conflict?_cases (node : FlatNode) (graph : FlatGraph) :
    (∃ key, conflict? node (linkedPins graph node.id) = some key ∧ node.Clashes graph key ∧
      ∀ other, node.Clashes graph other → Text.le key other = true) ∨
    (conflict? node (linkedPins graph node.id) = none ∧ ∀ key, ¬ node.Clashes graph key) := by
  have hmem {key : String} : node.Clashes graph key ↔
      key ∈ ascendingTexts (node.properties.map (·.1)) ∧
        (linkedPins graph node.id).contains key = true := by
    rw [mem_ascendingTexts, List.contains_iff_mem, mem_linkedPins_iff]
    rfl
  cases hfind : conflict? node (linkedPins graph node.id) with
  | none =>
    refine .inr ⟨rfl, fun key hclash => ?_⟩
    obtain ⟨hkey, hlinked⟩ := hmem.mp hclash
    exact List.find?_eq_none.mp hfind key hkey hlinked
  | some key =>
    refine .inl ⟨key, rfl, ?_, fun other hclash => ?_⟩
    · exact hmem.mpr ⟨List.mem_of_find?_eq_some hfind, List.find?_some hfind⟩
    · obtain ⟨hother, hlinked⟩ := hmem.mp hclash
      obtain ⟨_, before, after, heq, hbefore⟩ := List.find?_eq_some_iff_append.mp hfind
      have hsorted := pairwise_ascendingTexts (node.properties.map (·.1))
      rw [heq] at hother hsorted
      rcases List.mem_append.mp hother with hother | hother
      · exact absurd hlinked (by simpa using hbefore other hother)
      · rcases List.mem_cons.mp hother with rfl | hother
        · exact Text.le_refl _
        · exact (List.pairwise_cons.mp (List.pairwise_append.mp hsorted).2.1).1 other hother

/-! ## Defaults -/

/-- The default that a pin puts into the table of a node with these linked pins. -/
def putDefault (linked : List String) (pin : Pin) : Option (Label × Value) :=
  (Label.ofValue pin.key).toOption.bind fun label => openDefault linked (label, pin)

/-- An input whose key can be the key of a table puts its type and its default. -/
theorem bindInputs_step {pin : Pin} (h : Label.ofValue pin.key = .ok label) (rest : List Pin) :
    ∃ values', bindInputs linked types values (pin :: rest) =
        bindInputs linked (Table.put label pin.type types) values' rest ∧
      puts ((pin :: rest).filterMap (putDefault linked)) values =
        puts (rest.filterMap (putDefault linked)) values' := by
  have hput : putDefault linked pin = openDefault linked (label, pin) := by
    rw [putDefault, h]
    rfl
  rw [bindInputs, h, List.filterMap_cons, hput]
  refine ⟨_, rfl, ?_⟩
  unfold openDefault
  cases (linked.map Label.text).any (·.same label) <;> cases pin.default? <;> rfl

/-- Inputs are bound if their keys can be keys of a table, by their defaults one after the other. -/
theorem bindInputs_cases (linked : List String) (pins : List Pin) (types : Table String)
    (values : Table Value) :
    (∃ fault, bindInputs linked types values pins = .error (.fault fault)) ∧
      (∃ pin ∈ pins, pin.key.IsComposite) ∨
    (∃ types', bindInputs linked types values pins =
        .ok (types', puts (pins.filterMap (putDefault linked)) values)) ∧
      ∀ pin ∈ pins, ¬ pin.key.IsComposite := by
  induction pins generalizing types values with
  | nil => exact .inr ⟨⟨types, rfl⟩, by simp⟩
  | cons pin rest ih =>
    rcases Label.ofValue_composite pin.key with ⟨⟨fault, hlabel⟩, hpin⟩ | ⟨⟨label, hlabel⟩, hpin⟩
    · refine .inl ⟨⟨fault, ?_⟩, pin, List.mem_cons_self, hpin⟩
      rw [bindInputs, hlabel]
    · obtain ⟨values', hstep, hputs⟩ := @bindInputs_step linked types values label pin hlabel rest
      rw [hstep, hputs]
      rcases ih (Table.put label pin.type types) values' with
        ⟨hfault, bad, hbad, hkey⟩ | ⟨hok, hrest⟩
      · exact .inl ⟨hfault, bad, List.mem_cons_of_mem _ hbad, hkey⟩
      · exact .inr ⟨hok, List.forall_mem_cons.mpr ⟨hpin, hrest⟩⟩

/-- A pin puts what it offers, unless a link is on the key. -/
theorem putDefault_iff {pin : Pin} :
    (∃ entry, putDefault linked pin = some entry ∧ entry.1.same label = true ∧ entry.2 = v) ↔
      (∀ s, label = .text s → s ∉ linked) ∧ pin.Offers label v := by
  have hfree {key : Label} (hsame : key.same label = true) :
      ¬ (linked.map Label.text).any (·.same key) = true ↔
        ∀ s, label = .text s → s ∉ linked := by
    rw [List.any_map, List.any_eq_true]
    constructor
    · rintro h s rfl hs
      exact h ⟨s, hs, (Label.same_comm _ _).trans hsame⟩
    · rintro h ⟨s, hs, heq⟩
      refine h s (Label.eq_text_of_same ?_) hs
      exact (Label.same_comm _ _).trans (Label.same_trans heq hsame)
  unfold putDefault openDefault Pin.Offers
  constructor
  · rintro ⟨entry, hentry, hsame, rfl⟩
    obtain ⟨key, hkey, hopen⟩ := Option.bind_eq_some_iff.mp hentry
    split at hopen
    · exact absurd hopen (by simp)
    · next hlinked =>
      obtain ⟨w, hdefault, rfl⟩ := Option.map_eq_some_iff.mp hopen
      refine ⟨(hfree hsame).mp hlinked, ⟨key, ?_, hsame⟩, hdefault⟩
      cases hof : Label.ofValue pin.key with
      | error _ => simp [hof, Except.toOption] at hkey
      | ok _ => simpa [hof, Except.toOption] using hkey
  · rintro ⟨hlinked, ⟨key, hkey, hsame⟩, hdefault⟩
    refine ⟨(key, v), ?_, hsame, rfl⟩
    rw [hkey]
    dsimp only [Except.toOption, Option.bind]
    rw [if_neg ((hfree hsame).mpr hlinked), hdefault]
    rfl

/-- The defaults that are put are those of the inputs, on the keys without a link. -/
theorem get?_putDefaults {pins : List Pin} :
    (puts (pins.filterMap (putDefault linked)) []).get? label = some v ↔
      (∀ s, label = .text s → s ∉ linked) ∧
        LastOf (fun pin v => pin.Offers label v) pins v := by
  rw [Table.get?_puts, lastOf_filterMap_iff, or_iff_left fun h => nomatch h.2]
  simp only [putDefault_iff]
  exact lastOf_and_iff

/-! ## Nodes without literals -/

theorem declaredBy_iff {p : Primitive} {entry : NodeType}
    (hp : kinds.primitive node.type = .ok p) :
    node.DeclaredBy kinds entry ↔ p.isTerminal = false ∧ p.entry = some entry := by
  refine ⟨fun h => ?_, fun h => ⟨p, hp, h⟩⟩
  obtain ⟨q, hq, h⟩ := h
  exact Except.ok.inj (hp.symm.trans hq) ▸ h

theorem declaredBy_unique {entry other : NodeType} (h : node.DeclaredBy kinds entry)
    (h' : node.DeclaredBy kinds other) : entry = other := by
  obtain ⟨p, hp, _, hentry⟩ := h
  exact Option.some.inj (hentry.symm.trans ((declaredBy_iff hp).mp h').2)

/-- The expansions of an input have texts as keys. -/
theorem keyless_iff {entry : NodeType} (h : node.DeclaredBy kinds entry) :
    node.Keyless kinds ↔ ∃ pin ∈ inputPins entry node.arity, pin.key.IsComposite := by
  constructor
  · rintro ⟨other, hother, pin, hpin, hkey⟩
    obtain rfl := declaredBy_unique h hother
    exact ⟨pin, List.mem_flatMap.mpr ⟨pin, hpin, mem_expand_iff.mpr (.inl rfl)⟩, hkey⟩
  · rintro ⟨pin, hpin, hkey⟩
    obtain ⟨declared, hdeclared, hexpand⟩ := List.mem_flatMap.mp hpin
    rcases mem_expand_iff.mp hexpand with rfl | ⟨_, _, _, _, rfl⟩
    · exact ⟨entry, h, pin, hdeclared, hkey⟩
    · exact hkey.elim

/-- The values that a node has without its literals. -/
structure Defaults (kinds : Kinds) (graph : FlatGraph) (node : FlatNode) (values : Table Value) :
    Prop where
  apart : Label.Apart (values.map Prod.fst)
  get?_iff : ∀ label v, values.get? label = some v ↔
    (∀ s, label = .text s → ¬ graph.EndsOn node.id s) ∧ node.DefaultOf kinds label v

/-- Without a declaration there are no inputs. -/
theorem Defaults.of_undeclared (h : ∀ entry, ¬ node.DeclaredBy kinds entry) :
    Defaults kinds graph node [] ∧ ¬ node.Keyless kinds := by
  refine ⟨⟨.nil, fun label v => iff_of_false (by simp [Table.get?]) ?_⟩, ?_⟩
  · rintro ⟨_, entry, hentry, _⟩
    exact h entry hentry
  · rintro ⟨entry, hentry, _⟩
    exact h entry hentry

theorem Defaults.of_declared {entry : NodeType} (h : node.DeclaredBy kinds entry) :
    Defaults kinds graph node (puts
      ((inputPins entry node.arity).filterMap (putDefault (linkedPins graph node.id))) []) := by
  refine ⟨Table.apart_puts .nil, fun label v => ?_⟩
  rw [get?_putDefaults]
  simp only [mem_linkedPins_iff]
  refine and_congr_right fun _ => ⟨fun hlast => ⟨entry, h, hlast⟩, ?_⟩
  rintro ⟨other, hother, hlast⟩
  exact declaredBy_unique h hother ▸ hlast

/-- A node has its defaults, unless it is keyless. -/
theorem inputTables_cases {entered : List Int} {t : Typing} {p : Primitive}
    (hs : Typing.Sound kinds graph entered t) (hp : kinds.primitive node.type = .ok p)
    (hentered : p.isTerminal = true → node.id ∈ entered) :
    (∃ fault, inputTables t node p = .error (.fault fault)) ∧ node.Keyless kinds ∨
    (∃ types values, inputTables t node p = .ok (types, values) ∧
      Defaults kinds graph node values) ∧ ¬ node.Keyless kinds := by
  unfold inputTables
  rw [hs.graph_eq]
  split
  · next hterminal =>
    obtain ⟨types, htypes, _⟩ :=
      terminalInput_eq_ok hs (hentered hterminal) (linkedPins graph node.id)
    obtain ⟨hdefaults, hkeyed⟩ := Defaults.of_undeclared fun entry hdecl =>
      absurd (hterminal.symm.trans ((declaredBy_iff hp).mp hdecl).1) (by decide)
    rw [htypes]
    exact .inr ⟨⟨types, [], rfl, hdefaults⟩, hkeyed⟩
  · next hplain =>
    cases hentry : p.entry with
    | none =>
      obtain ⟨hdefaults, hkeyed⟩ := Defaults.of_undeclared fun entry hdecl =>
        absurd (hentry.symm.trans ((declaredBy_iff hp).mp hdecl).2) (by simp)
      exact .inr ⟨⟨[], [], rfl, hdefaults⟩, hkeyed⟩
    | some entry =>
      have hdecl := (declaredBy_iff hp).mpr ⟨by simpa using hplain, hentry⟩
      rw [keyless_iff hdecl]
      rcases bindInputs_cases (linkedPins graph node.id) (inputPins entry node.arity) [] [] with
        hfault | ⟨⟨types, hok⟩, hkeyed⟩
      · exact .inl hfault
      · exact .inr ⟨⟨types, _, hok, .of_declared hdecl⟩, by simpa using hkeyed⟩

/-! ## Literals -/

theorem overlay_eq_puts (values : Table Value) (literals : Members) :
    overlay values literals =
      puts (literals.map fun property => (Label.text property.1, property.2)) values := by
  rw [puts, List.foldl_map]
  rfl

/-- Over the values of a node stand its literals. -/
theorem get?_overlay : (overlay values node.properties).get? label = some v ↔
    (∃ key, label = .text key ∧ node.Sets key v) ∨
      (∀ key, label = .text key → key ∉ node.properties.map Prod.fst) ∧
        values.get? label = some v := by
  have hsame (key : String) : (Label.text key).same label = true ↔ label = .text key := by
    refine ⟨fun h => Label.eq_text_of_same ((Label.same_comm _ _).trans h), ?_⟩
    rintro rfl
    exact Label.same_refl _
  rw [overlay_eq_puts, Table.get?_puts, ← List.filterMap_eq_map, lastOf_filterMap_iff]
  refine or_congr ?_ (and_congr_left' ?_)
  · have hset (property : String × Value) (w : Value) :
        (∃ entry, (some ∘ fun property : String × Value => (Label.text property.1, property.2))
          property = some entry ∧ entry.1.same label = true ∧ entry.2 = w) ↔
        label = .text property.1 ∧ property.2 = w := by
      simp [hsame]
    simp only [hset]
    constructor
    · intro h
      obtain ⟨property, _, rfl, _⟩ := h.exists_mem
      refine ⟨property.1, rfl, ?_⟩
      unfold FlatNode.Sets
      simpa only [Label.text.injEq, Prod.ext_iff, eq_comm] using h
    · rintro ⟨key, rfl, h⟩
      unfold FlatNode.Sets at h
      simpa only [Label.text.injEq, Prod.ext_iff, eq_comm] using h
  · rw [List.filterMap_eq_map, List.forall_mem_map]
    simp only [← Bool.not_eq_true, hsame]
    constructor
    · rintro h key rfl hkey
      obtain ⟨property, hproperty, rfl⟩ := List.mem_map.mp hkey
      exact h property hproperty rfl
    · intro h property hproperty heq
      exact h _ heq (List.mem_map_of_mem hproperty)

/-- A node without conflicts that is bound over its defaults merges them with its literals. -/
theorem Merges.of_defaults {bound : BoundNode} (h : Defaults kinds graph node values)
    (hfree : ∀ key, ¬ node.Clashes graph key) (hid : bound.id = node.id)
    (hproperties : bound.properties = overlay values node.properties) :
    bound.Merges kinds graph node := by
  have hapart : Label.Apart (bound.properties.map Prod.fst) := by
    rw [hproperties, overlay_eq_puts]
    exact Table.apart_puts h.apart
  have hfound (label : Label) (v : Value) : bound.properties.get? label = some v ↔
      (∃ key, label = .text key ∧ node.Sets key v) ∨
        node.Leaves graph label ∧ node.DefaultOf kinds label v := by
    rw [hproperties, get?_overlay, h.get?_iff, ← and_assoc]
    simp only [FlatNode.Leaves, forall_and]
  have honly (label : Label) (v : Value) (hmem : (label, v) ∈ bound.properties) :=
    (hfound label v).mp (Table.get?_of_mem hapart hmem)
  refine ⟨hid, hapart, fun key v hset => (hfound _ v).mpr (.inl ⟨key, rfl, hset⟩),
    fun label v hleaves hdefault => (hfound label v).mpr (.inr ⟨hleaves, hdefault⟩), honly,
    fun key hends hmem => ?_⟩
  obtain ⟨⟨_, v⟩, hentry, rfl⟩ := List.mem_map.mp hmem
  rcases honly _ v hentry with ⟨set, heq, hset⟩ | ⟨hleaves, _⟩
  · obtain rfl := Label.text.inj heq
    obtain ⟨property, hproperty, rfl⟩ := LastOf.exists_mem hset
    exact hfree _ ⟨List.mem_map_of_mem hproperty, hends⟩
  · exact (hleaves key rfl).2 hends

/-! ## Nodes -/

/-- What becomes of a node: its least conflict is reported; a keyless one without conflicts cannot
be bound; any other is bound. -/
inductive Becomes (kinds : Kinds) (graph : FlatGraph) (node : FlatNode) :
    Except Failure BoundNode → Prop
  | clash {key : String} (clashes : node.Clashes graph key)
      (least : ∀ other, node.Clashes graph other → Text.le key other = true) :
      Becomes kinds graph node (.error (.conflict node.id key node.debugId))
  | keyless {fault : Fault} (free : ∀ key, ¬ node.Clashes graph key)
      (keyless : node.Keyless kinds) : Becomes kinds graph node (.error (.fault fault))
  | bound {bound : BoundNode} (free : ∀ key, ¬ node.Clashes graph key)
      (keyed : ¬ node.Keyless kinds) (merges : bound.Merges kinds graph node) :
      Becomes kinds graph node (.ok bound)

theorem Becomes.of_ok {bound : BoundNode} (h : Becomes kinds graph node (.ok bound)) :
    (∀ key, ¬ node.Clashes graph key) ∧ ¬ node.Keyless kinds ∧ bound.Merges kinds graph node := by
  cases h with
  | bound free keyed merges => exact ⟨free, keyed, merges⟩

theorem ofNode_becomes {entered : List Int} {t : Typing} {p : Primitive}
    (hs : Typing.Sound kinds graph entered t) (hp : t.primitive node.id = .ok p)
    (hkind : kinds.primitive node.type = .ok p)
    (hentered : p.isTerminal = true → node.id ∈ entered) :
    Becomes kinds graph node (ofNode t node) := by
  rw [ofNode_eq hp, hs.graph_eq]
  rcases conflict?_cases node graph with ⟨key, hkey, hclashes, hleast⟩ | ⟨hnone, hfree⟩
  · rw [hkey]
    exact .clash hclashes hleast
  · rw [hnone]
    rcases inputTables_cases hs hkind hentered with
      ⟨⟨fault, hfault⟩, hkeyless⟩ | ⟨⟨types, values, hok, hdefaults⟩, hkeyed⟩
    · dsimp only
      rw [hfault]
      exact .keyless hfree hkeyless
    · dsimp only
      rw [hok]
      exact .bound hfree hkeyed (.of_defaults hdefaults hfree rfl rfl)

/-- The first node that cannot be bound stops the binding. -/
theorem ofNodes_first (t : Typing) (nodes : List FlatNode) :
    (∃ bound, ofNodes t nodes = .ok bound) ∨
    ∃ before node after failure, nodes = before ++ node :: after ∧
      (∀ other ∈ before, ∃ bound, ofNode t other = .ok bound) ∧
      ofNode t node = .error failure ∧ ofNodes t nodes = .error failure := by
  induction nodes with
  | nil => exact .inl ⟨[], rfl⟩
  | cons head rest ih =>
    unfold ofNodes
    cases hhead : ofNode t head with
    | error failure => exact .inr ⟨[], head, rest, failure, rfl, by simp, hhead, rfl⟩
    | ok bound =>
      rcases ih with ⟨others, hok⟩ | ⟨before, node, after, failure, rfl, hbefore, hnode, hfail⟩
      · exact .inl ⟨bound :: others, by rw [hok]; rfl⟩
      · refine .inr ⟨head :: before, node, after, failure, rfl, ?_, hnode, by rw [hfail]; rfl⟩
        exact List.forall_mem_cons.mpr ⟨⟨bound, hhead⟩, hbefore⟩

end BoundNode

open BoundNode (Becomes)

/-- The least conflict of a graph: the least node by id that has one, and its least key. -/
structure FlatGraph.LeastClash (graph : FlatGraph) (node : FlatNode) (key : String) : Prop where
  mem : node ∈ graph.nodes
  clashes : node.Clashes graph key
  least_id : ∀ other ∈ graph.nodes, ∀ k, other.Clashes graph k → node.id ≤ other.id
  least_key : ∀ k, node.Clashes graph k → Text.le key k = true

namespace Typing

variable {kinds : Kinds} {graph : FlatGraph} {t : Typing} (hg : graph.Sound kinds)
  (hn : graph.ids.Nodup) (ht : (start kinds graph).resolve = .ok t)
include hg hn ht

/-- All nodes are bound, or the first one by id that has a conflict or is keyless stops it. -/
theorem bindAll_becomes :
    (∃ bound, (start kinds graph).bindAll = .ok (t, bound) ∧
      List.Forall₂ (fun node b => Becomes kinds graph node (.ok b))
        (graph.nodes.mergeSort fun a b => a.id ≤ b.id) bound) ∨
    ∃ node ∈ graph.nodes, ∃ failure, (start kinds graph).bindAll = .error ⟨t, failure⟩ ∧
      Becomes kinds graph node (.error failure) ∧
      ∀ other ∈ graph.nodes, other.id < node.id → ∃ b, Becomes kinds graph other (.ok b) := by
  obtain ⟨entered, hs, hentered⟩ := exists_sound hg ht
  have hbecomes : ∀ node ∈ graph.nodes, Becomes kinds graph node (BoundNode.ofNode t node) := by
    intro node hnode
    obtain ⟨p, hkind, _⟩ := hg.primitive node hnode
    have hp := hs.primitive_of_isOf hn ⟨node, hnode, rfl, hkind⟩
    exact BoundNode.ofNode_becomes hs hp hkind (hentered node hnode p hp)
  have hmem (node : FlatNode) :
      node ∈ graph.nodes.mergeSort (fun a b => a.id ≤ b.id) ↔ node ∈ graph.nodes :=
    (List.mergeSort_perm _ _).mem_iff
  unfold bindAll
  simp only [ht, bind, Except.bind, hs.graph_eq]
  rcases BoundNode.ofNodes_first t (graph.nodes.mergeSort fun a b => a.id ≤ b.id) with
    ⟨bound, hbound⟩ | ⟨before, node, after, failure, heq, hbefore, hnode, hfail⟩
  · refine .inl ⟨bound, by rw [hbound], ?_⟩
    refine (List.forall₂_and_left _ _ |>.mpr
      ⟨fun node hnode => (hmem node).mp hnode, BoundNode.forall₂_of_ofNodes hbound⟩).imp
        fun node b hb => ?_
    exact hb.2 ▸ hbecomes node hb.1
  · have hin : node ∈ graph.nodes := (hmem node).mp (heq ▸ by simp)
    refine .inr ⟨node, hin, failure, by rw [hfail], hnode ▸ hbecomes node hin,
      fun other hother hlt => ?_⟩
    have hsorted := Keyed.pairwise_mergeSort_le FlatNode.id graph.nodes
    rw [heq] at hsorted
    have hafter := (List.pairwise_cons.mp (List.pairwise_append.mp hsorted).2.1).1
    have hmember := (hmem other).mpr hother
    rw [heq, List.mem_append, List.mem_cons] at hmember
    rcases hmember with hmember | rfl | hmember
    · obtain ⟨b, hb⟩ := hbefore other hmember
      exact ⟨b, hb ▸ hbecomes other hother⟩
    · exact absurd hlt (Int.lt_irrefl _)
    · exact absurd hlt (Int.not_lt.mpr (hafter other hmember))

/-- A conflict that is reported is the least one, and no node before it is keyless. -/
theorem leastClash_of_bindAll {stopped : Stopped Typing}
    (h : (start kinds graph).bindAll = .error stopped)
    (hkind : stopped.failure.kind = .conflictingBinding) :
    ∃ node key, graph.LeastClash node key ∧
      stopped.failure = .conflict node.id key node.debugId ∧
      ∀ other ∈ graph.nodes, other.id < node.id → ¬ other.Keyless kinds := by
  rcases bindAll_becomes hg hn ht with
    ⟨_, hok, _⟩ | ⟨node, hnode, failure, hfail, hbecomes, hbefore⟩
  · exact absurd (hok.symm.trans h) (by simp)
  obtain rfl := Except.error.inj (hfail.symm.trans h)
  cases hbecomes with
  | keyless _ _ => exact absurd hkind (by simp [Failure.kind])
  | @clash key clashes least =>
    refine ⟨node, key, ⟨hnode, clashes, fun other hother k hclash => ?_, least⟩, rfl,
      fun other hother hlt => ?_⟩
    · by_contra hlt
      obtain ⟨_, hother⟩ := hbefore other hother (Int.not_le.mp hlt)
      exact hother.of_ok.1 k hclash
    · obtain ⟨_, hother⟩ := hbefore other hother hlt
      exact hother.of_ok.2.1

/-- A conflict is reported if no node before it is keyless. -/
theorem conflict_of_clashes {node : FlatNode} (hnode : node ∈ graph.nodes) {key : String}
    (hclash : node.Clashes graph key)
    (hkeyed : ∀ other ∈ graph.nodes, other.id < node.id → ¬ other.Keyless kinds) :
    ∃ stopped, (start kinds graph).bindAll = .error stopped ∧
      stopped.failure.kind = .conflictingBinding := by
  rcases bindAll_becomes hg hn ht with
    ⟨bound, _, hall⟩ | ⟨first, hfirst, failure, hfail, hbecomes, hbefore⟩
  · obtain ⟨_, _, hbecomes⟩ :=
      Matched.exists_right hall ((List.mergeSort_perm _ _).mem_iff.mpr hnode)
    exact absurd hclash (hbecomes.of_ok.1 key)
  cases hbecomes with
  | clash _ _ => exact ⟨_, hfail, rfl⟩
  | keyless free keyless =>
    rcases Int.lt_trichotomy first.id node.id with hlt | heq | hlt
    · exact absurd keyless (hkeyed first hfirst hlt)
    · obtain rfl := List.inj_on_of_nodup_map hn hfirst hnode heq
      exact absurd hclash (free key)
    · obtain ⟨_, hbecomes⟩ := hbefore node hnode hlt
      exact absurd hclash (hbecomes.of_ok.1 key)

/-- Without conflicts and keyless nodes, all nodes are bound. -/
theorem bindAll_of_free
    (hfree : ∀ node ∈ graph.nodes, (∀ key, ¬ node.Clashes graph key) ∧ ¬ node.Keyless kinds) :
    ∃ bound, (start kinds graph).bindAll = .ok (t, bound) := by
  rcases bindAll_becomes hg hn ht with ⟨bound, hok, _⟩ | ⟨node, hnode, _, _, hbecomes, _⟩
  · exact ⟨bound, hok⟩
  obtain ⟨hclash, hkeyed⟩ := hfree node hnode
  cases hbecomes with
  | clash clashes _ => exact absurd clashes (hclash _)
  | keyless _ keyless => exact absurd keyless hkeyed

/-- Nodes that are bound merge their literals and defaults. -/
theorem merges_of_bindAll {t' : Typing} {bound : List BoundNode}
    (h : (start kinds graph).bindAll = .ok (t', bound)) :
    t' = t ∧ List.Forall₂ (BoundNode.Merges kinds graph)
      (graph.nodes.mergeSort fun a b => a.id ≤ b.id) bound := by
  rcases bindAll_becomes hg hn ht with ⟨_, hok, hall⟩ | ⟨_, _, _, hfail, _⟩
  · obtain ⟨rfl, rfl⟩ := Prod.mk.inj (Except.ok.inj (hok.symm.trans h))
    exact ⟨rfl, hall.imp fun _ _ hbecomes => hbecomes.of_ok.2.2⟩
  · exact absurd (hfail.symm.trans h) (by simp)

end Typing

/-- Literals, defaults and links never clash. Where the types of terminals are known, binding
reports a conflict exactly if some node has one and no node before it is keyless, and then the least
one. Without conflicts and keyless nodes it succeeds, and where it succeeds each node has its
literals and, on the keys without a literal and a link, the declared defaults, and nothing else. -/
theorem bindAll_clashes {project : Project} {entryPath : String} {strict : Bool}
    {closure : Closure} {graph : FlatGraph} {t : Typing}
    (hc : Closure.ofEntry project entryPath strict = .ok closure)
    (hf : closure.flatten = .ok graph)
    (ht : (Typing.start closure.kinds graph).resolve = .ok t) :
    ((∃ stopped, (Typing.start closure.kinds graph).bindAll = .error stopped ∧
        stopped.failure.kind = .conflictingBinding) ↔
      ∃ node ∈ graph.nodes, (∃ key, node.Clashes graph key) ∧
        ∀ other ∈ graph.nodes, other.id < node.id → ¬ other.Keyless closure.kinds) ∧
    (∀ stopped, (Typing.start closure.kinds graph).bindAll = .error stopped →
      stopped.failure.kind = .conflictingBinding → ∃ node key, graph.LeastClash node key ∧
        stopped.failure = .conflict node.id key node.debugId) ∧
    ((∀ node ∈ graph.nodes, (∀ key, ¬ node.Clashes graph key) ∧ ¬ node.Keyless closure.kinds) →
      ∃ bound, (Typing.start closure.kinds graph).bindAll = .ok (t, bound)) ∧
    ∀ t' bound, (Typing.start closure.kinds graph).bindAll = .ok (t', bound) → t' = t ∧
      List.Forall₂ (BoundNode.Merges closure.kinds graph)
        (graph.nodes.mergeSort fun a b => a.id ≤ b.id) bound := by
  obtain ⟨hg, hn⟩ := Closure.sound_of_resolve hc hf ht
  refine ⟨⟨?_, ?_⟩, ?_, Typing.bindAll_of_free hg hn ht,
    fun t' bound hok => Typing.merges_of_bindAll hg hn ht hok⟩
  · rintro ⟨stopped, hfail, hkind⟩
    obtain ⟨node, key, hleast, _, hkeyed⟩ := Typing.leastClash_of_bindAll hg hn ht hfail hkind
    exact ⟨node, hleast.mem, ⟨key, hleast.clashes⟩, hkeyed⟩
  · rintro ⟨node, hnode, ⟨key, hclash⟩, hkeyed⟩
    exact Typing.conflict_of_clashes hg hn ht hnode hclash hkeyed
  · intro stopped hfail hkind
    obtain ⟨node, key, hleast, hfailure, _⟩ := Typing.leastClash_of_bindAll hg hn ht hfail hkind
    exact ⟨node, key, hleast, hfailure⟩

namespace Knob

/-- A knob feeds a lamp, which has one literal. The input of the knob is of this key, and the
literal is on this pin. -/
def document (key : Value) (pin : String) : Value :=
  .obj [
    ("patches", .obj [("@/main", .obj [
      ("nodes", .obj [("1", .obj [("type", .str "knob")]),
        ("2", .obj [("type", .str "led"), ("arityLevel", .int 2),
          ("properties", .obj [(pin, .int 5)])])]),
      ("links", .obj [("1", .obj [("pins", .arr [
        .obj [("nodeId", .int 1), ("pinKey", .str "out")],
        .obj [("nodeId", .int 2), ("pinKey", .str "IN")]])])])])]),
    ("nodeTypes", .obj [
      ("knob", .obj [("pins", .obj [
        ("turn", .obj [("direction", .str "input"), ("key", key)]),
        ("out", .obj [("direction", .str "output")])])]),
      ("led", .obj [("pins", .obj [
        ("IN", .obj [("direction", .str "input"), ("default", .int 0)]),
        ("hue", .obj [("direction", .str "input"), ("default", .int 1),
          ("variadic", .bool true)])])])])]

def main (pin : String) : Patch where
  path := "@/main"
  id := none
  nodes := [⟨1, "knob", [], 1⟩, ⟨2, "led", [(pin, .int 5)], 2⟩]
  links := [⟨"1", ⟨1, .named "out"⟩, ⟨2, .named "IN"⟩⟩]

def knob (key : Value) : NodeType where
  id := "knob"
  pins := [("turn", ⟨key, .input, anyType, none, false⟩),
    ("out", ⟨.str "out", .output, anyType, none, false⟩)]
  pure := false
  raises := false
  templates := []

def led : NodeType where
  id := "led"
  pins := [("IN", ⟨.str "IN", .input, anyType, some (.int 0), false⟩),
    ("hue", ⟨.str "hue", .input, anyType, some (.int 1), true⟩)]
  pure := false
  raises := false
  templates := []

def project (key : Value) (pin : String) : Project := ⟨"", [main pin], [knob key, led]⟩

def closure (key : Value) (pin : String) : Closure where
  entry := main pin
  patches := [main pin]
  kinds := [("knob", .primitive ⟨"knob", some (knob key), none⟩),
    ("led", .primitive ⟨"led", some led, none⟩)]

def graph (pin : String) : FlatGraph where
  nodes := [⟨1, "knob", [], 1, "1"⟩, ⟨2, "led", [(pin, .int 5)], 2, "2"⟩]
  links := [⟨1, "out", 2, "IN"⟩]

def typing (key : Value) (pin : String) : Typing := ⟨(closure key pin).kinds, graph pin, []⟩

end Knob

/-- With a key, the knob is bound: beside its literal the lamp has the default of the second step of
the same pin, and none on the linked one. A literal on the linked pin is a conflict. -/
theorem bindAll_clashes_knob :
    (∃ bound, (Typing.start (Knob.closure (.str "turn") "hue").kinds (Knob.graph "hue")).bindAll =
        .ok (Knob.typing (.str "turn") "hue", bound) ∧
      bound.map BoundNode.properties =
        [[], [(.text "hue", .int 5), (.text "hue-$1", .int 1)]] ∧
      List.Forall₂ (BoundNode.Merges (Knob.closure (.str "turn") "hue").kinds (Knob.graph "hue"))
        ((Knob.graph "hue").nodes.mergeSort fun a b => a.id ≤ b.id) bound) ∧
    ∃ stopped, (Typing.start (Knob.closure (.str "turn") "IN").kinds (Knob.graph "IN")).bindAll =
        .error stopped ∧ stopped.failure.kind = .conflictingBinding := by
  have hc : Closure.ofEntry (Knob.project (.str "turn") "hue") "@/main" false =
      .ok (Knob.closure (.str "turn") "hue") := by cbv
  have hf : (Knob.closure (.str "turn") "hue").flatten = .ok (Knob.graph "hue") := by cbv
  have ht : (Typing.start (Knob.closure (.str "turn") "hue").kinds (Knob.graph "hue")).resolve =
      .ok (Knob.typing (.str "turn") "hue") := by cbv
  have hc' : Closure.ofEntry (Knob.project (.str "turn") "IN") "@/main" false =
      .ok (Knob.closure (.str "turn") "IN") := by cbv
  have hf' : (Knob.closure (.str "turn") "IN").flatten = .ok (Knob.graph "IN") := by cbv
  have ht' : (Typing.start (Knob.closure (.str "turn") "IN").kinds (Knob.graph "IN")).resolve =
      .ok (Knob.typing (.str "turn") "IN") := by cbv
  refine ⟨?_, (bindAll_clashes hc' hf' ht').1.mpr ?_⟩
  · have hbound : ∃ bound, (Typing.start (Knob.closure (.str "turn") "hue").kinds
        (Knob.graph "hue")).bindAll = .ok (Knob.typing (.str "turn") "hue", bound) ∧
        bound.map BoundNode.properties =
          [[], [(.text "hue", .int 5), (.text "hue-$1", .int 1)]] := ⟨_, by cbv, by cbv⟩
    obtain ⟨bound, hok, hproperties⟩ := hbound
    exact ⟨bound, hok, hproperties, ((bindAll_clashes hc hf ht).2.2.2 _ _ hok).2⟩
  · refine ⟨⟨2, "led", [("IN", .int 5)], 2, "2"⟩, by simp [Knob.graph], ⟨"IN", by simp,
      ⟨1, "out", 2, "IN"⟩, by simp [Knob.graph], rfl, rfl⟩, fun other hother hlt => ?_⟩
    obtain rfl : other = ⟨1, "knob", [], 1, "1"⟩ := by
      simp only [Knob.graph, List.mem_cons, List.not_mem_nil, or_false] at hother
      exact hother.resolve_right fun heq => absurd hlt (by simp [heq])
    have hknob : (Knob.closure (.str "turn") "IN").kinds.primitive "knob" =
        .ok ⟨"knob", some (Knob.knob (.str "turn")), none⟩ := rfl
    rintro ⟨entry, ⟨p, hp, _, hentry⟩, pin, hpin, hkey⟩
    obtain rfl := Except.ok.inj (hp.symm.trans hknob)
    obtain rfl := Option.some.inj hentry
    have hpin : pin = ⟨.str "turn", .input, anyType, none, false⟩ := by
      simpa [NodeType.inputs, Knob.knob] using hpin
    rw [hpin] at hkey
    exact hkey

/-- The document is accepted although the key of an input is an array, and the conflict of the lamp
is not reported: the knob before it cannot be bound. -/
theorem bindAll_keyless_knob :
    Document.project (Knob.document (.arr []) "IN") = .ok (Knob.project (.arr []) "IN") ∧
    Closure.ofEntry (Knob.project (.arr []) "IN") "@/main" false =
      .ok (Knob.closure (.arr []) "IN") ∧
    (Knob.closure (.arr []) "IN").flatten = .ok (Knob.graph "IN") ∧
    (Typing.start (Knob.closure (.arr []) "IN").kinds (Knob.graph "IN")).resolve =
      .ok (Knob.typing (.arr []) "IN") ∧
    (∃ node ∈ (Knob.graph "IN").nodes, ∃ key, node.Clashes (Knob.graph "IN") key) ∧
    (Typing.start (Knob.closure (.arr []) "IN").kinds (Knob.graph "IN")).bindAll =
      .error ⟨Knob.typing (.arr []) "IN", .fault (.unusableKey "list")⟩ ∧
    (Failure.fault (.unusableKey "list")).kind ≠ .conflictingBinding := by
  refine ⟨by cbv, by cbv, by cbv, by cbv, ?_, by cbv, by decide⟩
  exact ⟨⟨2, "led", [("IN", .int 5)], 2, "2"⟩, by simp [Knob.graph], "IN", by simp,
    ⟨1, "out", 2, "IN"⟩, by simp [Knob.graph], rfl, rfl⟩

end Patchbay
