import Mathlib.Logic.Relation
import Patchbay.Flat.Typing
import Patchbay.Proofs.Flat.Graph

/-!
# Groups of terminals

Terminals with a link between them are joined, and a group is what is joined to a terminal by any
number of links. What is known of the type of a terminal is said here about the graph alone: a
terminal may declare its type, or be linked to a pin off terminals that has one (`Knows`), and a
group knows what one of its members knows (`GroupKnows`).
-/

namespace Patchbay

namespace Primitive

variable (p : Primitive)

/-- The catalog gives the pin of the terminal a type of its own. -/
def CatalogType (type : String) : Prop :=
  ∃ entry pin, p.entry = some entry ∧ entry.pins.lookup Terminal.pinKey = some pin ∧
    pin.type = type ∧ type ≠ anyType ∧ type ≠ ""

/-- The terminal declares its type: in the catalog, or else by its type id. -/
def Declares (type : String) : Prop :=
  p.CatalogType type ∨
    (¬ ∃ given, p.CatalogType given) ∧ ∃ t, p.terminal = some t ∧ t.dataType = some type

end Primitive

theorem definite_eq_some_iff {given type : String} :
    definite given = some type ↔ given = type ∧ type ≠ anyType := by
  unfold definite
  split
  · next h => exact ⟨fun h' => absurd h' (by simp), fun ⟨heq, hne⟩ => absurd (heq ▸ h) hne⟩
  · next h =>
    refine ⟨fun h' => ?_, fun ⟨heq, _⟩ => congrArg some heq⟩
    obtain rfl := Option.some.inj h'
    exact ⟨rfl, h⟩

namespace Terminal

theorem dataType_of_dataType? {rest : List Char} {dataType : Option String}
    (h : dataType? rest = some dataType) :
    dataType = none ∨ ∃ word type, dataTypes.lookup word = some type ∧ dataType = some type := by
  have hword : ∀ word : List Char, (if (word.isEmpty || !word.all isLetter) = true then none
      else (dataTypes.lookup (String.ofList (word.map Char.toLower))).map some) = some dataType →
      ∃ word type, dataTypes.lookup word = some type ∧ dataType = some type := by
    intro word h
    split at h
    · exact absurd h (by simp)
    · obtain ⟨type, hlookup, rfl⟩ := Option.map_eq_some_iff.mp h
      exact ⟨_, type, hlookup, rfl⟩
  unfold dataType? at h
  dsimp only at h
  split at h
  · exact .inl (Option.some.inj h).symm
  · split at h
    · exact .inr (hword _ h)
    · exact .inr (hword _ h)
    · exact .inr (hword _ h)

/-- No type id names the type that carries anything. -/
theorem dataType_ne_any {typeId : String} {t : Terminal} (h : ofType? typeId = some t) :
    t.dataType ≠ some anyType := by
  have hnamed : ∀ entry ∈ dataTypes, entry.2 ≠ anyType := by decide
  have hne : ∀ rest dataType, dataType? rest = some dataType → dataType ≠ some anyType := by
    intro rest dataType hdata
    rcases dataType_of_dataType? hdata with rfl | ⟨word, type, hlookup, rfl⟩
    · simp
    · intro heq
      obtain rfl := Option.some.inj heq
      rw [List.lookup_eq_some_iff] at hlookup
      obtain ⟨before, after, hmem, _⟩ := hlookup
      exact hnamed (word, anyType) (by rw [hmem]; simp) rfl
  unfold ofType? at h
  dsimp only at h
  split at h
  · obtain ⟨dataType, hdata, rfl⟩ := Option.map_eq_some_iff.mp h
    exact hne _ _ hdata
  · obtain ⟨dataType, hdata, rfl⟩ := Option.map_eq_some_iff.mp h
    exact hne _ _ hdata
  · exact absurd h (by simp)

end Terminal

theorem Primitive.catalogType_iff {p : Primitive} {type : String} :
    p.CatalogType type ↔
      ((p.entry.bind fun entry => entry.pins.lookup Terminal.pinKey).bind
        fun pin => definite pin.type) = some type ∧ type ≠ "" := by
  simp only [CatalogType, Option.bind_eq_some_iff, definite_eq_some_iff]
  constructor
  · rintro ⟨entry, pin, hentry, hpin, htype, hne, hgiven⟩
    exact ⟨⟨pin, ⟨entry, hentry, hpin⟩, htype, hne⟩, hgiven⟩
  · rintro ⟨⟨pin, ⟨entry, hentry, hpin⟩, htype, hne⟩, hgiven⟩
    exact ⟨entry, pin, hentry, hpin, htype, hne, hgiven⟩

/-- What a typing enters for a terminal is what the terminal declares. -/
theorem Typing.declaredType_eq_some_iff {p : Primitive} {t : Terminal} (hp : p.terminal = some t)
    {type : String} : Typing.declaredType p t = some type ↔ p.Declares type := by
  simp only [Typing.declaredType, Primitive.Declares, Primitive.catalogType_iff, hp]
  cases (p.entry.bind fun entry => entry.pins.lookup Terminal.pinKey).bind
      fun pin => definite pin.type with
  | none => simp
  | some given =>
    by_cases hgiven : given = ""
    · simp [hgiven]
    · have hne : given = type → type ≠ "" := by
        rintro rfl
        exact hgiven
      simpa [String.isEmpty_iff, hgiven] using hne

namespace FlatGraph

variable (kinds : Kinds) (graph : FlatGraph)

/-- The node of this id is of the primitive. -/
def IsOf (id : Int) (p : Primitive) : Prop :=
  ∃ node ∈ graph.nodes, node.id = id ∧ kinds.primitive node.type = .ok p

/-- The node of this id is a terminal. -/
def IsTerminal (id : Int) : Prop := ∃ p, graph.IsOf kinds id p ∧ p.isTerminal = true

/-- A link of the node of this id, in either direction, has its far end on this pin. -/
def Meets (id far : Int) (pin : String) : Prop :=
  ∃ l ∈ graph.links, l.target = id ∧ l.source = far ∧ l.sourcePin = pin ∨
    l.source = id ∧ l.target = far ∧ l.targetPin = pin

/-- The node of this id has a link. -/
def IsLinked (id : Int) : Prop := ∃ far pin, graph.Meets id far pin

/-- Two terminals with a link between them. -/
def Joined (a b : Int) : Prop :=
  graph.IsTerminal kinds a ∧ graph.IsTerminal kinds b ∧ ∃ pin, graph.Meets a b pin

/-- Two terminals of one group. -/
def Grouped : Int → Int → Prop := Relation.ReflTransGen (graph.Joined kinds)

/-- The node of this id is linked to the pin of this key, of a node that is no terminal. -/
def MeetsPlain (id : Int) (q : Primitive) (key : String) : Prop :=
  ∃ far, graph.Meets id far key ∧ graph.IsOf kinds far q ∧ q.isTerminal = false

/-- The node of this id is linked to a pin of this definite type, of a node that is no terminal. -/
def MeetsType (id : Int) (type : String) : Prop :=
  ∃ q key pin, graph.MeetsPlain kinds id q key ∧ q.pin? key = some pin ∧ pin.type = type ∧
    type ≠ anyType

/-- The terminal declares this type, or is linked to a pin off terminals that has it. -/
def Knows (id : Int) (type : String) : Prop :=
  (∃ p, graph.IsOf kinds id p ∧ p.Declares type) ∨ graph.MeetsType kinds id type

/-- A member of the group of this terminal knows the type. -/
def GroupKnows (id : Int) (type : String) : Prop :=
  ∃ member, graph.Grouped kinds id member ∧ graph.Knows kinds member type

/-- A member of the group of this terminal is linked to some pin off terminals. -/
def GroupMeetsPlain (id : Int) : Prop :=
  ∃ member q key, graph.Grouped kinds id member ∧ graph.MeetsPlain kinds member q key

/-- A terminal whose group has links, knows no type and is linked to no pin off terminals. -/
structure IsUntypable (id : Int) : Prop where
  terminal : graph.IsTerminal kinds id
  linked : ∃ member, graph.Grouped kinds id member ∧ graph.IsLinked member
  unknown : ¬ ∃ type, graph.GroupKnows kinds id type
  apart : ¬ graph.GroupMeetsPlain kinds id

variable {kinds graph} {id a b : Int}

theorem IsOf.unique (hn : graph.ids.Nodup) {p q : Primitive} (hp : graph.IsOf kinds id p)
    (hq : graph.IsOf kinds id q) : p = q := by
  obtain ⟨node, hnode, hid, hp⟩ := hp
  obtain ⟨other, hother, hoid, hq⟩ := hq
  obtain rfl := List.inj_on_of_nodup_map hn hnode hother (hid.trans hoid.symm)
  exact Except.ok.inj (hp.symm.trans hq)

theorem node?_eq_some_iff (hn : graph.ids.Nodup) {node : FlatNode} :
    graph.node? id = some node ↔ node ∈ graph.nodes ∧ node.id = id :=
  Keyed.find?_eq_some_iff fun _ hf _ hg h => List.inj_on_of_nodup_map hn hf hg h

theorem Sound.exists_isOf (hg : graph.Sound kinds) (hid : id ∈ graph.ids) :
    ∃ p, graph.IsOf kinds id p := by
  obtain ⟨node, hnode, _, hnid⟩ := exists_node? hid
  obtain ⟨p, hp, _⟩ := hg.primitive node hnode
  exact ⟨p, node, hnode, hnid, hp⟩

theorem IsOf.mem_ids {p : Primitive} (h : graph.IsOf kinds id p) : id ∈ graph.ids := by
  obtain ⟨node, hnode, rfl, _⟩ := h
  exact List.mem_map_of_mem hnode

theorem IsTerminal.mem_ids (h : graph.IsTerminal kinds id) : id ∈ graph.ids := by
  obtain ⟨p, hp, _⟩ := h
  exact hp.mem_ids

theorem mem_farEnds_iff {far : Int} {pin : String} :
    (far, pin) ∈ Typing.farEnds graph id ↔ graph.Meets id far pin := by
  simp only [Typing.farEnds, incoming, outgoing, List.mem_append, List.mem_map, List.mem_filter,
    decide_eq_true_eq, Prod.mk.injEq, Meets]
  constructor
  · rintro (⟨l, ⟨hl, htarget⟩, hsource, hpin⟩ | ⟨l, ⟨hl, hsource⟩, htarget, hpin⟩)
    · exact ⟨l, hl, .inl ⟨htarget, hsource, hpin⟩⟩
    · exact ⟨l, hl, .inr ⟨hsource, htarget, hpin⟩⟩
  · rintro ⟨l, hl, ⟨htarget, hsource, hpin⟩ | ⟨hsource, htarget, hpin⟩⟩
    · exact .inl ⟨l, ⟨hl, htarget⟩, hsource, hpin⟩
    · exact .inr ⟨l, ⟨hl, hsource⟩, htarget, hpin⟩

theorem isLinked_iff : graph.IsLinked id ↔ Typing.farEnds graph id ≠ [] := by
  constructor
  · rintro ⟨far, pin, h⟩
    exact List.ne_nil_of_mem (mem_farEnds_iff.mpr h)
  · intro h
    obtain ⟨⟨far, pin⟩, hmem⟩ := List.exists_mem_of_ne_nil _ h
    exact ⟨far, pin, mem_farEnds_iff.mp hmem⟩

theorem Meets.symm {pin : String} (h : graph.Meets a b pin) : ∃ pin', graph.Meets b a pin' := by
  obtain ⟨l, hl, ⟨htarget, hsource, _⟩ | ⟨hsource, htarget, _⟩⟩ := h
  · exact ⟨l.targetPin, l, hl, .inr ⟨hsource, htarget, rfl⟩⟩
  · exact ⟨l.sourcePin, l, hl, .inl ⟨htarget, hsource, rfl⟩⟩

theorem Joined.symm (h : graph.Joined kinds a b) : graph.Joined kinds b a := by
  obtain ⟨ha, hb, pin, hmeets⟩ := h
  exact ⟨hb, ha, hmeets.symm⟩

/-- A group is the same from each of its members. -/
theorem Grouped.symm (h : graph.Grouped kinds a b) : graph.Grouped kinds b a := by
  induction h with
  | refl => exact .refl
  | tail _ hjoined ih => exact .head hjoined.symm ih

theorem GroupKnows.of_grouped {type : String} (h : graph.GroupKnows kinds b type)
    (hab : graph.Grouped kinds a b) : graph.GroupKnows kinds a type := by
  obtain ⟨member, hgrouped, hknows⟩ := h
  exact ⟨member, hab.trans hgrouped, hknows⟩

theorem GroupMeetsPlain.of_grouped (h : graph.GroupMeetsPlain kinds b)
    (hab : graph.Grouped kinds a b) : graph.GroupMeetsPlain kinds a := by
  obtain ⟨member, q, key, hgrouped, hmeets⟩ := h
  exact ⟨member, q, key, hab.trans hgrouped, hmeets⟩

/-- A terminal has a link if its group has one. -/
theorem IsLinked.of_grouped (h : graph.IsLinked b) (hab : graph.Grouped kinds a b) :
    graph.IsLinked a := by
  cases hab.cases_head with
  | inl heq => exact heq ▸ h
  | inr hjoined =>
    obtain ⟨next, ⟨_, _, pin, hmeets⟩, _⟩ := hjoined
    exact ⟨next, pin, hmeets⟩

/-- Nothing is known under the name of the type that carries anything, where no terminal type
names it. -/
theorem GroupKnows.ne_any
    (hnamed : ∀ type p t, kinds.primitive type = .ok p → p.terminal = some t →
      t.dataType ≠ some anyType)
    {type : String} (h : graph.GroupKnows kinds id type) : type ≠ anyType := by
  obtain ⟨member, _, ⟨p, ⟨node, _, _, hp⟩, hdeclares⟩ | ⟨_, _, _, _, _, _, hne⟩⟩ := h
  · rcases hdeclares with ⟨_, _, _, _, _, hne, _⟩ | ⟨_, t, hterminal, htype⟩
    · exact hne
    · rintro rfl
      exact hnamed node.type p t hp hterminal htype
  · exact hne

end FlatGraph

end Patchbay
