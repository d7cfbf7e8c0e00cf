import Mathlib.Data.List.Nodup
import Patchbay.Project.Document
import Patchbay.Proofs.Shuffled

/-!
# What a document describes

The project of a document, said without the reading of it (`Document.Describes`): a node for each
entry of a collection, whether it is an object or a list, a link for each of its entries, and a
declaration for each type with a pin for each of its pins. Each reader of a part comes to a result
exactly where the part describes it (`node_eq_ok_iff`, `link_eq_ok_iff`, `patch_eq_ok_iff`,
`nodeType_eq_ok_iff`, `checked_eq_ok_iff`), so nothing else needs to follow the reading. The patches
that are described are sound (`sound_of_project`): each node has an id of its own, and each end of a
link lies on one of the nodes.
-/

namespace Patchbay

namespace Value

variable {v : Value}

theorem text?_eq_some_iff {s : String} : v.text? = some s ↔ v = .str s := by
  cases v with
  | _ => simp [text?]

theorem bool?_eq_some_iff {b : Bool} : v.bool? = some b ↔ v = .bool b := by
  cases v with
  | _ => simp [bool?]

theorem members?_eq_some_iff {members : Members} : v.members? = some members ↔ v = .obj members := by
  cases v with
  | _ => simp [members?]

/-- Only an object holds members. -/
theorem obj_of_member? {name : String} {member : Value} (h : v.member? name = some member) :
    ∃ fields, v = .obj fields := by
  cases v with
  | obj fields => exact ⟨fields, rfl⟩
  | _ => exact absurd h (by simp [member?])

end Value

/-- Both ends of a link, in the order of the document. -/
def Link.ends (link : Link) : List LinkEnd := [link.first, link.second]

theorem Link.first_mem_ends (link : Link) : link.first ∈ link.ends := List.mem_cons_self

theorem Link.second_mem_ends (link : Link) : link.second ∈ link.ends :=
  List.mem_cons_of_mem _ (List.mem_singleton_self _)

/-- A patch whose nodes have an id each, and whose links join nodes of it. -/
structure Patch.Sound (patch : Patch) : Prop where
  ids_nodup : (patch.nodes.map Node.id).Nodup
  ends_known : ∀ link ∈ patch.links, ∀ e ∈ link.ends, ∃ node ∈ patch.nodes, node.id = e.node

namespace Document

/-! ## Descriptions -/

/-- The value gives the number: it is that whole number, or it is written in ASCII digits that are
few enough to be read. -/
inductive Gives : Value → Int → Prop
  | whole (n : Int) : Gives (.int n) n
  | numeral {s : String} (hs : Text.Numeral.isAsciiNumeral s = true)
      (hlength : s.toList.length ≤ Text.Numeral.limit) :
      Gives (.str s) (Text.Numeral.value s.toList)

/-- The object holds this value under an optional name, or nothing, and `absent` counts. -/
def Holds {α : Type} (item : Value) (name : String) (absent : α) (value : α → Value) (a : α) :
    Prop :=
  item.member? name = none ∧ a = absent ∨ item.member? name = some (value a)

/-- The collection has these entries: the members of an object under their keys, or the items of a
list under the ids that they hold. -/
inductive HasEntries : Value → List (Value × Value) → Prop
  | object (members : Members) :
      HasEntries (.obj members) (members.map fun member => (.str member.1, member.2))
  | list {items : List Value} {found : List (Value × Value)}
      (h : List.Forall₂ (fun item entry => entry.2 = item ∧ item.member? "id" = some entry.1)
        items found) : HasEntries (.arr items) found

/-- The item describes the node under this key. -/
structure DescribesNode (key item : Value) (n : Node) : Prop where
  id : Gives key n.id
  /-- An id of its own is the same number. -/
  own : ∀ own, item.member? "id" = some own → Gives own n.id
  type : (item.member? "type" <|> item.member? "typeId") = some (.str n.type)
  type_ne : n.type ≠ ""
  properties : Holds item "properties" [] .obj n.properties
  arity : item.member? "arityLevel" = none ∧ n.arity = 1 ∨
    ∃ v, item.member? "arityLevel" = some v ∧ Gives v n.arity
  arity_pos : 1 ≤ n.arity

/-- The value describes the end of a link on one of the nodes. -/
def DescribesEnd (known : List Node) (item : Value) (e : LinkEnd) : Prop :=
  ∃ id key, item.member? "nodeId" = some id ∧ Gives id e.node ∧
    item.member? "pinKey" = some (.str key) ∧ e.pin = PinRef.parse key ∧
    ∃ n ∈ known, n.id = e.node

/-- The item describes the link between two of the nodes, under this key. -/
def DescribesLink (known : List Node) (key item : Value) (l : Link) : Prop :=
  l.id = key.display ∧ ∃ first second, item.member? "pins" = some (.arr [first, second]) ∧
    DescribesEnd known first l.first ∧ DescribesEnd known second l.second

/-- The item describes the patch of the path. -/
structure DescribesPatch (path : String) (item : Value) (p : Patch) : Prop where
  isObject : ∃ fields, item = .obj fields
  path_eq : p.path = path
  id_eq : p.id = idText? (item.member? "id")
  /-- Each entry of the nodes describes a node, and no other node is there. -/
  nodes : ∃ found, HasEntries ((item.member? "nodes").getD (.obj [])) found ∧
    List.Forall₂ (fun entry n => DescribesNode entry.1 entry.2 n) found p.nodes
  distinct : (p.nodes.map Node.id).Nodup
  /-- Each node is kept under its number. -/
  kept : ∀ n ∈ p.nodes, p.node? n.id = some n
  /-- Each entry of the links describes a link; the last one with an id is kept. -/
  links : ∃ found made, HasEntries ((item.member? "links").getD (.obj [])) found ∧
    List.Forall₂ (fun entry l => DescribesLink p.nodes entry.1 entry.2 l) found made ∧
    p.links = made.foldl (fun joined l => putLink l joined) []
  /-- The ends of each link lie on nodes of the patch. -/
  ends : ∀ l ∈ p.links, ∀ e ∈ l.ends, ∃ n ∈ p.nodes, n.id = e.node

/-- The item describes the pin under this key. -/
structure DescribesPin (key : String) (item : Value) (p : Pin) : Prop where
  key_eq : p.key = (item.member? "key").getD (.str key)
  direction : item.member? "direction" = some (.str p.direction.name)
  type : Holds item "type" anyType .str p.type
  default_eq : p.default? = item.member? "default"
  variadic : Holds item "variadic" false .bool p.variadic

/-- The item describes the node type of the id. -/
structure DescribesType (id : String) (item : Value) (t : NodeType) : Prop where
  isObject : ∃ fields, item = .obj fields
  id_eq : t.id = id
  pure : Holds item "pure" false .bool t.pure
  raises : Holds item "raises" false .bool t.raises
  pins : ∃ members, Holds item "pins" [] .obj members ∧
    List.Forall₂ (fun member pin => pin.1 = member.1 ∧ DescribesPin member.1 member.2 pin.2)
      members t.pins
  templates : Holds item "impl" [] .obj (t.templates.map fun entry => (entry.1, .str entry.2))

/-- The document describes the project. -/
structure Describes (document : Value) (p : Project) : Prop where
  isObject : ∃ fields, document = .obj fields
  name : Holds document "name" "" .str p.name
  patches : ∃ members, Holds document "patches" [] .obj members ∧
    List.Forall₂ (fun member patch => DescribesPatch member.1 member.2 patch) members p.patches
  catalog : ∃ members, Holds document "nodeTypes" [] .obj members ∧
    List.Forall₂ (fun member t => DescribesType member.1 member.2 t) members p.catalog

/-! ## Fields -/

section

variable {α : Type} {place : Place} {fields members : Members} {key item v : Value}

theorem demand_eq_ok_iff {value : Option α} {complaint : Complaint} {a : α} :
    demand value place complaint = .ok a ↔ value = some a := by
  cases value with
  | none => simp [demand]
  | some b => simp [demand]

theorem optional_eq_ok_iff {name : String} {absent a : α} {shape : Shape}
    {read : Value → Option α} {value : α → Value}
    (hread : ∀ {v : Value} {a : α}, read v = some a ↔ v = value a) :
    optional fields place name absent shape read = .ok a ↔
      Holds (.obj fields) name absent value a := by
  unfold optional Holds
  rw [show (Value.obj fields).member? name = fields.lookup name from rfl]
  generalize fields.lookup name = found
  cases found with
  | none => simp [eq_comm]
  | some v => simp [demand_eq_ok_iff, hread]

theorem orEmpty_eq_iff {name : String} :
    (orEmpty fields name).members? = some members ↔ Holds (.obj fields) name [] .obj members := by
  unfold orEmpty Holds
  rw [show (Value.obj fields).member? name = fields.lookup name from rfl]
  generalize fields.lookup name = found
  cases found with
  | none => simp [Value.members?, eq_comm]
  | some v => simp [Value.members?_eq_some_iff]

theorem within_eq_ok_iff {n m : Int} : within v n = .ok m ↔
    m = n ∧ ∀ s, v = .str s → s.toList.length ≤ Text.Numeral.limit := by
  unfold within
  cases v with
  | str s =>
    unfold Text.Numeral.read
    dsimp only
    by_cases hlong : Text.Numeral.limit < s.toList.length
    · rw [if_pos hlong]
      simpa using fun _ => hlong
    · rw [if_neg hlong]
      simpa [eq_comm] using fun _ => Nat.le_of_not_lt hlong
  | _ => simp [eq_comm]

theorem eq_of_within {n m : Int} (h : within v n = .ok m) : m = n := (within_eq_ok_iff.mp h).1

theorem gives_iff {n : Int} : Gives v n ↔ v.integer? = some n ∧ within v n = .ok n := by
  rw [within_eq_ok_iff]
  constructor
  · rintro (⟨n⟩ | ⟨hs, hlength⟩)
    · exact ⟨rfl, rfl, nofun⟩
    · refine ⟨by rw [Value.integer?, if_pos hs], rfl, ?_⟩
      rintro s ⟨⟩
      exact hlength
  · rintro ⟨hn, _, hlength⟩
    cases v with
    | int m =>
      obtain rfl := Option.some.inj hn
      exact .whole m
    | str s =>
      rw [Value.integer?] at hn
      split at hn
      · next hs =>
        obtain rfl := Option.some.inj hn
        exact .numeral hs (hlength s rfl)
      · exact absurd hn (by simp)
    | _ => exact absurd hn (by simp [Value.integer?])

end

/-! ## Nodes -/

section

variable {place : Place} {fields : Members} {key item : Value}

theorem ownId_eq_ok_iff {n : Int} (hkey : Gives key n) : ownId place fields key n = .ok () ↔
    ∀ own, fields.lookup "id" = some own → Gives own n := by
  unfold ownId
  generalize fields.lookup "id" = found
  cases found with
  | none => simp
  | some own =>
    simp only [bind_eq_ok, demand_eq_ok_iff, Option.some.injEq, forall_eq']
    constructor
    · rintro ⟨number, hnumber, read, hread, id, hid, h⟩
      split at h
      · next heq =>
        obtain rfl := eq_of_within hread
        obtain rfl := eq_of_within hid
        subst heq
        exact gives_iff.mpr ⟨hnumber, hread⟩
      · exact absurd h (by simp)
    · intro h
      exact ⟨n, (gives_iff.mp h).1, n, (gives_iff.mp h).2, n, (gives_iff.mp hkey).2, if_pos rfl⟩

theorem typeOf_eq_ok_iff {type : String} : typeOf place fields = .ok type ↔
    (fields.lookup "type" <|> fields.lookup "typeId") = some (.str type) ∧ type ≠ "" := by
  unfold typeOf
  generalize (fields.lookup "type" <|> fields.lookup "typeId") = found
  cases found with
  | none => simp
  | some v =>
    simp only [demand_eq_ok_iff, Option.filter_eq_some_iff, Value.text?_eq_some_iff,
      Option.some.injEq, decide_eq_true_eq]

theorem arityOf_eq_ok_iff {arity : Int} : arityOf place fields = .ok arity ↔
    (fields.lookup "arityLevel" = none ∧ arity = 1 ∨
      ∃ v, fields.lookup "arityLevel" = some v ∧ Gives v arity) ∧ 1 ≤ arity := by
  unfold arityOf
  generalize fields.lookup "arityLevel" = found
  cases found with
  | none =>
    constructor
    · intro h
      obtain rfl := Except.ok.inj h
      exact ⟨.inl ⟨rfl, rfl⟩, Int.le_refl 1⟩
    · rintro ⟨⟨_, rfl⟩ | ⟨_, h, _⟩, _⟩
      · rfl
      · exact absurd h (by simp)
  | some v =>
    simp only [bind_eq_ok, demand_eq_ok_iff]
    constructor
    · rintro ⟨number, hnumber, read, hread, h⟩
      split at h
      · next hpos =>
        obtain rfl := Except.ok.inj h
        obtain rfl := eq_of_within hread
        exact ⟨.inr ⟨v, rfl, gives_iff.mpr ⟨hnumber, hread⟩⟩, hpos⟩
      · exact absurd h (by simp)
    · rintro ⟨⟨h, _⟩ | ⟨_, ⟨⟩, h⟩, hpos⟩
      · exact absurd h (by simp)
      · exact ⟨arity, (gives_iff.mp h).1, arity, (gives_iff.mp h).2, if_pos hpos⟩

/-- An entry is read as the node that it describes, unless its number is taken. -/
theorem node_eq_ok_iff {earlier : List Node} {n : Node} :
    node place earlier key item = .ok n ↔ DescribesNode key item n ∧ n.id ∉ earlier.map Node.id := by
  constructor
  · intro h
    simp only [node, bind_eq_ok, demand_eq_ok_iff, Value.members?_eq_some_iff] at h
    obtain ⟨fields, rfl, id, hid, ⟨⟩, hown, type, htype, properties, hproperties, arity, harity,
      read, hread, h⟩ := h
    obtain rfl := eq_of_within hread
    have hkey := gives_iff.mpr ⟨hid, hread⟩
    split at h
    · exact absurd h (by simp)
    · next hany =>
      obtain rfl := Except.ok.inj h
      obtain ⟨htype, hne⟩ := typeOf_eq_ok_iff.mp htype
      obtain ⟨harity, hpos⟩ := arityOf_eq_ok_iff.mp harity
      refine ⟨?_, by simpa using hany⟩
      exact {
        id := hkey
        own := (ownId_eq_ok_iff hkey).mp hown
        type := htype
        type_ne := hne
        properties := (optional_eq_ok_iff Value.members?_eq_some_iff).mp hproperties
        arity := harity
        arity_pos := hpos }
  · rintro ⟨h, hfresh⟩
    obtain ⟨fields, rfl⟩ : ∃ fields, item = .obj fields := by
      have htype := h.type
      cases hfirst : item.member? "type" with
      | some v => exact Value.obj_of_member? hfirst
      | none =>
        rw [hfirst] at htype
        exact Value.obj_of_member? htype
    simp only [node, bind_eq_ok, demand_eq_ok_iff, Value.members?_eq_some_iff]
    refine ⟨fields, rfl, n.id, (gives_iff.mp h.id).1, (), (ownId_eq_ok_iff h.id).mpr h.own, n.type,
      typeOf_eq_ok_iff.mpr ⟨h.type, h.type_ne⟩, n.properties,
      (optional_eq_ok_iff Value.members?_eq_some_iff).mpr h.properties, n.arity,
      arityOf_eq_ok_iff.mpr ⟨h.arity, h.arity_pos⟩, n.id, (gives_iff.mp h.id).2, if_neg ?_⟩
    simpa using hfresh

theorem nodes_eq_ok_iff {earlier known : List Node} {found : List (Value × Value)}
    (hn : (earlier.map Node.id).Nodup) : nodes place earlier found = .ok known ↔
      ∃ new, known = earlier ++ new ∧ (known.map Node.id).Nodup ∧
        List.Forall₂ (fun entry n => DescribesNode entry.1 entry.2 n) found new := by
  induction found generalizing earlier with
  | nil =>
    constructor
    · intro h
      obtain rfl := Except.ok.inj h
      exact ⟨[], (List.append_nil _).symm, hn, .nil⟩
    · rintro ⟨_, rfl, _, ⟨⟩⟩
      rw [List.append_nil]
      rfl
  | cons entry rest ih =>
    simp only [nodes, bind_eq_ok, node_eq_ok_iff]
    constructor
    · rintro ⟨n, ⟨hdescribes, hfresh⟩, h⟩
      have hn' : ((earlier ++ [n]).map Node.id).Nodup := by
        rw [List.map_append, List.map_singleton, ← List.concat_eq_append, List.nodup_concat]
        exact ⟨hfresh, hn⟩
      obtain ⟨new, rfl, hdistinct, hnew⟩ := (ih hn').mp h
      exact ⟨n :: new, by simp, hdistinct, .cons hdescribes hnew⟩
    · rintro ⟨_, rfl, hdistinct, hall⟩
      obtain ⟨n, new, hdescribes, hnew, rfl⟩ := List.forall₂_cons_left_iff.mp hall
      have hn' : ((earlier ++ [n]).map Node.id).Nodup := by
        rw [List.append_cons, List.map_append] at hdistinct
        exact (List.nodup_append.mp hdistinct).1
      have hfresh : n.id ∉ earlier.map Node.id := by
        rw [List.map_append, List.map_singleton, ← List.concat_eq_append, List.nodup_concat] at hn'
        exact hn'.1
      exact ⟨n, ⟨hdescribes, hfresh⟩,
        (ih hn').mpr ⟨new, List.append_cons .., hdistinct, hnew⟩⟩

end

/-! ## Links -/

section

variable {place : Place} {key item : Value} {known : List Node}

theorem linkEnd_eq_ok_iff {e : LinkEnd} :
    linkEnd place known item = .ok e ↔ DescribesEnd known item e := by
  constructor
  · intro h
    simp only [linkEnd, bind_eq_ok, demand_eq_ok_iff, Value.members?_eq_some_iff,
      Value.text?_eq_some_iff] at h
    obtain ⟨fields, rfl, id, hid, _, hkey, number, hnumber, key, rfl, read, hread, h⟩ := h
    obtain rfl := eq_of_within hread
    split at h
    · next hany =>
      obtain rfl := Except.ok.inj h
      exact ⟨id, key, hid, gives_iff.mpr ⟨hnumber, hread⟩, hkey, rfl, by simpa using hany⟩
    · exact absurd h (by simp)
  · rintro ⟨id, key, hid, hgives, hkey, hpin, hknown⟩
    obtain ⟨hnumber, hread⟩ := gives_iff.mp hgives
    obtain ⟨fields, rfl⟩ := Value.obj_of_member? hid
    simp only [linkEnd, bind_eq_ok, demand_eq_ok_iff, Value.members?_eq_some_iff,
      Value.text?_eq_some_iff]
    refine ⟨fields, rfl, id, hid, _, hkey, e.node, hnumber, key, rfl, e.node, hread, ?_⟩
    rw [if_pos (by simpa using hknown), ← hpin]

theorem two?_eq_some {v a b : Value} (h : two? v = some (a, b)) : v = .arr [a, b] := by
  unfold two? at h
  split at h
  · obtain ⟨rfl, rfl⟩ := Prod.mk.inj (Option.some.inj h)
    rfl
  · exact absurd h (by simp)

theorem link_eq_ok_iff {l : Link} :
    link place known key item = .ok l ↔ DescribesLink known key item l := by
  constructor
  · intro h
    simp only [link, bind_eq_ok, demand_eq_ok_iff, Value.members?_eq_some_iff,
      linkEnd_eq_ok_iff] at h
    obtain ⟨fields, rfl, pins, hpins, ⟨a, b⟩, hends, first, hfirst, second, hsecond, h⟩ := h
    obtain rfl := pure_eq_ok.mp h
    obtain rfl := two?_eq_some hends
    exact ⟨rfl, a, b, hpins, hfirst, hsecond⟩
  · rintro ⟨hid, a, b, hpins, hfirst, hsecond⟩
    obtain ⟨fields, rfl⟩ := Value.obj_of_member? hpins
    simp only [link, bind_eq_ok, demand_eq_ok_iff, Value.members?_eq_some_iff, linkEnd_eq_ok_iff]
    refine ⟨fields, rfl, .arr [a, b], hpins, (a, b), rfl, l.first, hfirst, l.second, hsecond, ?_⟩
    rw [← hid]
    rfl

theorem links_eq_ok_iff {earlier joined : List Link} {found : List (Value × Value)} :
    links place known earlier found = .ok joined ↔
      ∃ made, List.Forall₂ (fun entry l => DescribesLink known entry.1 entry.2 l) found made ∧
        joined = made.foldl (fun joined l => putLink l joined) earlier := by
  induction found generalizing earlier with
  | nil => simp [links, eq_comm]
  | cons entry rest ih =>
    simp only [links, bind_eq_ok, link_eq_ok_iff, ih]
    constructor
    · rintro ⟨l, hl, made, hmade, rfl⟩
      exact ⟨l :: made, .cons hl hmade, rfl⟩
    · rintro ⟨_, hall, rfl⟩
      obtain ⟨l, made, hl, hmade, rfl⟩ := List.forall₂_cons_left_iff.mp hall
      exact ⟨l, hl, made, hmade, rfl⟩

theorem DescribesLink.ends {l : Link} (h : DescribesLink known key item l) :
    ∀ e ∈ l.ends, ∃ n ∈ known, n.id = e.node := by
  obtain ⟨_, _, _, _, ⟨_, _, _, _, _, _, hfirst⟩, _, _, _, _, _, _, hsecond⟩ := h
  intro e he
  rcases List.mem_cons.mp he with rfl | he
  · exact hfirst
  · rw [List.mem_singleton.mp he]
    exact hsecond

theorem mem_putLink {l m : Link} {links : List Link} (h : m ∈ putLink l links) :
    m = l ∨ m ∈ links := by
  induction links with
  | nil => exact .inl (List.mem_singleton.mp h)
  | cons other rest ih =>
    rw [putLink] at h
    split at h
    · exact (List.mem_cons.mp h).imp_right (List.mem_cons_of_mem _)
    · rcases List.mem_cons.mp h with rfl | h
      · exact .inr List.mem_cons_self
      · exact (ih h).imp_right (List.mem_cons_of_mem _)

/-- Each link that is kept is one that was made. -/
theorem mem_of_joined {m : Link} {made earlier : List Link}
    (h : m ∈ made.foldl (fun joined l => putLink l joined) earlier) : m ∈ earlier ∨ m ∈ made := by
  induction made generalizing earlier with
  | nil => exact .inl h
  | cons l rest ih =>
    rcases ih h with h | h
    · rcases mem_putLink h with rfl | h
      · exact .inr List.mem_cons_self
      · exact .inl h
    · exact .inr (List.mem_cons_of_mem _ h)

end

/-! ## Patches -/

section

variable {place : Place} {item : Value}

theorem listEntries_eq_ok_iff {i : Nat} {items : List Value} {found : List (Value × Value)} :
    listEntries place i items = .ok found ↔
      List.Forall₂ (fun item entry => entry.2 = item ∧ item.member? "id" = some entry.1)
        items found := by
  constructor
  · intro h
    induction items generalizing i found with
    | nil =>
      obtain rfl := Except.ok.inj h
      exact .nil
    | cons item rest ih =>
      simp only [listEntries, bind_eq_ok, demand_eq_ok_iff, Value.members?_eq_some_iff] at h
      obtain ⟨fields, rfl, id, hid, others, hothers, h⟩ := h
      obtain rfl := pure_eq_ok.mp h
      exact .cons ⟨rfl, hid⟩ (ih hothers)
  · intro h
    induction h generalizing i with
    | nil => rfl
    | @cons _ entry _ others hentry _ ih =>
      obtain ⟨id, item⟩ := entry
      obtain ⟨rfl, hid⟩ := hentry
      obtain ⟨fields, rfl⟩ := Value.obj_of_member? hid
      simp only [listEntries, bind_eq_ok, demand_eq_ok_iff]
      exact ⟨fields, rfl, id, hid, others, ih, rfl⟩

theorem entries_eq_ok_iff {v : Value} {found : List (Value × Value)} :
    entries place v = .ok found ↔ HasEntries v found := by
  constructor
  · intro h
    cases v with
    | obj members =>
      obtain rfl := Except.ok.inj h
      exact .object members
    | arr items => exact .list (listEntries_eq_ok_iff.mp h)
    | _ => exact absurd h (by simp [entries])
  · intro h
    cases h with
    | object members => rfl
    | list h => exact listEntries_eq_ok_iff.mpr h

theorem HasEntries.unique {v : Value} {found other : List (Value × Value)} (h : HasEntries v found)
    (h' : HasEntries v other) : found = other := by
  have hread : entries [] v = .ok found := entries_eq_ok_iff.mpr h
  exact Except.ok.inj (hread.symm.trans (entries_eq_ok_iff.mpr h'))

/-- A patch is read from the items that describe it. -/
theorem patch_eq_ok_iff {path : String} {p : Patch} :
    patch place path item = .ok p ↔ DescribesPatch path item p := by
  have hnone : (([] : List Node).map Node.id).Nodup := List.nodup_nil
  constructor
  · intro h
    simp only [patch, bind_eq_ok, demand_eq_ok_iff, Value.members?_eq_some_iff, entries_eq_ok_iff,
      nodes_eq_ok_iff hnone, links_eq_ok_iff] at h
    obtain ⟨fields, rfl, found, hfound, known, ⟨_, rfl, hdistinct, hnodes⟩, found', hfound', joined,
      ⟨made, hmade, rfl⟩, h⟩ := h
    obtain rfl := pure_eq_ok.mp h
    exact {
      isObject := ⟨fields, rfl⟩
      path_eq := rfl
      id_eq := rfl
      nodes := ⟨found, hfound, hnodes⟩
      distinct := hdistinct
      kept := fun n hn =>
        (Keyed.find?_eq_some_iff (List.inj_on_of_nodup_map hdistinct)).mpr ⟨hn, rfl⟩
      links := ⟨found', made, hfound', hmade, rfl⟩
      ends := fun l hl => by
        obtain ⟨_, _, hlink⟩ := Matched.exists_left hmade
          ((mem_of_joined hl).resolve_left List.not_mem_nil)
        exact hlink.ends }
  · intro h
    obtain ⟨fields, rfl⟩ := h.isObject
    obtain ⟨found, hfound, hnodes⟩ := h.nodes
    obtain ⟨found', made, hfound', hmade, hlinks⟩ := h.links
    simp only [patch, bind_eq_ok, demand_eq_ok_iff, Value.members?_eq_some_iff, entries_eq_ok_iff,
      nodes_eq_ok_iff hnone, links_eq_ok_iff]
    refine ⟨fields, rfl, found, hfound, p.nodes, ⟨p.nodes, rfl, h.distinct, hnodes⟩, found', hfound',
      p.links, ⟨made, hmade, hlinks⟩, ?_⟩
    rw [← h.path_eq, show idText? (fields.lookup "id") = p.id from h.id_eq.symm]
    rfl

theorem patches_eq_mapM (members : Members) : patches place members =
    members.mapM fun member => patch (place.key (.str member.1)) member.1 member.2 := by
  induction members with
  | nil => rfl
  | cons member rest ih => rw [patches, List.mapM_cons, ih]

theorem patches_eq_ok_iff {members : Members} {ps : List Patch} : patches place members = .ok ps ↔
    List.Forall₂ (fun member patch => DescribesPatch member.1 member.2 patch) members ps := by
  rw [patches_eq_mapM]
  exact mapM_eq_ok_iff fun member patch => patch_eq_ok_iff

end

/-! ## Node types -/

section

variable {place : Place} {item : Value}

theorem direction_eq_ok_iff {v : Value} {d : Direction} :
    direction place v = .ok d ↔ v = .str d.name := by
  cases v with
  | str s => simp [direction, Label.ofValue, demand_eq_ok_iff, Direction.ofName?_eq_some_iff,
      Value.text?]
  | _ => simp [direction, Label.ofValue, demand_eq_ok_iff, Value.text?]

theorem pin_eq_ok_iff {key : String} {p : Pin} :
    pin place key item = .ok p ↔ DescribesPin key item p := by
  constructor
  · intro h
    simp only [pin, bind_eq_ok, demand_eq_ok_iff, Value.members?_eq_some_iff,
      direction_eq_ok_iff] at h
    obtain ⟨fields, rfl, _, hside, d, rfl, type, htype, variadic, hvariadic, h⟩ := h
    obtain rfl := pure_eq_ok.mp h
    exact {
      key_eq := rfl
      direction := hside
      type := (optional_eq_ok_iff Value.text?_eq_some_iff).mp htype
      default_eq := rfl
      variadic := (optional_eq_ok_iff Value.bool?_eq_some_iff).mp hvariadic }
  · intro h
    obtain ⟨fields, rfl⟩ := Value.obj_of_member? h.direction
    simp only [pin, bind_eq_ok, demand_eq_ok_iff, Value.members?_eq_some_iff, direction_eq_ok_iff]
    refine ⟨fields, rfl, _, h.direction, p.direction, rfl, p.type,
      (optional_eq_ok_iff Value.text?_eq_some_iff).mpr h.type, p.variadic,
      (optional_eq_ok_iff Value.bool?_eq_some_iff).mpr h.variadic, ?_⟩
    rw [show (fields.lookup "key").getD (.str key) = p.key from h.key_eq.symm,
      show fields.lookup "default" = p.default? from h.default_eq.symm]
    rfl

theorem pins_eq_mapM (members : Members) : pins place members = members.mapM fun member =>
    (pin (place.key (.str member.1)) member.1 member.2).map fun p => (member.1, p) := by
  induction members with
  | nil => rfl
  | cons member rest ih =>
    rw [pins, List.mapM_cons, ih]
    cases pin (place.key (.str member.1)) member.1 member.2 with
    | error _ => rfl
    | ok _ => rfl

theorem pins_eq_ok_iff {members : Members} {declared : List (String × Pin)} :
    pins place members = .ok declared ↔ List.Forall₂
      (fun member pin => pin.1 = member.1 ∧ DescribesPin member.1 member.2 pin.2)
      members declared := by
  rw [pins_eq_mapM]
  refine mapM_eq_ok_iff fun member entry => ?_
  rw [map_eq_ok]
  constructor
  · rintro ⟨p, hp, rfl⟩
    exact ⟨rfl, pin_eq_ok_iff.mp hp⟩
  · rintro ⟨hkey, hp⟩
    exact ⟨entry.2, pin_eq_ok_iff.mpr hp, Prod.ext hkey.symm rfl⟩

theorem templates_eq_mapM (members : Members) : templates place members = members.mapM fun member =>
    (demand member.2.text? (place.key (.str member.1)) (.mustBe .text)).map
      fun text => (member.1, text) := by
  induction members with
  | nil => rfl
  | cons member rest ih =>
    rw [templates, List.mapM_cons, ih]
    cases demand member.2.text? (place.key (.str member.1)) (.mustBe .text) with
    | error _ => rfl
    | ok _ => rfl

theorem templates_eq_ok_iff {members : Members} {texts : List (String × String)} :
    templates place members = .ok texts ↔
      members = texts.map fun entry => (entry.1, .str entry.2) := by
  have hread : templates place members = .ok texts ↔ List.Forall₂
      (fun member entry => member = (entry.1, .str entry.2)) members texts := by
    rw [templates_eq_mapM]
    refine mapM_eq_ok_iff fun member entry => ?_
    rw [map_eq_ok]
    simp only [demand_eq_ok_iff, Value.text?_eq_some_iff]
    constructor
    · rintro ⟨text, htext, rfl⟩
      exact Prod.ext rfl htext
    · rintro rfl
      exact ⟨entry.2, rfl, rfl⟩
  rw [hread, ← List.forall₂_eq_eq_eq, List.forall₂_map_right_iff]

theorem nodeType_eq_ok_iff {id : String} {t : NodeType} :
    nodeType place id item = .ok t ↔ DescribesType id item t := by
  constructor
  · intro h
    simp only [nodeType, bind_eq_ok, demand_eq_ok_iff, orEmpty_eq_iff, pins_eq_ok_iff,
      templates_eq_ok_iff] at h
    obtain ⟨fields, hfields, pure, hpure, raises, hraises, members, hmembers, declared, hdeclared,
      _, htexts, texts, rfl, h⟩ := h
    obtain rfl := Value.members?_eq_some_iff.mp hfields
    obtain rfl := pure_eq_ok.mp h
    exact {
      isObject := ⟨fields, rfl⟩
      id_eq := rfl
      pure := (optional_eq_ok_iff Value.bool?_eq_some_iff).mp hpure
      raises := (optional_eq_ok_iff Value.bool?_eq_some_iff).mp hraises
      pins := ⟨members, hmembers, hdeclared⟩
      templates := htexts }
  · intro h
    obtain ⟨fields, rfl⟩ := h.isObject
    obtain ⟨members, hmembers, hpins⟩ := h.pins
    simp only [nodeType, bind_eq_ok, demand_eq_ok_iff, orEmpty_eq_iff, pins_eq_ok_iff,
      templates_eq_ok_iff]
    refine ⟨fields, rfl, t.pure, (optional_eq_ok_iff Value.bool?_eq_some_iff).mpr h.pure, t.raises,
      (optional_eq_ok_iff Value.bool?_eq_some_iff).mpr h.raises, members, hmembers, t.pins, hpins,
      _, h.templates, t.templates, rfl, ?_⟩
    rw [← h.id_eq]
    rfl

theorem catalog_eq_mapM (members : Members) : catalog place members =
    members.mapM fun member => nodeType (place.key (.str member.1)) member.1 member.2 := by
  induction members with
  | nil => rfl
  | cons member rest ih => rw [catalog, List.mapM_cons, ih]

theorem catalog_eq_ok_iff {members : Members} {types : Catalog} :
    catalog place members = .ok types ↔
      List.Forall₂ (fun member t => DescribesType member.1 member.2 t) members types := by
  rw [catalog_eq_mapM]
  exact mapM_eq_ok_iff fun member t => nodeType_eq_ok_iff

end

/-! ## Documents -/

/-- A document is accepted as the projects that it describes. -/
theorem checked_eq_ok_iff {document : Value} {p : Project} :
    checked document = .ok p ↔ Describes document p := by
  constructor
  · intro h
    simp only [checked, bind_eq_ok, demand_eq_ok_iff, orEmpty_eq_iff, patches_eq_ok_iff,
      catalog_eq_ok_iff] at h
    obtain ⟨fields, hfields, name, hname, members, hmembers, found, hfound, types, htypes, declared,
      hdeclared, h⟩ := h
    obtain rfl := Value.members?_eq_some_iff.mp hfields
    obtain rfl := pure_eq_ok.mp h
    exact {
      isObject := ⟨fields, rfl⟩
      name := (optional_eq_ok_iff Value.text?_eq_some_iff).mp hname
      patches := ⟨members, hmembers, hfound⟩
      catalog := ⟨types, htypes, hdeclared⟩ }
  · intro h
    obtain ⟨fields, rfl⟩ := h.isObject
    obtain ⟨members, hmembers, hfound⟩ := h.patches
    obtain ⟨types, htypes, hdeclared⟩ := h.catalog
    simp only [checked, bind_eq_ok, demand_eq_ok_iff, orEmpty_eq_iff, patches_eq_ok_iff,
      catalog_eq_ok_iff]
    exact ⟨fields, rfl, p.name, (optional_eq_ok_iff Value.text?_eq_some_iff).mpr h.name, members,
      hmembers, p.patches, hfound, types, htypes, p.catalog, hdeclared, rfl⟩

theorem checked_of_project {document : Value} {p : Project} (h : project document = .ok p) :
    checked document = .ok p := by
  simp only [project, bind_eq_ok] at h
  obtain ⟨p', hchecked, h⟩ := h
  split at h
  · exact absurd h (by simp)
  · obtain rfl := pure_eq_ok.mp h
    exact hchecked

/-- The project that is built of a document is described by it. -/
theorem describes_of_project {document : Value} {p : Project} (h : project document = .ok p) :
    Describes document p :=
  checked_eq_ok_iff.mp (checked_of_project h)

/-- The patches of a project that is built of a document are sound. -/
theorem sound_of_project {document : Value} {p : Project} (h : project document = .ok p) :
    ∀ patch ∈ p.patches, patch.Sound := by
  obtain ⟨members, _, hpatches⟩ := (describes_of_project h).patches
  intro patch hpatch
  obtain ⟨_, _, hdescribes⟩ := Matched.exists_left hpatches hpatch
  exact ⟨hdescribes.distinct, hdescribes.ends⟩

end Document

end Patchbay
