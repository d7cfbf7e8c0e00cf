import Patchbay.Proofs.Project.Catalog
import Patchbay.Proofs.Project.Reordering

/-!
# Patches described up to order

Two patches of documents are `Document.PatchReordered` if they differ in the order of the members of
their objects, and of the entries of nodes and links that are given as lists, at most. Where the
links of each have ids that differ as texts, they describe patches that are alike
(`DescribesPatch.alike`): each node and each link of one has its counterpart in the other.
-/

namespace Patchbay

namespace Document

/-- Two objects have the same keys, each once, and under each key values that are related in a way
of the key. -/
def ObjectBy (R : String → Value → Value → Prop) (v w : Value) : Prop :=
  ∃ members others, v = .obj members ∧ w = .obj others ∧ (members.map Prod.fst).Nodup ∧
    Shuffled (fun a b => a.1 = b.1 ∧ R a.1 a.2 b.2) members others

/-- Two collections of nodes or links: as lists they may differ in the order of their entries. -/
def CollectionReordered (v w : Value) : Prop :=
  v.Reordered w ∨
    ∃ items others, v = .arr items ∧ w = .arr others ∧ Shuffled Value.Reordered items others

/-- Two members of patches, under one key: nodes and links are collections. -/
def PatchMember (key : String) (v w : Value) : Prop :=
  if key = "nodes" ∨ key = "links" then CollectionReordered v w else v.Reordered w

/-- Two patches differ in the order of members and of nodes and links at most. -/
def PatchReordered : Value → Value → Prop := ObjectBy PatchMember

/-- The texts of the ids of the links of a patch. -/
def linkIds (patch : Value) : List String :=
  match entries [] ((patch.member? "links").getD (.obj [])) with
  | .ok entries => entries.map fun entry => entry.1.display
  | .error _ => []

/-! ## Fields -/

variable {v w : Value}

theorem ObjectBy.lookup {R : String → Value → Value → Prop} {members others : Members}
    (hn : (members.map Prod.fst).Nodup)
    (h : Shuffled (fun a b => a.1 = b.1 ∧ R a.1 a.2 b.2) members others) (key : String) :
    Option.Rel (R key) (members.lookup key) (others.lookup key) := by
  have hfound := h.find? (fun _ _ hr => hr.1) hn key
  rw [Keyed.lookup_eq_find?, Keyed.lookup_eq_find?]
  cases hleft : members.find? (·.1 = key) with
  | none =>
    rw [hleft] at hfound
    generalize others.find? (·.1 = key) = found' at hfound ⊢
    cases hfound with
    | none => exact .none
  | some member =>
    have hkey : member.1 = key := (Keyed.mem_of_find? hleft).2
    rw [hleft] at hfound
    generalize others.find? (·.1 = key) = found' at hfound ⊢
    cases hfound with
    | some hr => exact .some (hkey ▸ hr.2)

theorem ObjectBy.member? {R : String → Value → Value → Prop} (h : ObjectBy R v w) (name : String) :
    Option.Rel (R name) (v.member? name) (w.member? name) := by
  obtain ⟨members, others, rfl, rfl, hn, hmembers⟩ := h
  exact ObjectBy.lookup hn hmembers name

/-- Numbers that reordered values give are the same. -/
theorem Gives.eq {n m : Int} (h : Gives v n) (h' : Gives w m) (hr : v.Reordered w) : n = m := by
  cases h with
  | whole =>
    cases hr with
    | int =>
      cases h' with
      | whole => rfl
  | numeral hs hlength =>
    cases hr with
    | str =>
      cases h' with
      | numeral _ _ => rfl

/-- What two objects hold under one optional name is related if what stands there is. -/
theorem Holds.related {α : Type} {Q : Value → Value → Prop} {R : α → α → Prop} {name : String}
    {absent a b : α} {value : α → Value} (h : Holds v name absent value a)
    (h' : Holds w name absent value b) (hmember : Option.Rel Q (v.member? name) (w.member? name))
    (habsent : R absent absent) (hvalue : ∀ a b, Q (value a) (value b) → R a b) : R a b := by
  rcases h with ⟨hv, rfl⟩ | hv
  · rcases h' with ⟨_, rfl⟩ | hw
    · exact habsent
    · rw [hv, hw] at hmember
      cases hmember
  · rcases h' with ⟨hw, _⟩ | hw
    · rw [hv, hw] at hmember
      cases hmember
    · rw [hv, hw] at hmember
      cases hmember with
      | some hr => exact hvalue a b hr

theorem alike_of_obj {members others : Members}
    (h : (Value.obj members).Reordered (.obj others)) : members.Alike others := by
  cases h with
  | obj hn h hperm => exact ⟨hn, _, Value.membersReordered_iff.mp h, hperm⟩

theorem alike_nil : Members.Alike [] [] := ⟨List.nodup_nil, .nil⟩

theorem eq_of_str {s t : String} (h : (Value.str s).Reordered (.str t)) : s = t :=
  Option.some.inj h.text?_eq

theorem eq_of_bool {b c : Bool} (h : (Value.bool b).Reordered (.bool c)) : b = c :=
  Option.some.inj h.bool?_eq

/-! ## Nodes -/

variable {key key' item item' : Value}

/-- Entries of two collections of nodes that are reordered describe nodes that are alike. -/
theorem DescribesNode.like {n n' : Node} (h : DescribesNode key item n)
    (h' : DescribesNode key' item' n') (hkey : key.Reordered key')
    (hitem : item.Reordered item') : Node.Like .reordered n n' where
  id_eq := h.id.eq h'.id hkey
  type_eq := by
    have hfound : Option.Rel Value.Reordered (item.member? "type" <|> item.member? "typeId")
        (item'.member? "type" <|> item'.member? "typeId") := by
      have htype := hitem.member? "type"
      generalize item.member? "type" = found at htype
      generalize item'.member? "type" = found' at htype
      cases htype with
      | none => exact hitem.member? "typeId"
      | some hv => exact .some hv
    rw [h.type, h'.type] at hfound
    cases hfound with
    | some hv => exact eq_of_str hv
  arity_eq := by
    have hfound := hitem.member? "arityLevel"
    rcases h.arity with ⟨hv, harity⟩ | ⟨v, hv, hgives⟩
    · rcases h'.arity with ⟨_, harity'⟩ | ⟨w, hw, _⟩
      · rw [harity, harity']
      · rw [hv, hw] at hfound
        cases hfound
    · rcases h'.arity with ⟨hw, _⟩ | ⟨w, hw, hgives'⟩
      · rw [hv, hw] at hfound
        cases hfound
      · rw [hv, hw] at hfound
        cases hfound with
        | some hr => exact hgives.eq hgives' hr
  properties := h.properties.related h'.properties (hitem.member? "properties") alike_nil
    fun _ _ => alike_of_obj

/-! ## Collections -/

/-- Two entries of collections have ids and items that are reordered. -/
def EntryReordered (entry other : Value × Value) : Prop :=
  entry.1.Reordered other.1 ∧ entry.2.Reordered other.2

variable {found found' : List (Value × Value)}

theorem shuffled_of_items {items others : List Value} (h : Shuffled Value.Reordered items others)
    (hfound : HasEntries (.arr items) found) (hfound' : HasEntries (.arr others) found') :
    Shuffled EntryReordered found found' := by
  cases hfound with
  | list hfound =>
    cases hfound' with
    | list hfound' =>
      refine h.transfer hfound hfound' ?_
      rintro item other entry entry' hr ⟨rfl, hid⟩ ⟨rfl, hid'⟩
      have hids := hr.member? "id"
      rw [hid, hid'] at hids
      cases hids with
      | some hids => exact ⟨hids, hr⟩

theorem HasEntries.shuffled (hfound : HasEntries v found) (hfound' : HasEntries w found')
    (h : CollectionReordered v w) : Shuffled EntryReordered found found' := by
  rcases h with h | ⟨items, others, rfl, rfl, h⟩
  · cases h with
    | obj hn h hperm =>
      cases hfound with
      | object =>
        cases hfound' with
        | object =>
          have hmembers : Members.Alike _ _ := ⟨hn, _, Value.membersReordered_iff.mp h, hperm⟩
          refine hmembers.shuffled.map fun member other hr => ⟨?_, hr.2⟩
          change Value.Reordered (.str member.1) (.str other.1)
          rw [hr.1]
          exact .str _
    | arr h =>
      exact shuffled_of_items (.of_forall₂ (Value.itemsReordered_iff.mp h)) hfound hfound'
    | _ => cases hfound
  · exact shuffled_of_items h hfound hfound'

/-! ## Links -/

theorem DescribesEnd.eq {known known' : List Node} {e e' : LinkEnd} (h : DescribesEnd known v e)
    (h' : DescribesEnd known' w e') (hr : v.Reordered w) : e = e' := by
  obtain ⟨id, key, hid, hgives, hkey, hpin, _⟩ := h
  obtain ⟨id', key', hid', hgives', hkey', hpin', _⟩ := h'
  have hids := hr.member? "nodeId"
  have hkeys := hr.member? "pinKey"
  rw [hid, hid'] at hids
  rw [hkey, hkey'] at hkeys
  obtain ⟨node, pin⟩ := e
  obtain ⟨node', pin'⟩ := e'
  cases hids with
  | some hids =>
    cases hkeys with
    | some hkeys =>
      obtain rfl : node = node' := hgives.eq hgives' hids
      obtain rfl := eq_of_str hkeys
      exact congrArg _ (hpin.trans hpin'.symm)

/-- The text of an array or of an object is no numeral. -/
theorem idFault?_of_open {c : Char} {s : String} (hc : Text.Numeral.isAsciiDigit c = false)
    (hs : s.toList.head? = some c) : Link.idFault? s = none := by
  have hno : Text.Numeral.isAsciiNumeral s = false := by
    unfold Text.Numeral.isAsciiNumeral
    cases hchars : s.toList with
    | nil => rfl
    | cons first rest =>
      rw [hchars] at hs
      obtain rfl := Option.some.inj hs
      simp [hc]
  rw [Link.idFault?, hno]
  rfl

theorem idFault?_display_eq (h : v.Reordered w) :
    Link.idFault? v.display = Link.idFault? w.display := by
  have hopen : ∀ {s : String}, s.toList.head? = some '[' ∨ s.toList.head? = some '{' →
      Link.idFault? s = none := by
    rintro s (hs | hs)
    · exact idFault?_of_open (by decide) hs
    · exact idFault?_of_open (by decide) hs
  cases h with
  | arr _ =>
    rw [hopen (.inl (by simp [Value.display, Value.nested, String.toList_append])),
      hopen (.inl (by simp [Value.display, Value.nested, String.toList_append]))]
  | obj _ _ _ =>
    rw [hopen (.inr (by simp [Value.display, Value.nested, String.toList_append])),
      hopen (.inr (by simp [Value.display, Value.nested, String.toList_append]))]
  | _ => rfl

theorem DescribesLink.alike {known known' : List Node} {l l' : Link}
    (h : DescribesLink known key item l) (h' : DescribesLink known' key' item' l')
    (hkey : key.Reordered key') (hitem : item.Reordered item') : Link.Alike l l' := by
  obtain ⟨hid, first, second, hpins, hfirst, hsecond⟩ := h
  obtain ⟨hid', first', second', hpins', hfirst', hsecond'⟩ := h'
  have hends := hitem.member? "pins"
  rw [hpins, hpins'] at hends
  have hid : Link.idFault? l.id = Link.idFault? l'.id := by
    rw [hid, hid', idFault?_display_eq hkey]
  cases hends with
  | some hends =>
    cases hends with
    | arr hends =>
      cases hends with
      | cons ha hends =>
        cases hends with
        | cons hb _ => exact ⟨hfirst.eq hfirst' ha, hsecond.eq hsecond' hb, hid⟩

theorem putLink_eq_append {l : Link} {earlier : List Link} (h : l.id ∉ earlier.map Link.id) :
    putLink l earlier = earlier ++ [l] := by
  induction earlier with
  | nil => rfl
  | cons other rest ih =>
    rw [List.map_cons, List.mem_cons, not_or] at h
    rw [putLink, if_neg (Ne.symm h.1), ih h.2, List.cons_append]

/-- Links with ids that differ are all kept. -/
theorem joined_eq_append {made earlier : List Link}
    (hn : (earlier.map Link.id ++ made.map Link.id).Nodup) :
    made.foldl (fun joined l => putLink l joined) earlier = earlier ++ made := by
  induction made generalizing earlier with
  | nil => simp
  | cons l rest ih =>
    rw [List.map_cons, List.append_cons] at hn
    have hfresh : l.id ∉ earlier.map Link.id := by
      have hearlier := (List.nodup_append.mp hn).1
      rw [← List.concat_eq_append, List.nodup_concat] at hearlier
      exact hearlier.1
    rw [List.foldl_cons, putLink_eq_append hfresh,
      ih (by rwa [List.map_append, List.map_singleton]), List.append_assoc, List.singleton_append]

/-- Where their ids differ as texts, each entry of a collection describes a link that is kept. -/
theorem joined_eq_made {known : List Node} {made : List Link}
    (hmade : List.Forall₂ (fun entry l => DescribesLink known entry.1 entry.2 l) found made)
    (hn : (found.map fun entry => entry.1.display).Nodup) :
    made.foldl (fun joined l => putLink l joined) [] = made := by
  have hids : (found.map fun entry => entry.1.display) = made.map Link.id :=
    Matched.map_eq hmade fun _ _ hl => hl.1.symm
  exact joined_eq_append (hids ▸ hn)

/-! ## Patches -/

theorem linkIds_eq (hfound : HasEntries ((item.member? "links").getD (.obj [])) found) :
    linkIds item = found.map fun entry => entry.1.display := by
  rw [linkIds, entries_eq_ok_iff.mpr hfound]

theorem reordered_empty : Value.Reordered (.obj []) (.obj []) := .obj List.nodup_nil .nil (.refl _)

theorem PatchReordered.collection (h : PatchReordered v w) {name : String}
    (hname : name = "nodes" ∨ name = "links") :
    CollectionReordered ((v.member? name).getD (.obj [])) ((w.member? name).getD (.obj [])) := by
  have hmember := ObjectBy.member? h name
  generalize v.member? name = found at hmember
  generalize w.member? name = found' at hmember
  cases hmember with
  | none => exact .inl reordered_empty
  | some hr =>
    rw [PatchMember, if_pos hname] at hr
    exact hr

/-- Patches that are reordered describe patches that are alike, where their links have ids that
differ as texts. -/
theorem DescribesPatch.alike {path : String} {p q : Patch} (hp : DescribesPatch path v p)
    (hq : DescribesPatch path w q) (h : PatchReordered v w) (hv : (linkIds v).Nodup)
    (hw : (linkIds w).Nodup) : Patch.Alike p q where
  path_eq := hp.path_eq.trans hq.path_eq.symm
  nodes := by
    obtain ⟨found, hfound, hnodes⟩ := hp.nodes
    obtain ⟨found', hfound', hnodes'⟩ := hq.nodes
    exact (hfound.shuffled hfound' (h.collection (.inl rfl))).transfer hnodes hnodes'
      fun _ _ _ _ hr hn hn' => hn.like hn' hr.1 hr.2
  ids_nodup := hp.distinct
  links := by
    obtain ⟨found, made, hfound, hmade, hjoined⟩ := hp.links
    obtain ⟨found', made', hfound', hmade', hjoined'⟩ := hq.links
    rw [hjoined, hjoined', joined_eq_made hmade (linkIds_eq hfound ▸ hv),
      joined_eq_made hmade' (linkIds_eq hfound' ▸ hw)]
    exact (hfound.shuffled hfound' (h.collection (.inr rfl))).transfer hmade hmade'
      fun _ _ _ _ hr hl hl' => hl.alike hl' hr.1 hr.2

end Document

end Patchbay
