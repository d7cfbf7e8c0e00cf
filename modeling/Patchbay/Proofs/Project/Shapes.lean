import Patchbay.Proofs.Project.Acceptance
import Patchbay.Proofs.Project.LinkEntries

/-!
# Lists and objects of entries

The nodes and the links of a patch may be given as a list or as an object. Each list whose items hold
ids that differ as texts can be written as the object of the same items under these texts
(`Document.keyed`), in all patches of a document at once (`Document.allKeyed`). That changes neither
whether the document is accepted nor what is built of it, as long as the ids of the nodes are
numerals as texts (`keyed_iff`); a list may hold negative ids, and an object may not
(`checked_sunken`).
-/

namespace Patchbay

namespace Document

/-- The text of the id that an item holds. -/
def idText (item : Value) : String := ((item.member? "id").getD .null).display

/-- Each item holds an id, and the ids differ as texts. -/
def Keyable (items : List Value) : Prop :=
  (∀ item ∈ items, (item.member? "id").isSome = true) ∧ (items.map idText).Nodup

instance (items : List Value) : Decidable (Keyable items) :=
  inferInstanceAs (Decidable (_ ∧ _))

/-- The collection, as an object if it is a list whose items hold ids that differ as texts. -/
def keyed : Value → Value
  | .arr items =>
    if Keyable items then .obj (items.map fun item => (idText item, item)) else .arr items
  | v => v

theorem keyed_eq_self {v : Value} (h : ¬ ∃ items, v = .arr items ∧ Keyable items) :
    keyed v = v := by
  cases v with
  | arr items => exact if_neg fun hitems => h ⟨items, rfl, hitems⟩
  | _ => rfl

/-- The members with what stands under a name changed. -/
def changed (name : String) (f : Value → Value) (fields : Members) : Members :=
  fields.map fun member => if member.1 = name then (member.1, f member.2) else member

/-- The patch with its nodes and links as objects. -/
def patchKeyed : Value → Value
  | .obj fields => .obj (changed "nodes" keyed (changed "links" keyed fields))
  | v => v

/-- The patches with their nodes and links as objects. -/
def patchesKeyed : Value → Value
  | .obj members => .obj (members.map fun member => (member.1, patchKeyed member.2))
  | v => v

/-- The document with the nodes and links of all patches as objects. -/
def allKeyed : Value → Value
  | .obj fields => .obj (changed "patches" patchesKeyed fields)
  | v => v

/-- A whole number among the ids of the list that becomes an object is not negative, and it has no
more digits than a number that is read. -/
def NumeralIds (v : Value) : Prop :=
  ∀ items, v = .arr items → Keyable items → ∀ item ∈ items, ∀ n, item.member? "id" = some (.int n) →
    0 ≤ n ∧ (Text.Numeral.intText n).toList.length ≤ Text.Numeral.limit

/-! ## Members -/

section

variable {name key : String} {f : Value → Value} {fields : Members}

theorem lookup_changed : (changed name f fields).lookup key =
    if key = name then (fields.lookup key).map f else fields.lookup key := by
  induction fields with
  | nil => simp [changed]
  | cons member rest ih =>
    have hcons : changed name f (member :: rest) =
        (member.1, if member.1 = name then f member.2 else member.2) :: changed name f rest := by
      rw [changed, List.map_cons, ← changed]
      split
      · rfl
      · rfl
    rw [hcons, List.lookup_cons, List.lookup_cons, ih]
    by_cases hkey : key = member.1
    · subst hkey
      by_cases hname : member.1 = name
      · simp [hname]
      · simp [hname]
    · rw [beq_false_of_ne hkey]

theorem member?_patchKeyed (item : Value) : (patchKeyed item).member? key =
    if key = "nodes" ∨ key = "links" then (item.member? key).map keyed else item.member? key := by
  cases item with
  | obj fields =>
    change (changed "nodes" keyed (changed "links" keyed fields)).lookup key =
      if key = "nodes" ∨ key = "links" then (fields.lookup key).map keyed else fields.lookup key
    rw [lookup_changed, lookup_changed]
    by_cases hnodes : key = "nodes"
    · subst hnodes
      simp
    · by_cases hlinks : key = "links"
      · subst hlinks
        simp
      · simp [hnodes, hlinks]
  | _ => simp [patchKeyed, Value.member?]

theorem member?_allKeyed (document : Value) : (allKeyed document).member? key =
    if key = "patches" then (document.member? key).map patchesKeyed
    else document.member? key := by
  cases document with
  | obj fields => exact lookup_changed
  | _ => simp [allKeyed, Value.member?]

theorem keyed_getD (found : Option Value) :
    (found.map keyed).getD (.obj []) = keyed (found.getD (.obj [])) := by
  cases found with
  | none => rfl
  | some v => rfl

end

/-! ## Entries -/

/-- The entry under the text of its id. -/
def textKeyed (entry : Value × Value) : Value × Value := (.str entry.1.display, entry.2)

/-- The entries of the list and of the object: the items under their ids, and under the texts of
these. -/
theorem hasEntries_keyed {items : List Value} (hitems : Keyable items)
    {found : List (Value × Value)} : HasEntries (keyed (.arr items)) found ↔
      ∃ entries, HasEntries (.arr items) entries ∧ found = entries.map textKeyed := by
  have hentries : HasEntries (.arr items)
      (items.map fun item => ((item.member? "id").getD .null, item)) := by
    refine .list (List.forall₂_map_right_iff.mpr (List.forall₂_same.mpr fun item hitem => ?_))
    obtain ⟨id, hid⟩ := Option.isSome_iff_exists.mp (hitems.1 item hitem)
    exact ⟨rfl, by rw [hid]; rfl⟩
  rw [keyed, if_pos hitems]
  constructor
  · rintro ⟨⟩
    refine ⟨_, hentries, ?_⟩
    rw [List.map_map, List.map_map]
    rfl
  · rintro ⟨entries, h, rfl⟩
    obtain rfl := h.unique hentries
    have hobject := HasEntries.object (items.map fun item => (idText item, item))
    rw [List.map_map] at hobject ⊢
    exact hobject

theorem HasEntries.listed {items : List Value} {entries : List (Value × Value)}
    (h : HasEntries (.arr items) entries) :
    entries.map Prod.snd = items ∧ ∀ entry ∈ entries, entry.2.member? "id" = some entry.1 := by
  cases h with
  | list h =>
    induction h with
    | nil => exact ⟨rfl, nofun⟩
    | cons hentry _ ih =>
      obtain ⟨rfl, hid⟩ := hentry
      exact ⟨congrArg _ ih.1, List.forall_mem_cons.mpr ⟨hid, ih.2⟩⟩

/-- A node that is listed under its own id is described under the text of that id as well, unless
the id is a whole number that is no numeral. -/
theorem describesNode_textKeyed_iff {id item : Value} {n : Node}
    (hown : item.member? "id" = some id) : DescribesNode (.str id.display) item n ↔
      DescribesNode id item n ∧ ∀ m, id = .int m →
        0 ≤ m ∧ (Text.Numeral.intText m).toList.length ≤ Text.Numeral.limit := by
  constructor
  · intro h
    refine ⟨{ h with id := h.own id hown }, ?_⟩
    rintro m rfl
    have hid := h.id
    generalize n.id = number at hid
    cases hid with
    | numeral hs hlength => exact ⟨Text.Numeral.isAsciiNumeral_intText_iff.mp hs, hlength⟩
  · rintro ⟨h, hnumeral⟩
    refine { h with id := ?_ }
    have hid := h.id
    generalize n.id = number at hid
    cases hid with
    | whole =>
      obtain ⟨hpos, hlength⟩ := hnumeral number rfl
      have hgives := Gives.numeral (Text.Numeral.isAsciiNumeral_intText_iff.mpr hpos) hlength
      rwa [Text.Numeral.value_intText hpos] at hgives
    | numeral hs hlength => exact .numeral hs hlength

/-- As `describesNode_textKeyed_iff`, for all nodes of a list. -/
theorem nodes_textKeyed_iff {entries : List (Value × Value)} {made : List Node}
    (hown : ∀ entry ∈ entries, entry.2.member? "id" = some entry.1) :
    List.Forall₂ (fun entry n => DescribesNode entry.1 entry.2 n) (entries.map textKeyed) made ↔
      List.Forall₂ (fun entry n => DescribesNode entry.1 entry.2 n) entries made ∧
        ∀ entry ∈ entries, ∀ m, entry.2.member? "id" = some (.int m) →
          0 ≤ m ∧ (Text.Numeral.intText m).toList.length ≤ Text.Numeral.limit := by
  induction entries generalizing made with
  | nil => simp
  | cons entry rest ih =>
    obtain ⟨hentry, hrest⟩ := List.forall_mem_cons.mp hown
    rw [List.map_cons, List.forall_mem_cons, hentry]
    simp only [List.forall₂_cons_left_iff, ih hrest, textKeyed, describesNode_textKeyed_iff hentry,
      Option.some.injEq]
    constructor
    · rintro ⟨n, others, ⟨hn, hnumeral⟩, ⟨hothers, hnumerals⟩, rfl⟩
      exact ⟨⟨n, others, hn, hothers, rfl⟩, hnumeral, hnumerals⟩
    · rintro ⟨⟨n, others, hn, hothers, rfl⟩, hnumeral, hnumerals⟩
      exact ⟨n, others, ⟨hn, hnumeral⟩, ⟨hothers, hnumerals⟩, rfl⟩

/-- What the entries of a collection of nodes describe, its ids as they are and as texts. -/
theorem hasNodes_keyed_iff {v : Value} {made : List Node} :
    (∃ found, HasEntries (keyed v) found ∧
      List.Forall₂ (fun entry n => DescribesNode entry.1 entry.2 n) found made) ↔
    (∃ found, HasEntries v found ∧
      List.Forall₂ (fun entry n => DescribesNode entry.1 entry.2 n) found made) ∧ NumeralIds v := by
  by_cases hv : ∃ items, v = .arr items ∧ Keyable items
  · obtain ⟨items, rfl, hitems⟩ := hv
    simp only [hasEntries_keyed hitems]
    constructor
    · rintro ⟨_, ⟨entries, hentries, rfl⟩, hmade⟩
      obtain ⟨rfl, hown⟩ := hentries.listed
      obtain ⟨hmade, hnumerals⟩ := (nodes_textKeyed_iff hown).mp hmade
      refine ⟨⟨entries, hentries, hmade⟩, ?_⟩
      rintro _ ⟨⟩ -
      exact List.forall_mem_map.mpr hnumerals
    · rintro ⟨⟨entries, hentries, hmade⟩, hnumerals⟩
      obtain ⟨rfl, hown⟩ := hentries.listed
      refine ⟨_, ⟨entries, hentries, rfl⟩, (nodes_textKeyed_iff hown).mpr ⟨hmade, ?_⟩⟩
      exact List.forall_mem_map.mp (hnumerals _ rfl hitems)
  · have hnumerals : NumeralIds v := fun items hv' hitems => absurd ⟨items, hv', hitems⟩ hv
    rw [keyed_eq_self hv, and_iff_left hnumerals]

/-- A link has the text of its id in any case, so the links of a collection stay the same. -/
theorem hasLinks_keyed_iff {known : List Node} {v : Value} {made : List Link} :
    (∃ found, HasEntries (keyed v) found ∧
      List.Forall₂ (fun entry l => DescribesLink known entry.1 entry.2 l) found made) ↔
    ∃ found, HasEntries v found ∧
      List.Forall₂ (fun entry l => DescribesLink known entry.1 entry.2 l) found made := by
  by_cases hv : ∃ items, v = .arr items ∧ Keyable items
  · obtain ⟨items, rfl, hitems⟩ := hv
    simp only [hasEntries_keyed hitems]
    constructor
    · rintro ⟨_, ⟨entries, hentries, rfl⟩, hmade⟩
      exact ⟨entries, hentries, List.forall₂_map_left_iff.mp hmade⟩
    · rintro ⟨entries, hentries, hmade⟩
      exact ⟨_, ⟨entries, hentries, rfl⟩, List.forall₂_map_left_iff.mpr hmade⟩
  · rw [keyed_eq_self hv]

/-! ## Patches and documents -/

theorem describesPatch_keyed_iff {path : String} {item : Value} {p : Patch} :
    DescribesPatch path (patchKeyed item) p ↔
      DescribesPatch path item p ∧ NumeralIds ((item.member? "nodes").getD (.obj [])) := by
  have hnodes : ((patchKeyed item).member? "nodes").getD (.obj []) =
      keyed ((item.member? "nodes").getD (.obj [])) := by
    rw [member?_patchKeyed, if_pos (.inl rfl), keyed_getD]
  have hlinks : ((patchKeyed item).member? "links").getD (.obj []) =
      keyed ((item.member? "links").getD (.obj [])) := by
    rw [member?_patchKeyed, if_pos (.inr rfl), keyed_getD]
  have hid : (patchKeyed item).member? "id" = item.member? "id" := by
    rw [member?_patchKeyed, if_neg (by decide)]
  have hobject : (∃ fields, patchKeyed item = .obj fields) ↔ ∃ fields, item = .obj fields := by
    cases item with
    | obj fields => simp [patchKeyed]
    | _ => simp [patchKeyed]
  constructor
  · intro h
    have hmade := h.nodes
    rw [hnodes, hasNodes_keyed_iff] at hmade
    obtain ⟨found, made, hfound, hlinksMade, hjoined⟩ := h.links
    rw [hlinks] at hfound
    obtain ⟨found, hfound, hlinksMade⟩ := hasLinks_keyed_iff.mp ⟨found, hfound, hlinksMade⟩
    exact ⟨{ h with
      isObject := hobject.mp h.isObject
      id_eq := h.id_eq.trans (congrArg idText? hid)
      nodes := hmade.1
      links := ⟨found, made, hfound, hlinksMade, hjoined⟩ }, hmade.2⟩
  · rintro ⟨h, hnumerals⟩
    have hmade := hasNodes_keyed_iff.mpr ⟨h.nodes, hnumerals⟩
    rw [← hnodes] at hmade
    obtain ⟨found, made, hfound, hlinksMade, hjoined⟩ := h.links
    obtain ⟨found, hfound, hlinksMade⟩ := hasLinks_keyed_iff.mpr ⟨found, hfound, hlinksMade⟩
    rw [← hlinks] at hfound
    exact { h with
      isObject := hobject.mpr h.isObject
      id_eq := h.id_eq.trans (congrArg idText? hid).symm
      nodes := hmade
      links := ⟨found, made, hfound, hlinksMade, hjoined⟩ }

theorem holds_patchesKeyed_iff {document : Value} {members : Members} :
    Holds (allKeyed document) "patches" [] .obj members ↔
      ∃ others, Holds document "patches" [] .obj others ∧
        members = others.map fun member => (member.1, patchKeyed member.2) := by
  unfold Holds
  rw [member?_allKeyed, if_pos rfl]
  generalize document.member? "patches" = found
  cases found with
  | none => simp
  | some v =>
    cases v with
    | obj others => simp [patchesKeyed, eq_comm]
    | _ => simp [patchesKeyed]

theorem holds_allKeyed_iff {α : Type} {document : Value} {name : String} {absent a : α}
    {value : α → Value} (hname : name ≠ "patches") :
    Holds (allKeyed document) name absent value a ↔ Holds document name absent value a := by
  unfold Holds
  rw [member?_allKeyed, if_neg hname]

theorem describes_keyed_iff {document : Value} {p : Project} : Describes (allKeyed document) p ↔
    Describes document p ∧ ∀ member ∈ patchMembers document,
      NumeralIds ((member.2.member? "nodes").getD (.obj [])) := by
  have hname : "name" ≠ "patches" := by decide
  have htypes : "nodeTypes" ≠ "patches" := by decide
  have hobject : (∃ fields, allKeyed document = .obj fields) ↔ ∃ fields, document = .obj fields := by
    cases document with
    | obj fields => simp [allKeyed]
    | _ => simp [allKeyed]
  have hpatches : ∀ {members : Members}, List.Forall₂
      (fun member patch => DescribesPatch member.1 member.2 patch)
      (members.map fun member => (member.1, patchKeyed member.2)) p.patches ↔
      List.Forall₂ (fun member patch => DescribesPatch member.1 member.2 patch) members p.patches ∧
        ∀ member ∈ members, NumeralIds ((member.2.member? "nodes").getD (.obj [])) := by
    intro members
    rw [List.forall₂_map_left_iff, and_comm, ← List.forall₂_and_left]
    simp only [describesPatch_keyed_iff, and_comm]
  constructor
  · intro h
    obtain ⟨_, hkeyed, hmade⟩ := h.patches
    obtain ⟨members, hmembers, rfl⟩ := holds_patchesKeyed_iff.mp hkeyed
    obtain ⟨hpatch, hnumerals⟩ := hpatches.mp hmade
    obtain ⟨types, htypesHeld, hcatalog⟩ := h.catalog
    rw [patchMembers_of_holds hmembers]
    exact ⟨{
      isObject := hobject.mp h.isObject
      name := (holds_allKeyed_iff hname).mp h.name
      patches := ⟨members, hmembers, hpatch⟩
      catalog := ⟨types, (holds_allKeyed_iff htypes).mp htypesHeld, hcatalog⟩ }, hnumerals⟩
  · rintro ⟨h, hnumerals⟩
    obtain ⟨members, hmembers, hmade⟩ := h.patches
    obtain ⟨types, htypesHeld, hcatalog⟩ := h.catalog
    rw [patchMembers_of_holds hmembers] at hnumerals
    exact {
      isObject := hobject.mpr h.isObject
      name := (holds_allKeyed_iff hname).mpr h.name
      patches := ⟨_, holds_patchesKeyed_iff.mpr ⟨members, hmembers, rfl⟩,
        hpatches.mpr ⟨hmade, hnumerals⟩⟩
      catalog := ⟨types, (holds_allKeyed_iff htypes).mpr htypesHeld, hcatalog⟩ }

theorem itemsIn_keyed (v : Value) : itemsIn (keyed v) = itemsIn v := by
  by_cases hv : ∃ items, v = .arr items ∧ Keyable items
  · obtain ⟨items, rfl, hitems⟩ := hv
    rw [keyed, if_pos hitems, itemsIn, List.map_map]
    exact List.map_id' items
  · rw [keyed_eq_self hv]

theorem pinKeys_allKeyed (document : Value) : pinKeys (allKeyed document) = pinKeys document := by
  have hlinks : ∀ patch : Value, itemsIn (((patchKeyed patch).member? "links").getD .null) =
      itemsIn ((patch.member? "links").getD .null) := by
    intro patch
    rw [member?_patchKeyed, if_pos (.inr rfl)]
    cases patch.member? "links" with
    | none => rfl
    | some v => exact itemsIn_keyed v
  unfold pinKeys
  rw [member?_allKeyed, if_pos rfl]
  cases document.member? "patches" with
  | none => rfl
  | some v =>
    cases v with
    | obj members =>
      have hitems : itemsIn (patchesKeyed (.obj members)) =
          (itemsIn (.obj members)).map patchKeyed := by
        simp [patchesKeyed, itemsIn]
      rw [Option.map_some, Option.getD_some, hitems, List.flatMap_map]
      simp only [hlinks, Option.getD_some]
    | _ => rfl

/-- Writing the lists of nodes and links as objects keyed by the texts of the ids changes neither
whether the document is accepted nor the project that is built of it, as long as the ids of the
nodes are numerals. Where one is not, the document with objects is refused. -/
theorem keyed_iff (document : Value) (found : Project) :
    (checked (allKeyed document) = .ok found ↔ checked document = .ok found ∧
      ∀ member ∈ patchMembers document, NumeralIds ((member.2.member? "nodes").getD (.obj []))) ∧
    (project (allKeyed document) = .ok found ↔ project document = .ok found ∧
      ∀ member ∈ patchMembers document,
        NumeralIds ((member.2.member? "nodes").getD (.obj []))) := by
  have hchecked : checked (allKeyed document) = .ok found ↔ checked document = .ok found ∧
      ∀ member ∈ patchMembers document, NumeralIds ((member.2.member? "nodes").getD (.obj [])) := by
    rw [checked_eq_ok_iff, checked_eq_ok_iff, describes_keyed_iff]
  refine ⟨hchecked, ?_⟩
  rw [project_eq_ok_iff, project_eq_ok_iff, pinKeys_allKeyed, hchecked, and_right_comm]

end Document

/-! ## A node below zero -/

namespace Sunken

/-- A document with one node in a list, under this id. -/
def document (id : Int) : Value :=
  .obj [("patches", .obj [("@/main", .obj [("nodes", .arr [
    .obj [("id", .int id), ("type", .str "led")]])])])]

def project (id : Int) : Project where
  name := ""
  patches := [⟨"@/main", none, [⟨id, "led", [], 1⟩], []⟩]
  catalog := []

end Sunken

/-- A node with the id -1 is accepted in a list and not in the object of the same node. -/
theorem Document.checked_sunken :
    checked (Sunken.document (-1)) = .ok (Sunken.project (-1)) ∧
    allKeyed (Sunken.document (-1)) = .obj [("patches", .obj [("@/main", .obj [("nodes", .obj [
      ("-1", .obj [("id", .int (-1)), ("type", .str "led")])])])])] ∧
    checked (allKeyed (Sunken.document (-1))) = .error (.malformed
      ⟨[.field "patches", .key (.str "@/main"), .field "nodes", .key (.str "-1")],
        .keyNotAnInteger⟩) := by
  refine ⟨by cbv, by cbv, by cbv⟩

end Patchbay
