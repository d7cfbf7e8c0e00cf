import Patchbay.Proofs.Project.PatchOrder

/-!
# The links of a document

What becomes of the entries under `links` when a document is read. Each is a link with two ends, as
the entry spells them; but links are kept by the texts of their ids, and of several entries with one
text only the last is kept. So a patch has a link for each entry exactly if no two entries have ids of
one text (`links_of_checked`). The members of an object have different keys; the items of a list
can hold any ids, and `1` and `"1"` are one text (`checked_twin`).
-/

namespace Patchbay

namespace Document

/-- The patches of a document under their paths. -/
def patchMembers (document : Value) : Members :=
  ((document.member? "patches").bind Value.members?).getD []

/-- The links of a patch with their ids: the keys of an object, or what the items of a list hold. -/
def linkItems (patch : Value) : List (Value × Value) :=
  match (patch.member? "links").getD (.obj []) with
  | .obj members => members.map fun member => (.str member.1, member.2)
  | .arr items => items.map fun item => ((item.member? "id").getD .null, item)
  | _ => []

/-- The value spells the end of a link: a node by its number, and a pin by its key. -/
def SpellsEnd (item : Value) (e : LinkEnd) : Prop :=
  ∃ id key, item.member? "nodeId" = some id ∧ id.integer? = some e.node ∧
    item.member? "pinKey" = some (.str key) ∧ e.pin = PinRef.parse key

/-- The entry spells the link: its id, and its two ends in their order. -/
def Spells (entry : Value × Value) (l : Link) : Prop :=
  l.id = entry.1.display ∧ ∃ first second, entry.2.member? "pins" = some (.arr [first, second]) ∧
    SpellsEnd first l.first ∧ SpellsEnd second l.second

/-- The link is what the last entry with its id spells. -/
def SpeltLast (entries : List (Value × Value)) (l : Link) : Prop :=
  ∃ earlier entry later, entries = earlier ++ entry :: later ∧ Spells entry l ∧
    ∀ other ∈ later, other.1.display ≠ l.id

/-- How links are made of entries. -/
structure LinksRead (entries : List (Value × Value)) (joined : List Link) : Prop where
  /-- No two links have the same id. -/
  distinct : (joined.map Link.id).Nodup
  /-- There is a link with the id of each entry. -/
  kept : ∀ entry ∈ entries, ∃ l ∈ joined, l.id = entry.1.display
  /-- A link is what the last entry with its id spells. -/
  last : ∀ l ∈ joined, SpeltLast entries l
  /-- There are as many links as entries exactly if the ids differ as texts. -/
  length_eq_iff : joined.length = entries.length ↔
    (entries.map fun entry => entry.1.display).Nodup
  /-- If they do, each entry has a link of its own, in the same order. -/
  spelled : (entries.map fun entry => entry.1.display).Nodup → List.Forall₂ Spells entries joined

/-! ## One link -/

variable {known : List Node} {key item : Value}

theorem DescribesEnd.spellsEnd {e : LinkEnd} (h : DescribesEnd known item e) :
    SpellsEnd item e := by
  obtain ⟨id, key, hid, hgives, hkey, hpin, _⟩ := h
  exact ⟨id, key, hid, (gives_iff.mp hgives).1, hkey, hpin⟩

theorem DescribesLink.spells {l : Link} (h : DescribesLink known key item l) :
    Spells (key, item) l := by
  obtain ⟨hid, first, second, hpins, hfirst, hsecond⟩ := h
  exact ⟨hid, first, second, hpins, hfirst.spellsEnd, hsecond.spellsEnd⟩

/-! ## All links of a patch -/

variable {l m : Link} {joined : List Link}

theorem mem_ids_putLink {id : String} :
    id ∈ (putLink l joined).map Link.id ↔ id = l.id ∨ id ∈ joined.map Link.id := by
  induction joined with
  | nil => simp [putLink]
  | cons other rest ih =>
    rw [putLink]
    split
    · next heq => simp [heq]
    · simp only [List.map_cons, List.mem_cons] at ih ⊢
      rw [ih]
      exact or_left_comm

theorem nodup_putLink (h : (joined.map Link.id).Nodup) :
    ((putLink l joined).map Link.id).Nodup := by
  induction joined with
  | nil => simp [putLink]
  | cons other rest ih =>
    obtain ⟨hother, hrest⟩ := List.nodup_cons.mp h
    rw [putLink]
    split
    · next heq =>
      rw [List.map_cons, ← heq]
      exact h
    · next hne =>
      refine List.nodup_cons.mpr ⟨fun hmem => ?_, ih hrest⟩
      rcases mem_ids_putLink.mp hmem with heq | hmem
      · exact hne heq
      · exact hother hmem

theorem self_mem_putLink : l ∈ putLink l joined := by
  induction joined with
  | nil => exact List.mem_cons_self
  | cons other rest ih =>
    rw [putLink]
    split
    · exact List.mem_cons_self
    · exact List.mem_cons_of_mem _ ih

/-- A link that is put in takes the place of the one with its id. -/
theorem eq_or_of_mem_putLink (h : (joined.map Link.id).Nodup) (hm : m ∈ putLink l joined) :
    m = l ∨ m ∈ joined ∧ m.id ≠ l.id := by
  rcases mem_putLink hm with heq | hmem
  · exact .inl heq
  · by_cases hid : m.id = l.id
    · exact .inl (List.inj_on_of_nodup_map (nodup_putLink h) hm self_mem_putLink hid)
    · exact .inr ⟨hmem, hid⟩

variable {earlier made : List Link} {found : List (Value × Value)}

/-- The ids of the links are those of the links before and of those that were made. -/
theorem ids_joined (hn : (earlier.map Link.id).Nodup) :
    ((made.foldl (fun joined l => putLink l joined) earlier).map Link.id).Nodup ∧
      ∀ id, id ∈ (made.foldl (fun joined l => putLink l joined) earlier).map Link.id ↔
        id ∈ earlier.map Link.id ∨ id ∈ made.map Link.id := by
  induction made generalizing earlier with
  | nil => exact ⟨hn, fun id => by simp⟩
  | cons l rest ih =>
    obtain ⟨hdistinct, hids⟩ := ih (nodup_putLink (l := l) hn)
    refine ⟨hdistinct, fun id => ?_⟩
    rw [List.foldl_cons, hids, mem_ids_putLink, List.map_cons, List.mem_cons, or_left_comm,
      or_assoc]

/-- A link is one of those before that no entry has replaced, or the last that was spelled. -/
theorem speltLast_of_joined (hmade : List.Forall₂ Spells found made)
    (hn : (earlier.map Link.id).Nodup) :
    ∀ m ∈ made.foldl (fun joined l => putLink l joined) earlier,
      m ∈ earlier ∧ (∀ entry ∈ found, entry.1.display ≠ m.id) ∨ SpeltLast found m := by
  induction hmade generalizing earlier with
  | nil => exact fun m hm => .inl ⟨hm, by simp⟩
  | @cons entry l rest _ hspells _ ih =>
    intro m hm
    rcases ih (nodup_putLink hn) m hm with ⟨hput, hrest⟩ | ⟨before, other, after, rfl, hspelt⟩
    · rcases eq_or_of_mem_putLink hn hput with rfl | ⟨hearlier, hne⟩
      · exact .inr ⟨[], entry, rest, rfl, hspells, hrest⟩
      · refine .inl ⟨hearlier, fun other hother => ?_⟩
        rcases List.mem_cons.mp hother with rfl | hother
        · exact fun heq => hne (heq.symm.trans hspells.1.symm)
        · exact hrest other hother
    · exact .inr ⟨entry :: before, other, after, rfl, hspelt⟩

/-- The links of a patch, from the entries it has for them. -/
theorem linksRead_of_made
    (hmade : List.Forall₂ (fun entry l => DescribesLink known entry.1 entry.2 l) found made) :
    LinksRead found (made.foldl (fun joined l => putLink l joined) []) := by
  have hspells : List.Forall₂ Spells found made := hmade.imp fun _ _ hl => hl.spells
  have hmadeIds : made.map Link.id = found.map fun entry => entry.1.display :=
    (Matched.map_eq hspells fun _ _ hl => hl.1.symm).symm
  obtain ⟨hdistinct, hids⟩ := @ids_joined [] made List.nodup_nil
  generalize hjoined : made.foldl (fun joined l => putLink l joined) [] = joined at hdistinct hids
  have hids : ∀ id, id ∈ joined.map Link.id ↔ id ∈ found.map fun entry => entry.1.display := by
    intro id
    rw [hids, hmadeIds, List.map_nil]
    exact or_iff_right List.not_mem_nil
  have hspelled : (found.map fun entry => entry.1.display).Nodup →
      List.Forall₂ Spells found joined := by
    intro hn
    rwa [← hjoined, joined_eq_made hmade hn]
  refine ⟨hdistinct, fun entry hentry => ?_, fun l hl => ?_, ⟨fun hlength => ?_, fun hn => ?_⟩,
    hspelled⟩
  · exact List.mem_map.mp ((hids _).mpr (List.mem_map_of_mem hentry))
  · rw [← hjoined] at hl
    have hnone : (([] : List Link).map Link.id).Nodup := List.nodup_nil
    rcases speltLast_of_joined hspells hnone l hl with ⟨hmem, _⟩ | hlast
    · exact absurd hmem List.not_mem_nil
    · exact hlast
  · -- As many different ids as entries, and all of them ids of entries: none comes twice.
    have hsub : joined.map Link.id ⊆ found.map fun entry => entry.1.display :=
      fun id => (hids id).mp
    have hperm := (hdistinct.subperm hsub).perm_of_length_le (by simp [hlength])
    exact hperm.nodup_iff.mp hdistinct
  · exact (hspelled hn).length_eq.symm

/-! ## All patches of a document -/

theorem linkItems_eq (h : HasEntries ((item.member? "links").getD (.obj [])) found) :
    linkItems item = found := by
  rw [linkItems]
  generalize (item.member? "links").getD (.obj []) = v at h
  cases h with
  | object members => rfl
  | @list items _ h =>
    have hmap : List.Forall₂ Eq
        (items.map fun item => ((item.member? "id").getD .null, item)) found := by
      refine List.forall₂_map_left_iff.mpr (h.imp ?_)
      rintro item entry ⟨rfl, hid⟩
      rw [hid]
      rfl
    rwa [List.forall₂_eq_eq_eq] at hmap

theorem DescribesPatch.linksRead {path : String} {p : Patch} (h : DescribesPatch path item p) :
    LinksRead (linkItems item) p.links := by
  obtain ⟨found, made, hfound, hmade, hlinks⟩ := h.links
  rw [linkItems_eq hfound, hlinks]
  exact linksRead_of_made hmade

theorem patchMembers_of_holds {document : Value} {members : Members}
    (h : Holds document "patches" [] .obj members) : patchMembers document = members := by
  unfold patchMembers
  rcases h with ⟨hnone, rfl⟩ | hsome
  · rw [hnone]
    rfl
  · rw [hsome]
    rfl

/-- Of links that stand in an object none is lost, as its keys are different texts. -/
theorem spelled_of_object {members : Members} {joined : List Link}
    (h : LinksRead (linkItems item) joined) (hlinks : item.member? "links" = some (.obj members))
    (hkeys : (members.map Prod.fst).Nodup) : List.Forall₂ Spells (linkItems item) joined := by
  refine h.spelled ?_
  have hitems : linkItems item = members.map fun member => (.str member.1, member.2) := by
    rw [linkItems, hlinks]
    rfl
  rw [hitems, List.map_map]
  exact hkeys

/-- In a document that is accepted, the links of each patch are what their entries spell: the last of
those with one id, and so each of them exactly if their ids differ as texts. -/
theorem links_of_checked {document : Value} {project : Project}
    (h : checked document = .ok project) :
    List.Forall₂ (fun member patch => patch.path = member.1 ∧
      LinksRead (linkItems member.2) patch.links) (patchMembers document) project.patches := by
  obtain ⟨members, hmembers, hpatches⟩ := (checked_eq_ok_iff.mp h).patches
  rw [patchMembers_of_holds hmembers]
  exact hpatches.imp fun _ _ hdescribes => ⟨hdescribes.path_eq, hdescribes.linksRead⟩

end Document

/-! ## Two links in a list -/

namespace Twin

/-- A patch with two links in a list, from the pins `a` and `b` of one node, under these ids. -/
def patch (first second : Value) : Value :=
  .obj [
    ("nodes", .obj [("1", .obj [("type", .str "source")]), ("2", .obj [("type", .str "sink")])]),
    ("links", .arr [
      .obj [("id", first), ("pins", .arr [
        .obj [("nodeId", .int 1), ("pinKey", .str "a")],
        .obj [("nodeId", .int 2), ("pinKey", .str "in")]])],
      .obj [("id", second), ("pins", .arr [
        .obj [("nodeId", .int 1), ("pinKey", .str "b")],
        .obj [("nodeId", .int 2), ("pinKey", .str "in")]])]])]

def document (first second : Value) : Value :=
  .obj [("patches", .obj [("@/main", patch first second)])]

def link (id pin : String) : Link := ⟨id, ⟨1, .named pin⟩, ⟨2, .named "in"⟩⟩

def project (links : List Link) : Project where
  name := ""
  patches := [⟨"@/main", none, [⟨1, "source", [], 1⟩, ⟨2, "sink", [], 1⟩], links⟩]
  catalog := []

end Twin

theorem Document.links_of_checked_twin :
    checked (Twin.document (.int 1) (.int 2)) =
      .ok (Twin.project [Twin.link "1" "a", Twin.link "2" "b"]) ∧
    List.Forall₂ (fun member patch => patch.path = member.1 ∧
      LinksRead (linkItems member.2) patch.links) (patchMembers (Twin.document (.int 1) (.int 2)))
      (Twin.project [Twin.link "1" "a", Twin.link "2" "b"]).patches := by
  have h : checked (Twin.document (.int 1) (.int 2)) =
      .ok (Twin.project [Twin.link "1" "a", Twin.link "2" "b"]) := by cbv
  exact ⟨h, links_of_checked h⟩

/-- Of two links with the ids `1` and `"1"`, which are one text, the first is lost. -/
theorem Document.checked_twin :
    checked (Twin.document (.int 1) (.str "1")) = .ok (Twin.project [Twin.link "1" "b"]) ∧
    (linkItems (Twin.patch (.int 1) (.str "1"))).length = 2 := by
  refine ⟨?_, rfl⟩
  cbv

end Patchbay
