import Patchbay.Proofs.Project.Closure

/-!
# Pins keyed by texts

Where no pin of a document is given a key that is not a text, the declared pins of its project are
keyed by texts (`hasTextKeys_of_checked`), and so are those of the types in use in a closure
(`hasTextKeys_of_ofEntry`).
-/

namespace Patchbay

/-- The pin is keyed by a text. -/
def Pin.KeyedByText (pin : Pin) : Prop := ∃ key, pin.key = .str key

/-- The pins of the type are keyed by texts. -/
def NodeType.HasTextKeys (type : NodeType) : Prop := ∀ pin ∈ type.pins, pin.2.KeyedByText

theorem NodeType.mem_inputs_iff {type : NodeType} {pin : Pin} :
    pin ∈ type.inputs ↔ ∃ key, (key, pin) ∈ type.pins ∧ pin.direction = .input := by
  simp [inputs]

/-- The pins of the declared types in use are keyed by texts. -/
def Kinds.HasTextKeys (kinds : Kinds) : Prop :=
  ∀ type p, kinds.primitive type = .ok p → ∀ entry, p.entry = some entry → entry.HasTextKeys

namespace Document

/-- The pins that the node types of a document declare. -/
def declaredPins (document : Value) : List Value :=
  (itemsIn ((document.member? "nodeTypes").getD .null)).flatMap fun type =>
    itemsIn ((type.member? "pins").getD .null)

/-- A declared pin gives its key as a text, if it gives one. -/
def GivesTextKey (pin : Value) : Prop :=
  ∀ key, pin.member? "key" = some key → ∃ text, key = .str text

variable {item : Value}

theorem DescribesPin.keyedByText {key : String} {p : Pin} (h : DescribesPin key item p)
    (hitem : GivesTextKey item) : p.KeyedByText := by
  have hkey := h.key_eq
  cases hmember : item.member? "key" with
  | none =>
    rw [hmember] at hkey
    exact ⟨key, hkey⟩
  | some given =>
    obtain ⟨text, rfl⟩ := hitem given hmember
    rw [hmember] at hkey
    exact ⟨text, hkey⟩

/-- The members under a name are among the items there. -/
theorem Holds.mem_itemsIn {name : String} {members : Members}
    (h : Holds item name [] .obj members) :
    ∀ m ∈ members, m.2 ∈ itemsIn ((item.member? name).getD .null) := by
  rcases h with ⟨_, rfl⟩ | h
  · simp
  · intro m hm
    rw [h]
    exact List.mem_map_of_mem hm

theorem DescribesType.hasTextKeys {id : String} {type : NodeType} (h : DescribesType id item type)
    (hpins : ∀ pin ∈ itemsIn ((item.member? "pins").getD .null), GivesTextKey pin) :
    type.HasTextKeys := by
  obtain ⟨members, hmembers, hdeclared⟩ := h.pins
  intro pin hpin
  obtain ⟨member, hmember, _, hdescribes⟩ := Matched.exists_left hdeclared hpin
  exact hdescribes.keyedByText (hpins _ (hmembers.mem_itemsIn _ hmember))

/-- The catalog of a document whose pins give no other keys has text keys. -/
theorem hasTextKeys_of_checked {document : Value} {project : Project}
    (h : checked document = .ok project)
    (hpins : ∀ pin ∈ declaredPins document, GivesTextKey pin) :
    ∀ type ∈ project.catalog, type.HasTextKeys := by
  obtain ⟨members, hmembers, htypes⟩ := (checked_eq_ok_iff.mp h).catalog
  intro type htype
  obtain ⟨member, hmember, hdescribes⟩ := Matched.exists_left htypes htype
  refine hdescribes.hasTextKeys fun pin hpin => hpins pin ?_
  exact List.mem_flatMap.mpr ⟨member.2, hmembers.mem_itemsIn _ hmember, hpin⟩

end Document

/-- The declared types in use in a closure are those of the catalog. -/
theorem Closure.hasTextKeys_of_ofEntry {project : Project} {entryPath : String} {strict : Bool}
    {closure : Closure} (hc : ofEntry project entryPath strict = .ok closure)
    (hkeys : ∀ type ∈ project.catalog, type.HasTextKeys) : closure.kinds.HasTextKeys := by
  intro type p hp entry hentry
  obtain ⟨_, rfl⟩ := primitive_of_ofEntry hc hp
  exact hkeys entry (List.mem_of_find?_eq_some hentry)

end Patchbay
