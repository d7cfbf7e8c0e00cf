import Patchbay.Proofs.Project.Catalog

/-!
# What reading fails with

Whatever value is given as a document, it is read as a project, or it is refused with the place where
its structure is broken, or a number in it has too many digits. There is one exception: the direction
of a pin is looked up before it is known to be a text, and an array or an object cannot be looked up
(`read_cases`, `checked_dial`).
-/

namespace Patchbay

/-- The value is an array or an object. -/
def Value.IsComposite : Value → Prop
  | .arr _ | .obj _ => True
  | _ => False

namespace Document

/-- Why a part of a document in which these pins are declared cannot be read: its structure is
broken, a number has too many digits, or the direction of a pin is an array or an object. -/
inductive Refused (pins : List Value) : Failure → Prop
  | malformed (found : DocumentFault) : Refused pins (.malformed found)
  | unread {count : Nat} (h : Text.Numeral.limit < count) :
      Refused pins (.fault (.tooManyDigits count))
  | composite {pin v : Value} (hpin : pin ∈ pins) (hv : pin.member? "direction" = some v)
      (hc : v.IsComposite) : Refused pins (.fault (.unusableKey v.kindName))

theorem Refused.mono {pins others : List Value} {failure : Failure} (h : Refused pins failure)
    (hsub : ∀ pin ∈ pins, pin ∈ others) : Refused others failure := by
  cases h with
  | malformed found => exact .malformed found
  | unread h => exact .unread h
  | composite hpin hv hc => exact .composite (hsub _ hpin) hv hc

section

variable {α : Type} {declared : List Value} {place : Place} {fields : Members}
  {key item v : Value}

theorem refused_demand {value : Option α} {complaint : Complaint} :
    FailsOnly (Refused declared) (demand value place complaint) := by
  cases value with
  | none => exact .error (.malformed _)
  | some a => exact .ok a

theorem refused_optional {name : String} {absent : α} {shape : Shape} {read : Value → Option α} :
    FailsOnly (Refused declared) (optional fields place name absent shape read) := by
  unfold optional
  split
  · exact .ok absent
  · exact refused_demand

theorem refused_within {n : Int} : FailsOnly (Refused declared) (within v n) := by
  unfold within
  split
  · next s =>
    unfold Text.Numeral.read
    split
    · exact .ok n
    · next fault hread =>
      split at hread
      · next hlong =>
        obtain rfl := Except.error.inj hread
        exact .error (.unread hlong)
      · exact absurd hread (by simp)
  · exact .ok n

/-! ## Patches -/

theorem refused_listEntries {i : Nat} {items : List Value} :
    FailsOnly (Refused declared) (listEntries place i items) := by
  induction items generalizing i with
  | nil => exact .ok []
  | cons item rest ih =>
    refine refused_demand.bind fun fields _ => ?_
    refine refused_demand.bind fun id _ => ?_
    exact ih.bind fun others _ => .ok _

theorem refused_entries : FailsOnly (Refused declared) (entries place v) := by
  unfold entries
  split
  · exact .ok _
  · exact refused_listEntries
  · exact .error (.malformed _)

theorem refused_ownId {id : Int} : FailsOnly (Refused declared) (ownId place fields key id) := by
  unfold ownId
  split
  · exact .ok ()
  · refine refused_demand.bind fun number _ => ?_
    refine refused_within.bind fun number _ => ?_
    refine refused_within.bind fun id _ => ?_
    split
    · exact .ok ()
    · exact .error (.malformed _)

theorem refused_typeOf : FailsOnly (Refused declared) (typeOf place fields) := by
  unfold typeOf
  split
  · exact .error (.malformed _)
  · exact refused_demand

theorem refused_arityOf : FailsOnly (Refused declared) (arityOf place fields) := by
  unfold arityOf
  split
  · exact .ok 1
  · refine refused_demand.bind fun number _ => ?_
    refine refused_within.bind fun number _ => ?_
    split
    · exact .ok number
    · exact .error (.malformed _)

theorem refused_node {earlier : List Node} :
    FailsOnly (Refused declared) (node place earlier key item) := by
  refine refused_demand.bind fun fields _ => ?_
  refine refused_demand.bind fun id _ => ?_
  refine refused_ownId.bind fun _ _ => ?_
  refine refused_typeOf.bind fun type _ => ?_
  refine refused_optional.bind fun properties _ => ?_
  refine refused_arityOf.bind fun arity _ => ?_
  refine refused_within.bind fun id _ => ?_
  split
  · exact .error (.malformed _)
  · exact .ok _

theorem refused_nodes {earlier : List Node} {found : List (Value × Value)} :
    FailsOnly (Refused declared) (nodes place earlier found) := by
  induction found generalizing earlier with
  | nil => exact .ok earlier
  | cons entry rest ih => exact refused_node.bind fun n _ => ih

theorem refused_linkEnd {known : List Node} :
    FailsOnly (Refused declared) (linkEnd place known item) := by
  refine refused_demand.bind fun fields _ => ?_
  refine refused_demand.bind fun id _ => ?_
  refine refused_demand.bind fun key _ => ?_
  refine refused_demand.bind fun number _ => ?_
  refine refused_demand.bind fun key _ => ?_
  refine refused_within.bind fun number _ => ?_
  split
  · exact .ok _
  · exact .error (.malformed _)

theorem refused_link {known : List Node} :
    FailsOnly (Refused declared) (link place known key item) := by
  refine refused_demand.bind fun fields _ => ?_
  refine refused_demand.bind fun pins _ => ?_
  refine refused_demand.bind fun ends _ => ?_
  refine refused_linkEnd.bind fun first _ => ?_
  exact refused_linkEnd.bind fun second _ => .ok _

theorem refused_links {known : List Node} {earlier : List Link} {found : List (Value × Value)} :
    FailsOnly (Refused declared) (links place known earlier found) := by
  induction found generalizing earlier with
  | nil => exact .ok earlier
  | cons entry rest ih => exact refused_link.bind fun l _ => ih

theorem refused_patch {path : String} : FailsOnly (Refused declared) (patch place path item) := by
  refine refused_demand.bind fun fields _ => ?_
  refine refused_entries.bind fun nodeEntries _ => ?_
  refine refused_nodes.bind fun known _ => ?_
  refine refused_entries.bind fun linkEntries _ => ?_
  exact refused_links.bind fun joined _ => .ok _

theorem refused_patches {members : Members} :
    FailsOnly (Refused declared) (patches place members) := by
  induction members with
  | nil => exact .ok []
  | cons member rest ih =>
    refine refused_patch.bind fun p _ => ?_
    exact ih.bind fun others _ => .ok _

/-! ## Node types -/

/-- The direction of a pin is one of the two, or it is refused as it is no text of these, or it
cannot be looked up. -/
theorem refused_direction (hv : item.member? "direction" = some v) :
    FailsOnly (Refused [item]) (direction place v) := by
  cases v with
  | arr items => exact .error (.composite (v := .arr items) List.mem_cons_self hv trivial)
  | obj members => exact .error (.composite (v := .obj members) List.mem_cons_self hv trivial)
  | _ =>
    simp only [direction, Label.ofValue]
    exact refused_demand

theorem refused_pin {key : String} : FailsOnly (Refused [item]) (pin place key item) := by
  refine refused_demand.bind fun fields hfields => ?_
  refine refused_demand.bind fun side hside => ?_
  obtain rfl := Value.members?_eq_some_iff.mp (demand_eq_ok_iff.mp hfields)
  have hv : (Value.obj fields).member? "direction" = some side := demand_eq_ok_iff.mp hside
  refine (refused_direction hv).bind fun side _ => ?_
  refine refused_optional.bind fun type _ => ?_
  exact refused_optional.bind fun variadic _ => .ok _

theorem refused_pins {members : Members} :
    FailsOnly (Refused (members.map Prod.snd)) (pins place members) := by
  induction members with
  | nil => exact .ok []
  | cons member rest ih =>
    have hfirst : ∀ pin ∈ [member.2], pin ∈ (member :: rest).map Prod.snd := by simp
    refine (refused_pin.mono fun _ h => h.mono hfirst).bind fun p _ => ?_
    refine (ih.mono fun _ h => h.mono fun _ => List.mem_cons_of_mem _).bind fun others _ => ?_
    exact .ok _

theorem refused_templates {members : Members} :
    FailsOnly (Refused declared) (templates place members) := by
  induction members with
  | nil => exact .ok []
  | cons member rest ih =>
    refine refused_demand.bind fun text _ => ?_
    exact ih.bind fun others _ => .ok _

theorem refused_nodeType {id : String} :
    FailsOnly (Refused (itemsIn ((item.member? "pins").getD .null))) (nodeType place id item) := by
  refine refused_demand.bind fun fields hfields => ?_
  refine refused_optional.bind fun pure _ => ?_
  refine refused_optional.bind fun raises _ => ?_
  refine refused_demand.bind fun members hmembers => ?_
  obtain rfl := Value.members?_eq_some_iff.mp (demand_eq_ok_iff.mp hfields)
  have hdeclared := (orEmpty_eq_iff.mp (demand_eq_ok_iff.mp hmembers)).mem_itemsIn
  refine (refused_pins.mono fun _ h => h.mono fun pin hpin => ?_).bind fun declared _ => ?_
  · obtain ⟨member, hmember, rfl⟩ := List.mem_map.mp hpin
    exact hdeclared member hmember
  refine refused_demand.bind fun texts _ => ?_
  exact refused_templates.bind fun texts _ => .ok _

theorem refused_catalog {members : Members} :
    FailsOnly (Refused (members.flatMap fun member => itemsIn ((member.2.member? "pins").getD .null)))
      (catalog place members) := by
  induction members with
  | nil => exact .ok []
  | cons member rest ih =>
    rw [List.flatMap_cons]
    refine (refused_nodeType.mono fun _ h => h.mono fun _ => List.mem_append_left _).bind
      fun type _ => ?_
    refine (ih.mono fun _ h => h.mono fun _ => List.mem_append_right _).bind fun others _ => ?_
    exact .ok _

end

/-! ## Documents -/

/-- What the checks of a document can fail with. -/
theorem refused_checked (document : Value) :
    FailsOnly (Refused (declaredPins document)) (checked document) := by
  refine refused_demand.bind fun fields hfields => ?_
  refine refused_optional.bind fun name _ => ?_
  refine refused_demand.bind fun members _ => ?_
  refine refused_patches.bind fun patches _ => ?_
  refine refused_demand.bind fun members hmembers => ?_
  obtain rfl := Value.members?_eq_some_iff.mp (demand_eq_ok_iff.mp hfields)
  have htypes := (orEmpty_eq_iff.mp (demand_eq_ok_iff.mp hmembers)).mem_itemsIn
  refine (refused_catalog.mono fun _ h => h.mono fun pin hpin => ?_).bind fun catalog _ => .ok _
  obtain ⟨member, hmember, hpin⟩ := List.mem_flatMap.mp hpin
  exact List.mem_flatMap.mpr ⟨member.2, htypes member hmember, hpin⟩

/-- A pin key that cannot be read has too many digits. -/
theorem tooLong_of_keyFault? {key : String} {fault : Fault} (h : keyFault? key = some fault) :
    ∃ count, fault = .tooManyDigits count ∧ Text.Numeral.limit < count := by
  unfold keyFault? PinRef.read at h
  split at h
  · exact absurd h (by simp)
  · next fault' hread =>
    obtain rfl := Option.some.inj h
    split at hread
    · exact absurd hread (by simp)
    · next ds _ =>
      unfold Text.Numeral.read at hread
      split at hread
      · next hlong => exact ⟨ds.length, (Except.error.inj hread).symm, hlong⟩
      · exact absurd hread (by simp [Except.map])

/-- Whatever value is given as a document: it is a project that can be read, unless a pin key has too
many digits, or checking it and reading it fail in the same way, which is a breach of its structure,
a number with too many digits, or a direction that is an array or an object. -/
theorem read_or_refused (document : Value) :
    (∃ found, checked document = .ok found ∧
      (project document = .ok found ∨
        ∃ count, Text.Numeral.limit < count ∧
          project document = .error (.fault (.tooManyDigits count)))) ∨
    ∃ failure, checked document = .error failure ∧ project document = .error failure ∧
      Refused (declaredPins document) failure := by
  unfold project
  cases hchecked : checked document with
  | error failure =>
    exact .inr ⟨failure, rfl, rfl, refused_checked document failure hchecked⟩
  | ok found =>
    refine .inl ⟨found, rfl, ?_⟩
    simp only [bind, Except.bind, pure, Except.pure]
    cases hkeys : (pinKeys document).findSome? keyFault? with
    | none => exact .inl rfl
    | some fault =>
      obtain ⟨key, _, hkey⟩ := List.exists_of_findSome?_eq_some hkeys
      obtain ⟨count, rfl, hlong⟩ := tooLong_of_keyFault? hkey
      exact .inr ⟨count, hlong, rfl⟩

end Document

/-! ## A pin without a direction -/

namespace Dial

/-- A node type with one pin, whose direction is this value. -/
def document (direction : Value) : Value :=
  .obj [("nodeTypes", .obj [("dial", .obj [("pins", .obj [
    ("turn", .obj [("direction", direction)])])])])]

end Dial

/-- An array as the direction of a pin is not reported as a breach of the structure. -/
theorem Document.checked_dial :
    checked (Dial.document (.arr [])) = .error (.fault (.unusableKey "list")) ∧
    project (Dial.document (.arr [])) = .error (.fault (.unusableKey "list")) ∧
    (Failure.fault (.unusableKey "list")).kind ≠ .invalidProjectFormat := by
  refine ⟨rfl, rfl, ?_⟩
  decide

end Patchbay
