import Patchbay.Proofs.Program.Decoding
import Patchbay.Service.Route

/-!
# Handling a call for a unit

The handler of `/api/transform` compiles a project, and raises the report of a compilation that
fails. The unit of one that succeeds is rendered after that, and a fault there leaves the handler:
the pins that an error can reach are sorted, and the keys that the catalog gives them may be labels
without an order. The handler returns or raises a report in all cases but this one
(`handleUnit_cases`); it is met only where errors are traced and a declared pin gives a key that is
no text.
-/

namespace Patchbay

namespace CompiledUnit

open Label

/-- The pins of each node that an error can reach have an order. -/
def PinsOrdered (unit : CompiledUnit) : Prop := ∀ row ∈ unit.affected, OfOneFamily row.2

/-- The affected pins are rendered just if those of each node have an order. -/
theorem affectedMembers_cases {rows : Liveness.Reach} (hapart : rows.IsApart) :
    (∃ members, affectedMembers rows = .ok members ∧ ∀ row ∈ rows, OfOneFamily row.2) ∨
      ∃ left right, affectedMembers rows = .error (.unordered left right) ∧
        ∃ row ∈ rows, ¬ OfOneFamily row.2 := by
  induction rows with
  | nil => exact .inl ⟨[], rfl, by simp⟩
  | cons row rest ih =>
    obtain ⟨id, pins⟩ := row
    obtain ⟨hpins, hrest⟩ := List.forall_mem_cons.mp hapart
    unfold affectedMembers
    cases hsorted : pins.sorted with
    | error fault =>
      obtain ⟨left, right, rfl⟩ := LabelSet.unordered_of_sorted hsorted
      refine .inr ⟨left, right, rfl, (id, pins), List.mem_cons_self, fun hfamily => ?_⟩
      obtain ⟨labels, hlabels⟩ := (LabelSet.exists_sorted_iff hpins).mpr hfamily
      exact absurd (hsorted.symm.trans hlabels) (by simp)
    | ok labels =>
      have hfamily := LabelSet.ofOneFamily_of_sorted hsorted
      rcases ih hrest with ⟨members, hmembers, hall⟩ | ⟨left, right, herror, row, hrow, hnot⟩
      · refine .inl ⟨_, by rw [hmembers]; rfl, List.forall_mem_cons.mpr ⟨hfamily, hall⟩⟩
      · exact .inr ⟨left, right, by rw [herror]; rfl, row, List.mem_cons_of_mem _ hrow, hnot⟩

theorem mem_byId {α : Type} {entries : List (Int × α)} {entry : Int × α} :
    entry ∈ byId entries ↔ entry ∈ entries :=
  (List.mergeSort_perm _ _).mem_iff

/-- A unit is rendered just if its affected pins have an order. -/
theorem valueSpelling_cases {unit : CompiledUnit} (hapart : Liveness.Reach.IsApart unit.affected)
    (spell : Label → String) :
    (unit.PinsOrdered ∧ ∃ value, unit.valueSpelling spell = .ok value) ∨
      ¬ unit.PinsOrdered ∧
        ∃ left right, unit.valueSpelling spell = .error (.unordered left right) := by
  have hrows : Liveness.Reach.IsApart (byId unit.affected) :=
    fun row hrow => hapart row (mem_byId.mp hrow)
  unfold valueSpelling
  rcases affectedMembers_cases hrows with
    ⟨members, hmembers, hall⟩ | ⟨left, right, herror, row, hrow, hnot⟩
  · exact .inl ⟨fun row hrow => hall row (mem_byId.mpr hrow), _, by rw [hmembers]; rfl⟩
  · exact .inr ⟨fun hordered => hnot (hordered row (mem_byId.mp hrow)), left, right,
      by rw [herror]; rfl⟩

variable {request : Request} {backends document : Value} {unit : CompiledUnit}

theorem isApart_of_compileDocument (h : request.compileDocument backends document = .ok unit) :
    Liveness.Reach.IsApart unit.affected := by
  obtain ⟨_, _, _, _, _, _, _, _, _, hunit⟩ := Request.assembled_of_compileDocument h
  exact Liveness.isApart_reach hunit.reached

/-- Pins that are keyed by texts have an order. -/
theorem pinsOrdered_of_texts
    (hpins : ∀ pin ∈ Document.declaredPins document, Document.GivesTextKey pin)
    (h : request.compileDocument backends document = .ok unit) : unit.PinsOrdered := by
  intro row hrow
  refine ⟨.text, fun label hlabel => ?_⟩
  obtain ⟨s, rfl⟩ := (reliable_of_compileDocument hpins h).1.affected row hrow label hlabel
  rfl

/-- Where errors are not traced there are no pins to order. -/
theorem pinsOrdered_of_none (hmode : Liveness.ofValue request.mode = .ok .none)
    (h : request.compileDocument backends document = .ok unit) : unit.PinsOrdered := by
  obtain ⟨_, _, _, mode, _, _, _, _, hmode', hunit⟩ := Request.assembled_of_compileDocument h
  obtain rfl := Except.ok.inj (hmode'.symm.trans hmode)
  have hnone : unit.affected = [] := (Except.ok.inj hunit.reached).symm
  intro row hrow
  exact absurd (hnone ▸ hrow) List.not_mem_nil

end CompiledUnit

theorem Liveness.ofValue_name (mode : Liveness) : ofValue (.str mode.name) = .ok mode := by
  cases mode with
  | none => cbv
  | debug => cbv
  | simulation => cbv

namespace Service

/-! ## The handler -/

/-- The unit that a call asks for. -/
def unitOf (settings : Settings) (call : UnitCall) : Except Failure CompiledUnit :=
  let backends := match call.2 with
    | some (first :: rest) => first :: rest
    | _ => settings.backends
  (requestOf settings call.1).compileDocument (.arr (backends.map .str)) call.1.project

/-- What a handler comes to, unless a fault leaves it. -/
inductive Handled where
  /-- It returns a value. -/
  | returned (value : Value)
  /-- It raises the report of a compilation that failed. -/
  | raised (report : Report)

/-- What a handler came to, as an answer. -/
def Handled.send : Handled → Except Fault Answer
  | returned value => do
    let body ← sentResult value
    return .sent 200 body
  | raised report => do
    let body ← sentReport (.obj [("detail", report.toValue)])
    return .sent 422 body

/-- The handler of a call for a unit. -/
def handleUnit (settings : Settings) (call : UnitCall) : Except Fault Handled :=
  match unitOf settings call with
  | .ok unit => (unit.valueSpelling Label.sentText).map .returned
  | .error failure => .ok (.raised failure.report)

section

variable {environment : Environment} {members : Members} {settings : Settings} {call : UnitCall}

/-- The answer to a call is what its handler comes to. -/
theorem answerUnit_eq (settings : Settings) (call : UnitCall) :
    answerUnit settings call = handleUnit settings call >>= Handled.send := by
  unfold handleUnit
  show respond _ (unitOf settings call) = _
  cases unitOf settings call with
  | error failure => rfl
  | ok unit =>
    simp only [respond]
    cases unit.valueSpelling Label.sentText with
    | error fault => rfl
    | ok value => rfl

theorem handleRoute_unit (hcall : unitCall members = .ok call)
    (hsettings : Settings.ofEnvironment environment = .ok settings) {body : ByteArray}
    (hbody : membersOf body = .ok members) :
    handleRoute environment body .unit = handleUnit settings call >>= Handled.send := by
  have hread : readCall unitCall body = .ok call := by
    unfold readCall
    rw [hbody]
    simp only [bind, Except.bind, hcall, Except.mapError]
  unfold handleRoute answering
  rw [hread, hsettings, ← answerUnit_eq]
  rfl

/-- The handler of a call for a unit raises the report of a compilation that fails, and returns the
unit of one that succeeds, unless some of its affected pins have no order: then a fault leaves it.
No fault does where errors are not traced, or where no declared pin gives a key that is no text. -/
theorem handleUnit_cases (hcall : unitCall members = .ok call)
    (hsettings : Settings.ofEnvironment environment = .ok settings) :
    (∀ body, membersOf body = .ok members →
      handleRoute environment body .unit = handleUnit settings call >>= Handled.send) ∧
    ((∃ failure, unitOf settings call = .error failure ∧
        handleUnit settings call = .ok (.raised failure.report)) ∨
      ∃ unit, unitOf settings call = .ok unit ∧
        ((unit.PinsOrdered ∧ ∃ value, unit.valueSpelling Label.sentText = .ok value ∧
            handleUnit settings call = .ok (.returned value)) ∨
          ¬ unit.PinsOrdered ∧
            ∃ left right, handleUnit settings call = .error (.unordered left right))) ∧
    ((call.1.mode = .none ∨
        ∀ pin ∈ Document.declaredPins call.1.project, Document.GivesTextKey pin) →
      ∃ handled, handleUnit settings call = .ok handled) := by
  refine ⟨fun body hbody => handleRoute_unit hcall hsettings hbody, ?_, fun hsafe => ?_⟩
  · cases hunit : unitOf settings call with
    | error failure => exact .inl ⟨failure, rfl, by rw [handleUnit, hunit]⟩
    | ok unit =>
      refine .inr ⟨unit, rfl, ?_⟩
      rw [handleUnit, hunit]
      rcases CompiledUnit.valueSpelling_cases (CompiledUnit.isApart_of_compileDocument hunit)
          Label.sentText with ⟨hordered, value, hvalue⟩ | ⟨hnot, left, right, herror⟩
      · exact .inl ⟨hordered, value, hvalue, by simp only [hvalue, Except.map]⟩
      · exact .inr ⟨hnot, left, right, by simp only [herror, Except.map]⟩
  · cases hunit : unitOf settings call with
    | error failure => exact ⟨_, by rw [handleUnit, hunit]⟩
    | ok unit =>
      have hordered : unit.PinsOrdered := by
        rcases hsafe with hnone | hpins
        · refine CompiledUnit.pinsOrdered_of_none ?_ hunit
          rw [← hnone]
          exact Liveness.ofValue_name call.1.mode
        · exact CompiledUnit.pinsOrdered_of_texts hpins hunit
      rcases CompiledUnit.valueSpelling_cases (CompiledUnit.isApart_of_compileDocument hunit)
          Label.sentText with ⟨_, value, hvalue⟩ | ⟨hnot, _⟩
      · exact ⟨.returned value, by simp only [handleUnit, hunit, hvalue, Except.map]⟩
      · exact absurd hordered hnot

end

/-! ## A bell with two outputs -/

namespace Bell

/-- A project with a node whose type raises errors; it has two outputs, one of them under this
key. -/
def document (key : Value) : Value :=
  .obj [
    ("patches", .obj [("@/main", .obj [("nodes", .obj [("1", .obj [("type", .str "bell")])])])]),
    ("nodeTypes", .obj [("bell", .obj [("raises", .bool true), ("pins", .obj [
      ("FIRST", .obj [("direction", .str "output"), ("key", key)]),
      ("SECOND", .obj [("direction", .str "output")])])])])]

/-- The fields of a call for its unit, with errors traced. -/
def fields (key : Value) : Members :=
  [("project", document key), ("entry", .str "@/main"), ("liveness", .str "debug")]

def call (key : Value) : UnitCall := (⟨document key, "@/main", .debug, [], false⟩, none)

/-- The settings of an empty environment. -/
def settings : Settings := ⟨["js"], .none, "WARNING", false, 3001, []⟩

theorem unitCall_fields (key : Value) : unitCall (fields key) = .ok (call key) := by
  cbv

theorem givesTextKey (key : String) :
    ∀ pin ∈ Document.declaredPins (document (.str key)), Document.GivesTextKey pin := by
  intro pin hpin given hgiven
  rcases List.mem_pair.mp hpin with rfl | rfl
  · exact ⟨key, (Option.some.inj hgiven).symm⟩
  · exact absurd hgiven (by simp [Value.member?, List.lookup])

end Bell

/-- With two texts as keys the unit is returned. -/
theorem handleUnit_cases_bell :
    unitCall (Bell.fields (.str "RING")) = .ok (Bell.call (.str "RING")) ∧
    Settings.ofEnvironment [] = .ok Bell.settings ∧
    ∃ value, handleUnit Bell.settings (Bell.call (.str "RING")) = .ok (.returned value) := by
  have hcall := Bell.unitCall_fields (.str "RING")
  have hsettings : Settings.ofEnvironment [] = .ok Bell.settings := Settings.ofEnvironment_nil
  refine ⟨hcall, hsettings, ?_⟩
  obtain ⟨unit, hunit⟩ : ∃ unit, unitOf Bell.settings (Bell.call (.str "RING")) = .ok unit :=
    ⟨_, by cbv⟩
  obtain ⟨_, hcases, hsafe⟩ := handleUnit_cases hcall hsettings
  obtain ⟨handled, hhandled⟩ := hsafe (.inr (Bell.givesTextKey "RING"))
  rcases hcases with ⟨failure, hfail, _⟩ | ⟨_, _, ⟨_, value, _, hvalue⟩ | ⟨_, left, right, hfault⟩⟩
  · exact absurd (hfail.symm.trans hunit) (by simp)
  · exact ⟨value, hvalue⟩
  · exact absurd (hfault.symm.trans hhandled) (by simp)

/-- A call that is read, under settings that are read, whose handler a fault leaves: a number and a
text have no order. -/
theorem handleUnit_unordered :
    unitCall (Bell.fields (.int 0)) = .ok (Bell.call (.int 0)) ∧
    Settings.ofEnvironment [] = .ok Bell.settings ∧
    handleUnit Bell.settings (Bell.call (.int 0)) = .error (.unordered "str" "int") := by
  refine ⟨Bell.unitCall_fields (.int 0), Settings.ofEnvironment_nil, ?_⟩
  cbv

end Service

end Patchbay
