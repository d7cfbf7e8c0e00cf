import Patchbay.Proofs.Flat.PinKeys
import Patchbay.Proofs.Project.Description

/-!
# Documents that are accepted

Checking a document accepts those that describe a project and no others, and what they describe is
what they are read as (`described_iff`). Only a pin key with a number that is too long to be read is
accepted without a project being built (`project_overlong`).
-/

namespace Patchbay

/-- The key has the form of a boundary reference with a number that is too long to be read. -/
def PinRef.Overlong (key : String) : Prop :=
  ∃ d rest, Spells key d rest ∧ Text.Numeral.limit < (Text.dropFinalFeed rest).length

namespace Document

/-- The digits of a boundary key, whatever its direction. -/
theorem digits_eq_some_iff {key : String} {ds : List Char} :
    (PinRef.digits? .input key.toList <|> PinRef.digits? .output key.toList) = some ds ↔
      ∃ d rest, PinRef.Spells key d rest ∧ ds = Text.dropFinalFeed rest := by
  cases hinput : PinRef.digits? .input key.toList with
  | some found =>
    obtain ⟨rest, hspells, rfl⟩ := PinRef.digits?_eq_some_iff.mp hinput
    constructor
    · intro h
      exact ⟨.input, rest, hspells, (Option.some.inj h).symm⟩
    · rintro ⟨d, rest', hspells', rfl⟩
      obtain ⟨rfl, rfl⟩ := hspells.unique hspells'
      rfl
  | none =>
    change PinRef.digits? .output key.toList = some ds ↔ _
    rw [PinRef.digits?_eq_some_iff]
    constructor
    · exact fun ⟨rest, hspells, hds⟩ => ⟨.output, rest, hspells, hds⟩
    · rintro ⟨d, rest, hspells, hds⟩
      cases d with
      | input =>
        rw [PinRef.digits?_eq_some_iff.mpr ⟨rest, hspells, rfl⟩] at hinput
        exact absurd hinput (by simp)
      | output => exact ⟨rest, hspells, hds⟩

/-- A pin key is refused where it is overlong, and nowhere else. -/
theorem keyFault?_eq_none_iff {key : String} : keyFault? key = none ↔ ¬ PinRef.Overlong key := by
  have hread : keyFault? key = none ↔ ∀ ds,
      (PinRef.digits? .input key.toList <|> PinRef.digits? .output key.toList) = some ds →
        ds.length ≤ Text.Numeral.limit := by
    unfold keyFault? PinRef.read Text.Numeral.read
    cases (PinRef.digits? .input key.toList <|> PinRef.digits? .output key.toList) with
    | none => simp
    | some ds =>
      by_cases hlong : Text.Numeral.limit < ds.length
      · simp [hlong, Except.map]
      · simp [hlong, Except.map, Nat.le_of_not_lt hlong]
  simp only [hread, digits_eq_some_iff]
  constructor
  · rintro h ⟨d, rest, hspells, hlong⟩
    exact absurd (h _ ⟨d, rest, hspells, rfl⟩) (Nat.not_le_of_lt hlong)
  · rintro h _ ⟨d, rest, hspells, rfl⟩
    exact Nat.le_of_not_lt fun hlong => h ⟨d, rest, hspells, hlong⟩

theorem project_eq_ok_iff {document : Value} {p : Project} : project document = .ok p ↔
    checked document = .ok p ∧ ∀ key ∈ pinKeys document, ¬ PinRef.Overlong key := by
  simp only [← keyFault?_eq_none_iff]
  unfold project
  rw [← List.findSome?_eq_none_iff]
  cases checked document with
  | error failure => simp [bind, Except.bind]
  | ok found =>
    cases (pinKeys document).findSome? keyFault? with
    | none => simp [bind, Except.bind, pure, Except.pure]
    | some fault => simp [bind, Except.bind]

/-- A document is accepted just where it describes a project, and the project that is built of it is
the one that it describes. It is built wherever no pin key is overlong. -/
theorem described_iff (document : Value) (found : Project) :
    (checked document = .ok found ↔ Describes document found) ∧
      (project document = .ok found ↔
        Describes document found ∧ ∀ key ∈ pinKeys document, ¬ PinRef.Overlong key) :=
  ⟨checked_eq_ok_iff, project_eq_ok_iff.trans (and_congr_left fun _ => checked_eq_ok_iff)⟩

end Document

/-! ## A pin key with a long number -/

namespace Overlong

/-- A document with a link from the pin of this key. -/
def document (key : String) : Value :=
  .obj [("patches", .obj [
    ("@/main", .obj [("nodes", .obj [("1", .obj [("type", .str "led")])])]),
    ("@/annex", .obj [
      ("nodes", .obj [("1", .obj [("type", .str "led")])]),
      ("links", .obj [("1", .obj [("pins", .arr [
        .obj [("nodeId", .int 1), ("pinKey", .str key)],
        .obj [("nodeId", .int 1), ("pinKey", .str "in")]])])])])])]

def project (key : String) : Project where
  name := ""
  patches := [⟨"@/main", none, [⟨1, "led", [], 1⟩], []⟩,
    ⟨"@/annex", none, [⟨1, "led", [], 1⟩], [⟨"1", ⟨1, .parse key⟩, ⟨1, .named "in"⟩⟩]⟩]
  catalog := []

theorem checked_document (key : String) :
    Document.checked (document key) = .ok (project key) := by
  rfl

theorem pinKeys_document (key : String) : Document.pinKeys (document key) = [key, "in"] := by
  cbv

theorem overlong_replicate {n : Nat} (h : Text.Numeral.limit < n) :
    PinRef.Overlong ("input_" ++ String.ofList (List.replicate n '1')) := by
  have hdigit : ∀ c ∈ List.replicate n '1', c = '1' := fun _ => List.eq_of_mem_replicate
  have hfeed : Text.dropFinalFeed (List.replicate n '1') = List.replicate n '1' :=
    Text.dropFinalFeed_of_not_mem fun hmem => absurd (hdigit _ hmem) (by decide)
  refine ⟨.input, List.replicate n '1', ⟨?_, ?_⟩, ?_⟩
  · simp [Direction.name]
  · rw [hfeed, Text.Numeral.isNumeral, Bool.and_eq_true, List.all_eq_true]
    refine ⟨?_, fun c hc => ?_⟩
    · rw [Bool.not_eq_true', List.isEmpty_eq_false_iff, ne_eq, List.replicate_eq_nil_iff]
      omega
    · rw [hdigit c hc]
      decide
  · rwa [hfeed, List.length_replicate]

/-- A pin key whose number is one digit longer than those that are read. -/
def key : String := "input_" ++ String.ofList (List.replicate (Text.Numeral.limit + 1) '1')

theorem overlong_key : PinRef.Overlong key := overlong_replicate (Nat.lt_succ_self _)

end Overlong

/-- A document that is accepted and of which no project is built: it has an overlong pin key. -/
theorem Document.project_overlong :
    checked (Overlong.document Overlong.key) = .ok (Overlong.project Overlong.key) ∧
    ∀ found, project (Overlong.document Overlong.key) ≠ .ok found := by
  refine ⟨Overlong.checked_document _, fun found h => ?_⟩
  obtain ⟨_, hkeys⟩ := project_eq_ok_iff.mp h
  rw [Overlong.pinKeys_document] at hkeys
  exact hkeys _ List.mem_cons_self Overlong.overlong_key

end Patchbay
