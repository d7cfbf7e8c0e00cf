import Patchbay.Proofs.Flat.Refusal
import Patchbay.Proofs.Flat.Schedule
import Patchbay.Proofs.Program.Emission

/-!
# Compilations do not meet faults

The stages after the reading of a document look up types, patches, nodes and pins, and they sort.
On an accepted document none of these fails: each stage hands on what the next one needs
(`Closure.Sound`, `FlatGraph.Sound`, `BoundNode.Sound`, `CompiledUnit.Sound`). What is left are
failures that the project causes, and numerals with too many digits (`compileDocument_cases`).
-/

namespace Patchbay

/-- The kinds of the failures that a project can cause. -/
def FailureKind.ofProject : List FailureKind :=
  [patchNotFound, cyclicPatchReference, typeNotFound, invalidProjectFormat,
   unresolvableTerminalType, conflictingBinding, cycleDetected]

namespace Document

variable {document : Value} {project : Project}

/-- Some numeral that a compilation may read has too many digits: in the pin key of a link, in the
id of a link, or in the key of a literal value on an instance. -/
def HasLongNumeral (document : Value) (project : Project) : Prop :=
  (∃ key ∈ pinKeys document, keyFault? key ≠ none) ∨
    ∃ patch ∈ project.patches, (∃ link ∈ patch.links, Link.idFault? link.id ≠ none) ∨
      ∃ node ∈ patch.nodes, project.isPatch node.type = true ∧
        ∃ literal ∈ node.properties, keyFault? literal.1 ≠ none

/-- An accepted document describes its project, unless a pin key cannot be read. -/
theorem project_cases (h : checked document = .ok project) :
    (∃ failure, Document.project document = .error failure ∧ failure.IsUnread ∧
      HasLongNumeral document project) ∨
    Document.project document = .ok project := by
  unfold Document.project
  simp only [h, bind, Except.bind, pure, Except.pure]
  cases hfault : (pinKeys document).findSome? keyFault? with
  | none => exact .inr rfl
  | some fault =>
    obtain ⟨key, hkey, hread⟩ := List.exists_of_findSome?_eq_some hfault
    have hlong : keyFault? key ≠ none := by
      rw [hread]
      exact Option.some_ne_none fault
    refine .inl ⟨.fault fault, rfl, ?_, .inl ⟨key, hkey, hlong⟩⟩
    rcases Inlining.read_cases key with ⟨count, hcount, _⟩ | ⟨_, hnone⟩
    · simp only [keyFault?, hcount] at hread
      exact ⟨count, congrArg Failure.fault (Option.some.inj hread).symm⟩
    · exact absurd hnone hlong

end Document

/-- A patch of a closure that cannot be read holds a numeral with too many digits. -/
theorem Closure.hasLongNumeral_of_not_readable {project : Project} {entryPath : String}
    {strict : Bool} {closure : Closure} (hc : ofEntry project entryPath strict = .ok closure)
    {patch : Patch} (hp : patch ∈ closure.patches) (hunread : ¬ closure.Readable patch)
    (document : Value) : Document.HasLongNumeral document project := by
  obtain ⟨order, hw⟩ := walked_of_ofEntry hc
  have hmem := (path_of_patch? (hw.mem_patches_iff.mp hp).2).1
  refine .inr ⟨patch, hmem, ?_⟩
  by_contra hnone
  push Not at hnone
  obtain ⟨hlinks, hliterals⟩ := hnone
  refine hunread ⟨hlinks, ?_⟩
  rintro node hnode ⟨inner, hinner, hpath⟩ literal hliteral
  have hpatch : project.isPatch node.type = true :=
    isPatch_iff.mpr ⟨inner, hpath ▸ (hw.mem_patches_iff.mp hinner).2⟩
  exact hliterals node hnode hpatch literal hliteral

namespace Request

variable {kinds : Kinds} {graph : FlatGraph}

/-- A sound graph becomes a sound unit, unless a terminal has no type, a pin is both linked and set,
or the links form a circle. -/
theorem assemble_cases (hg : graph.Sound kinds) (hkeys : kinds.HasTextKeys) (mode : Liveness)
    (globals : Members) (backends : List String) :
    (∃ failure, assemble mode (.obj globals) (backends.map .str) kinds graph = .error failure ∧
      failure.kind ∈ FailureKind.ofProject) ∨
    (∃ unit, assemble mode (.obj globals) (backends.map .str) kinds graph = .ok unit ∧
      unit.Sound) := by
  unfold assemble
  rcases Typing.bindAll_cases hg hkeys with
    ⟨stopped, hstop, hkind⟩ | ⟨t, nodes, hbind, hids, hnodes⟩
  · refine .inl ⟨stopped.failure, by simp only [hstop, bind, Except.bind], ?_⟩
    rcases hkind with hkind | hkind
    · rw [hkind]
      decide
    · rw [hkind]
      decide
  simp only [hbind, bind, Except.bind]
  rcases FlatGraph.schedule_cases hg with ⟨failure, hfail, hkind⟩ | ⟨topology, horder, hknown⟩
  · refine .inl ⟨failure, by rw [hfail], ?_⟩
    rw [hkind]
    decide
  have htopology : ∀ id ∈ topology, id ∈ nodes.map BoundNode.id :=
    fun id hid => (hids id).mpr (hknown id hid)
  obtain ⟨affected, haffected, htexts⟩ := Liveness.reach_eq_ok mode hkeys hnodes htopology
  obtain ⟨templates, htemplates⟩ := collectTemplates_eq_ok backends hnodes
  have hconstants : ∃ table, constants (.obj globals) = .ok table := by
    unfold constants
    split
    · exact ⟨_, rfl⟩
    · exact ⟨_, rfl⟩
  obtain ⟨table, htable⟩ := hconstants
  simp only [horder, haffected, htemplates, htable, lift, Except.mapError, pure, Except.pure]
  refine .inr ⟨_, rfl, ?_⟩
  exact ⟨fun node hnode => (hnodes node hnode).inputTypes,
    fun node hnode => (hnodes node hnode).properties, htopology, htexts⟩

/-- The closure of an entry becomes a sound unit, or the project is at fault. -/
theorem compile_cases {request : Request} {entry : String} {mode : Liveness} {globals : Members}
    (hmode : Liveness.ofValue request.mode = .ok mode) (hentry : request.entry = .str entry)
    (hglobals : request.globals = .obj globals) (backends : List String) {document : Value}
    {project : Project} (hp : Document.project document = .ok project)
    (hkeys : ∀ type ∈ project.catalog, type.HasTextKeys) :
    (∃ failure, request.compile (backends.map .str) project = .error failure ∧
      (failure.kind ∈ FailureKind.ofProject ∨
        failure.IsUnread ∧ Document.HasLongNumeral document project)) ∨
    (∃ unit, request.compile (backends.map .str) project = .ok unit ∧ unit.Sound) := by
  unfold compile
  simp only [hmode, hentry, hglobals, closure, Label.ofValue, lift, Except.mapError, bind,
    Except.bind]
  cases hc : Closure.ofEntry project entry request.strict with
  | error failure =>
    refine .inl ⟨failure, rfl, .inl ?_⟩
    rcases Closure.kind_of_ofEntry hc with hkind | hkind | hkind
    · rw [hkind]
      decide
    · rw [hkind]
      decide
    · rw [hkind]
      decide
  | ok found =>
    have hs := Closure.sound_of_ofEntry hp hc
    cases hf : found.flatten with
    | error failure =>
      refine .inl ⟨failure, by simp only [hf], ?_⟩
      rcases Inlining.blamed_of_flatten hs hf with
        ⟨hinvalid, _⟩ | ⟨hunread, patch, hpatch, hlong⟩
      · refine .inl ?_
        rw [show failure.kind = .invalidProjectFormat from hinvalid]
        decide
      · exact .inr ⟨hunread, Closure.hasLongNumeral_of_not_readable hc hpatch hlong document⟩
    | ok graph =>
      simp only [hf]
      have hg := hs.sound_of_flatten hf
      have htexts := Closure.hasTextKeys_of_ofEntry hc hkeys
      rcases assemble_cases hg htexts mode globals backends with
        ⟨failure, hfail, hkind⟩ | ⟨unit, hok, hsound⟩
      · exact .inl ⟨failure, hfail, .inl hkind⟩
      · exact .inr ⟨unit, hok, hsound⟩

end Request

/-! ## A node that raises errors -/

namespace Alarm

/-- A node whose type raises errors; its output shows another key than it is declared under. -/
def document : Value :=
  .obj [
    ("patches", .obj [("@/main", .obj [("nodes", .obj [("1", .obj [("type", .str "alarm")])])])]),
    ("nodeTypes", .obj [("alarm", .obj [("raises", .bool true),
      ("pins", .obj [("OUT", .obj [("direction", .str "output"), ("key", .str "ALARM")])])])])]

def project : Project where
  name := ""
  patches := [⟨"@/main", none, [⟨1, "alarm", [], 1⟩], []⟩]
  catalog := [⟨"alarm", [("OUT", ⟨.str "ALARM", .output, anyType, none, false⟩)], false, true, []⟩]

end Alarm

/-- Every accepted document compiles to a unit that has a program for both backends, or the project
is at fault. The only other failure is about a numeral of the document with too many digits. -/
theorem Request.compileDocument_cases {document mode : Value} {liveness : Liveness}
    {project : Project}
    (hd : Document.checked document = .ok project)
    (hpins : ∀ pin ∈ Document.declaredPins document, Document.GivesTextKey pin)
    (hmode : Liveness.ofValue mode = .ok liveness)
    (entry : String) (strict : Bool) (globals : Members) (backends : List String) :
    (∃ unit, Request.compileDocument ⟨.str entry, mode, .obj globals, strict⟩
        (.arr (backends.map .str)) document = .ok unit ∧
      ∀ name ∈ ["js", "cpp"], ∃ program, Program.emit unit (.str name) = .ok program) ∨
    (∃ failure, Request.compileDocument ⟨.str entry, mode, .obj globals, strict⟩
        (.arr (backends.map .str)) document = .error failure ∧
      (failure.kind ∈ FailureKind.ofProject ∨
        failure.IsUnread ∧ Document.HasLongNumeral document project)) := by
  unfold Request.compileDocument
  simp only [Request.backends, Request.sequence?, Request.lift, Except.mapError, bind, Except.bind]
  rcases Document.project_cases hd with ⟨failure, hfail, hunread⟩ | hp
  · exact .inr ⟨failure, by rw [hfail], .inr hunread⟩
  have hkeys := Document.hasTextKeys_of_checked hd hpins
  rw [hp]
  rcases @Request.compile_cases ⟨.str entry, mode, .obj globals, strict⟩ entry liveness globals
      hmode rfl rfl backends document project hp hkeys with hfail | ⟨unit, hok, hsound⟩
  · exact .inr hfail
  · refine .inl ⟨unit, hok, ?_⟩
    intro name hname
    simp only [List.mem_cons, List.not_mem_nil, or_false] at hname
    rcases hname with rfl | rfl
    · have hjs : Backend.ofValue (.str "js") = .ok .js := rfl
      exact Program.emit_eq_ok hsound hjs
    · have hcpp : Backend.ofValue (.str "cpp") = .ok .cpp := rfl
      exact Program.emit_eq_ok hsound hcpp

theorem Request.compileDocument_cases_alarm :
    Document.checked Alarm.document = .ok Alarm.project ∧
    (∀ pin ∈ Document.declaredPins Alarm.document, Document.GivesTextKey pin) ∧
    Liveness.ofValue (.str "debug") = .ok .debug ∧
    ∃ unit, compileDocument ⟨.str "@/main", .str "debug", .obj [], false⟩ (.arr [.str "js"])
        Alarm.document = .ok unit ∧
      ∀ name ∈ ["js", "cpp"], ∃ program, Program.emit unit (.str name) = .ok program := by
  have hd : Document.checked Alarm.document = .ok Alarm.project := rfl
  have hpins : ∀ pin ∈ Document.declaredPins Alarm.document, Document.GivesTextKey pin := by
    intro pin hpin key hkey
    obtain rfl := List.mem_singleton.mp hpin
    obtain rfl := Option.some.inj hkey
    exact ⟨"ALARM", rfl⟩
  have hmode : Liveness.ofValue (.str "debug") = .ok .debug := by cbv
  refine ⟨hd, hpins, hmode, ?_⟩
  rcases compileDocument_cases hd hpins hmode "@/main" false [] ["js"] with
    hok | ⟨failure, hfail, _⟩
  · exact hok
  · have hunit : ∃ unit, compileDocument ⟨.str "@/main", .str "debug", .obj [], false⟩
        (.arr [.str "js"]) Alarm.document = .ok unit := ⟨_, by cbv⟩
    obtain ⟨unit, hunit⟩ := hunit
    exact absurd (hunit.symm.trans hfail) (by simp)

end Patchbay
