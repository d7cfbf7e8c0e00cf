import Mathlib
import Patchbay.CommandLine.Run
import Patchbay.Proofs.Program.Lines
import Patchbay.Proofs.Text.Character

/-!
# What a run writes

A run writes once its program is there, and nothing can make it fail with a report after that. The
names of its files are made from the last part of the path of the patch. Whatever the path is, they
are plain (`IsPlain`): looked up in a directory, such a name leads to an entry of it
(`exists_of_walk_child`). So the files of a run lie in the directory that it was given
(`run_writes`).
-/

namespace Patchbay

/-- A name that leads from a directory to an entry of it. -/
def Location.IsPlain (name : String) : Prop :=
  '/' ∉ name.toList ∧ name ≠ "" ∧ name ≠ "." ∧ name ≠ Location.parent

theorem Location.step_eq_child {directory : Location} {name : String} (h : name ≠ parent) :
    directory.step name = directory.child name := by
  unfold step
  rw [if_neg (by simp [h]), if_neg (by simp [h])]

namespace FileTree

open Text (byteLength)

variable {tree made : FileTree} {place : Location}

/-! ## Names inside a directory -/

theorem walkFrom_cons_eq_ok {start : Location} {step : String} {rest : List String} :
    tree.walkFrom start (step :: rest) = .ok place ↔
      tree.entryAt start = .directory ∧ ¬ stepLimit < byteLength step ∧
        tree.walkFrom (start.step step) rest = .ok place := by
  rw [walkFrom]
  cases tree.entryAt start with
  | absent => simp
  | file bytes => simp
  | directory =>
    show (if stepLimit < byteLength step then _ else _) = _ ↔ _
    split
    · next hlong => simp [hlong]
    · next hshort => simp [hshort]

theorem exists_of_walkFrom_concat {start : Location} {steps : List String} {name : String}
    (h : tree.walkFrom start (steps ++ [name]) = .ok place) :
    ∃ directory, tree.walkFrom start steps = .ok directory ∧
      tree.entryAt directory = .directory ∧ place = directory.step name := by
  induction steps generalizing start with
  | nil =>
    obtain ⟨hentry, _, hplace⟩ := walkFrom_cons_eq_ok.mp h
    exact ⟨start, rfl, hentry, (Except.ok.inj hplace).symm⟩
  | cons step rest ih =>
    obtain ⟨hentry, hshort, hrest⟩ := walkFrom_cons_eq_ok.mp h
    obtain ⟨directory, hwalk, hdirectory, hplace⟩ := ih hrest
    exact ⟨directory, walkFrom_cons_eq_ok.mpr ⟨hentry, hshort, hwalk⟩, hdirectory, hplace⟩

theorem exists_of_walk_child {name : Location} {last : String} (hlast : Location.IsPlain last)
    (h : tree.walk (name.child last) = .ok place) :
    ∃ directory, tree.walkFrom ⟨name.root, []⟩ name.steps = .ok directory ∧
      tree.entryAt directory = .directory ∧ place = directory.child last := by
  unfold walk at h
  split at h
  · cases h
  · obtain ⟨directory, hwalk, hentry, hplace⟩ := exists_of_walkFrom_concat h
    refine ⟨directory, hwalk, hentry, ?_⟩
    rw [hplace, Location.step_eq_child hlast.2.2.2]

theorem walk_of_writable {name : Location} (h : tree.writable name = .ok place) :
    tree.walk name = .ok place := by
  unfold writable at h
  split at h
  · cases h
  · split at h
    · cases h
    · next hwalk =>
      split at h
      · cases h
      · rw [hwalk, Except.ok.inj h]

/-! ## The directory of a run -/

/-- No directory is made whose name is too long. -/
theorem makeSteps_of_long (tree : FileTree) {root step : String} {above : List String}
    (h : nameLimit ≤ byteLength (Location.text ⟨root, (step :: above).reverse⟩)) :
    ∃ fault, makeSteps root tree (step :: above) = .error fault := by
  have hwalk : tree.walk ⟨root, (step :: above).reverse⟩ = .error .tooLong := if_pos h
  have hone : tree.makeOne ⟨root, (step :: above).reverse⟩ = .error .tooLong := by
    rw [makeOne, hwalk]
  refine ⟨Obstacle.tooLong.fault ⟨root, (step :: above).reverse⟩, ?_⟩
  rw [makeSteps, hone]
  simp only [unlessThere, hwalk]

/-- The name of a root or of the working directory is never too long. -/
theorem byteLength_root (name : String) :
    byteLength (Location.text ⟨(Location.parse name).root, []⟩) < nameLimit := by
  show byteLength (Location.text ⟨Location.rootOf _, []⟩) < nameLimit
  unfold Location.rootOf
  split
  · decide
  · split
    · decide
    · decide

/-- A directory that is there in the end is found by its steps. -/
theorem walk_of_makeDirectory {out : String}
    (h : tree.makeDirectory (Location.parse out) = .ok made) :
    made.walk (Location.parse out) =
      made.walkFrom ⟨(Location.parse out).root, []⟩ (Location.parse out).steps := by
  refine if_neg fun hlong => ?_
  unfold makeDirectory at h
  split at h
  · cases h
  · cases hsteps : (Location.parse out).steps.reverse with
    | nil =>
      have hnil : (Location.parse out).steps = [] := List.reverse_eq_nil_iff.mp hsteps
      have hshort := byteLength_root out
      rw [← hnil] at hshort
      exact absurd hshort (Nat.not_lt.mpr hlong)
    | cons step above =>
      have hname : Location.parse out = ⟨(Location.parse out).root, (step :: above).reverse⟩ := by
        rw [← hsteps, List.reverse_reverse]
      rw [hname] at hlong
      obtain ⟨fault, hfault⟩ := makeSteps_of_long tree hlong
      rw [hsteps, hfault] at h
      cases h

end FileTree

/-! ## Backends -/

theorem Backend.exists_of_program {request : Request} {backend : Value} {project : Project}
    {program : Program} (h : request.program backend project = .ok program) :
    ∃ named, Backend.ofValue backend = .ok named := by
  obtain ⟨_, _, hemit⟩ := bind_eq_ok.mp h
  obtain ⟨named, hnamed, _⟩ := bind_eq_ok.mp hemit
  exact ⟨named, hnamed⟩

namespace CommandLine

open Location (IsPlain)

theorem backend_of_given {given : Given} {backend : Backend}
    (h : Backend.ofValue given.toValue = .ok backend) :
    backend ∈ Backend.all ∧ given.toValue.display = backend.name := by
  cases given with
  | none => cases h
  | some text =>
    simp only [Given.toValue, Backend.ofValue, Label.ofValue] at h
    split at h
    · next hfind =>
      obtain rfl := Except.ok.inj h
      have hname := List.find?_some hfind
      exact ⟨List.mem_of_find?_eq_some hfind, (of_decide_eq_true hname).symm⟩
    · cases h

/-! ## Names of files -/

theorem slash_not_mem_fileStem (entry : String) : '/' ∉ (fileStem entry).toList := by
  unfold fileStem
  simp only
  split
  · decide
  · rw [String.toList_ofList]
    intro hslash
    obtain ⟨c, hc, hchar⟩ := List.mem_map.mp hslash
    unfold fileChar at hchar
    split at hchar
    · exact absurd hchar (by decide)
    · subst hchar
      exact Text.not_mem_lastSegment '/' entry (Text.slash_mem_of_mem_lower hc)

theorem fileStem_ne_empty (entry : String) : fileStem entry ≠ "" := by
  unfold fileStem
  simp only
  split
  · decide
  · next hname =>
    intro hempty
    rw [String.ofList_eq_empty_iff] at hempty
    exact hname (by rw [hempty]; rfl)

/-- A stem with an extension of two characters or more is plain, even if the stem is not. -/
theorem isPlain_append {stem extension : String} (hstem : '/' ∉ stem.toList) (hne : stem ≠ "")
    (hextension : '/' ∉ extension.toList) (hlong : 2 ≤ extension.toList.length) :
    IsPlain (stem ++ extension) := by
  have hstemLong : 0 < stem.toList.length := by
    rw [List.length_pos_iff]
    exact fun hnil => hne (String.toList_eq_nil_iff.mp hnil)
  have hlength : 2 < (stem ++ extension).toList.length := by
    rw [String.toList_append, List.length_append]
    omega
  have hdiffers : ∀ name : String, name.toList.length ≤ 2 → stem ++ extension ≠ name := by
    rintro name hname rfl
    omega
  refine ⟨?_, hdiffers _ (by decide), hdiffers _ (by decide), hdiffers _ (by decide)⟩
  rw [String.toList_append, List.mem_append]
  exact fun hslash => hslash.elim hstem hextension

theorem isPlain_fileName (entry : String) {backend : Backend} (h : backend ∈ Backend.all) :
    IsPlain (fileName entry backend.name) := by
  have hplain : ∀ backend ∈ Backend.all, '/' ∉ ("." ++ backend.name).toList ∧
      2 ≤ ("." ++ backend.name).toList.length := by decide
  unfold fileName
  rw [String.append_assoc]
  exact isPlain_append (slash_not_mem_fileStem entry) (fileStem_ne_empty entry)
    (hplain backend h).1 (hplain backend h).2

theorem isPlain_unitFileName (entry : String) : IsPlain (unitFileName entry) :=
  isPlain_append (slash_not_mem_fileStem entry) (fileStem_ne_empty entry) (by decide) (by decide)

theorem fileName_ne_unitFileName (entry : String) {backend : Backend} (h : backend ∈ Backend.all) :
    fileName entry backend.name ≠ unitFileName entry := by
  have hdiffers : ∀ backend ∈ Backend.all, "." ++ backend.name ≠ ".unit.json" := by decide
  unfold fileName unitFileName
  rw [String.append_assoc]
  exact fun hsame => hdiffers backend h (String.append_right_inj _ |>.mp hsame)

/-! ## Endings -/

/-- The files that a run has written when it ends. -/
def Ending.written : Ending → List (Location × String)
  | .stopped _ _ => []
  | .finished _ _ _ written => written

/-- The name of a directory, once it has been made, leads to this one. -/
def LeadsTo (tree : FileTree) (name directory : Location) : Prop :=
  ∃ made, tree.makeDirectory name = .ok made ∧ made.walk name = .ok directory ∧
    made.entryAt directory = .directory

/-- The files of a program, in the directory that the arguments name: its source, and its unit
just if the arguments ask for that. -/
def Places (tree : FileTree) (arguments : Arguments) (program : Program)
    (written : List (Location × String)) : Prop :=
  ∃ out directory source, arguments.out = some out ∧
    LeadsTo tree (Location.parse out) directory ∧ IsPlain source ∧
    if arguments.unitJson then
      ∃ unit json, IsPlain unit ∧ unit ≠ source ∧ program.unit.json (some 2) = .ok json ∧
        written = [(directory.child source, program.source), (directory.child unit, json ++ "\n")]
    else written = [(directory.child source, program.source)]

/-- How a run ends that has come to its program. -/
def Delivers (tree : FileTree) (arguments : Arguments) (program : Program) (ending : Ending) :
    Prop :=
  if arguments.print then ∃ errors, ending = .finished 0 program.source errors []
  else ∃ errors written, ending = .finished 0 "" errors written ∧
    Places tree arguments program written

/-- The bytes of a project file are read, and come to this program. -/
def Yields (arguments : Arguments) (constants : Constants) (name : Location) (bytes : ByteArray)
    (program : Program) : Prop :=
  ∃ read, project name bytes = .ok read ∧
    (requestOf arguments (constantsFor read name constants)).program arguments.backend.toValue read
      = .ok program

/-- The project file is there, the constants are read, and the file comes to this program. -/
def CompilesFrom (settings : Settings) (tree : FileTree) (arguments : Arguments)
    (program : Program) : Prop :=
  ∃ bytes constants, tree.entry (Location.parse arguments.project) = .ok (.file bytes) ∧
    settings.globals.withBindings (arguments.constants.map Given.toValue) = .ok constants ∧
    Yields arguments constants (Location.parse arguments.project) bytes program

/-- The settings and the arguments of a run are read, and it comes to this program. -/
def Compiles (environment : Environment) (tree : FileTree) (texts : List String)
    (arguments : Arguments) (program : Program) : Prop :=
  ∃ settings, Settings.ofEnvironment environment = .ok settings ∧
    Arguments.parse settings texts = .ok arguments ∧ CompilesFrom settings tree arguments program

/-! ## Runs -/

section

variable {environment : Environment} {tree : FileTree} {texts : List String}
  {settings : Settings} {arguments : Arguments} {constants : Constants} {program : Program}
  {ending : Ending}

theorem exists_of_placeFor {name place : Location} {last content : String} (hlast : IsPlain last)
    (h : placeFor tree (name.child last) content = .ok place) :
    ∃ directory, tree.walkFrom ⟨name.root, []⟩ name.steps = .ok directory ∧
      tree.entryAt directory = .directory ∧ place = directory.child last := by
  obtain ⟨found, hfound, h⟩ := bind_eq_ok.mp h
  split at h
  · cases h
  · obtain rfl := Except.ok.inj h
    exact FileTree.exists_of_walk_child hlast (FileTree.walk_of_writable hfound)

theorem writingInto_cases {out : String} {backend : Backend} (hout : arguments.out = some out)
    (hbackend : Backend.ofValue arguments.backend.toValue = .ok backend)
    (h : writingInto tree (Location.parse out) arguments program = .ok ending) :
    ∃ errors written, ending = .finished 0 "" errors written ∧
      Places tree arguments program written := by
  obtain ⟨hmem, hname⟩ := backend_of_given hbackend
  obtain ⟨made, hmade, h⟩ := bind_eq_ok.mp h
  obtain ⟨sourcePlace, hsource, h⟩ := bind_eq_ok.mp h
  rw [hname] at hsource
  have hplain := isPlain_fileName arguments.entry.toValue.display hmem
  obtain ⟨directory, hwalk, hentry, rfl⟩ := exists_of_placeFor hplain hsource
  have hleads : LeadsTo tree (Location.parse out) directory :=
    ⟨made, hmade, (FileTree.walk_of_makeDirectory hmade).trans hwalk, hentry⟩
  split at h
  · next hunit =>
    obtain ⟨json, hjson, h⟩ := bind_eq_ok.mp h
    obtain ⟨unitPlace, hunitPlace, h⟩ := bind_eq_ok.mp h
    have hunitPlain := isPlain_unitFileName arguments.entry.toValue.display
    obtain ⟨again, hagain, _, rfl⟩ := exists_of_placeFor hunitPlain hunitPlace
    obtain rfl := Except.ok.inj (hwalk.symm.trans hagain)
    obtain rfl := Except.ok.inj h
    refine ⟨_, _, rfl, out, directory, _, hout, hleads, hplain, ?_⟩
    rw [if_pos hunit]
    exact ⟨_, json, hunitPlain, (fileName_ne_unitFileName _ hmem).symm, hjson, rfl⟩
  · next hunit =>
    obtain rfl := Except.ok.inj h
    refine ⟨_, _, rfl, out, directory, _, hout, hleads, hplain, ?_⟩
    rw [if_neg hunit]

/-- What a run does with its program. -/
theorem delivers_of_program {request : Request} {read : Project}
    (hprogram : request.program arguments.backend.toValue read = .ok program)
    (h : (if arguments.print then
        .ok (.finished 0 program.source (linesText (notes arguments program)) [])
      else writing tree arguments program) = .ok ending) :
    Delivers tree arguments program ending := by
  unfold Delivers
  cases hprint : arguments.print with
  | true =>
    rw [hprint] at h
    exact ⟨_, (Except.ok.inj h).symm⟩
  | false =>
    rw [hprint] at h
    obtain ⟨backend, hbackend⟩ := Backend.exists_of_program hprogram
    change writing tree arguments program = .ok ending at h
    unfold writing at h
    cases hout : arguments.out with
    | some out =>
      rw [hout] at h
      exact writingInto_cases hout hbackend h
    | none =>
      rw [hout] at h
      cases h

theorem runOn_cases {name : Location} {bytes : ByteArray}
    (h : runOn tree arguments constants name bytes = .ok ending) :
    ((∃ errors, ending = .finished 1 "" errors []) ∧
        ∀ program, ¬ Yields arguments constants name bytes program) ∨
      ∃ program, Yields arguments constants name bytes program ∧
        Delivers tree arguments program ending := by
  unfold runOn at h
  split at h
  · cases h
  · next hread =>
    refine .inl ⟨⟨_, (Except.ok.inj h).symm⟩, ?_⟩
    rintro program ⟨read, hread', _⟩
    exact absurd (hread.symm.trans hread') (by simp)
  · next read hread =>
    cases hprogram : (requestOf arguments (constantsFor read name constants)).program
        arguments.backend.toValue read with
    | error failure =>
      simp only [hprogram] at h
      refine .inl ⟨⟨_, (Except.ok.inj h).symm⟩, ?_⟩
      rintro program ⟨read', hread', hprogram'⟩
      obtain rfl := Except.ok.inj (hread.symm.trans hread')
      exact absurd (hprogram.symm.trans hprogram') (by simp)
    | ok program =>
      simp only [hprogram] at h
      exact .inr ⟨program, ⟨read, hread, hprogram⟩, delivers_of_program hprogram h⟩

theorem runArguments_cases (h : runArguments settings tree arguments = .ok ending) :
    (((∃ line, ending = .stopped 2 line) ∨ ∃ errors, ending = .finished 1 "" errors []) ∧
        ∀ program, ¬ CompilesFrom settings tree arguments program) ∨
      ∃ program, CompilesFrom settings tree arguments program ∧
        Delivers tree arguments program ending := by
  obtain ⟨entry, hentry, h⟩ := bind_eq_ok.mp h
  split at h
  · refine .inl ⟨.inr ⟨_, (Except.ok.inj h).symm⟩, ?_⟩
    rintro program ⟨bytes, _, hbytes, _⟩
    exact absurd (hentry.symm.trans hbytes) (by simp)
  · split at h
    · next hunbound =>
      refine .inl ⟨.inl ⟨_, (Except.ok.inj h).symm⟩, ?_⟩
      rintro program ⟨_, constants, _, hconstants, _⟩
      exact absurd (hunbound.symm.trans hconstants) (by simp)
    · cases h
    · next constants hconstants =>
      cases entry with
      | absent => cases h
      | directory => cases h
      | file bytes =>
        rcases runOn_cases h with ⟨hfailed, hnone⟩ | ⟨program, hyields, hdelivers⟩
        · refine .inl ⟨.inr hfailed, ?_⟩
          rintro program ⟨bytes', constants', hbytes, hconstants', hyields⟩
          obtain rfl := FileEntry.file.inj (Except.ok.inj (hentry.symm.trans hbytes))
          obtain rfl := Except.ok.inj (hconstants.symm.trans hconstants')
          exact hnone program hyields
        · exact .inr ⟨program, ⟨bytes, constants, hentry, hconstants, hyields⟩, hdelivers⟩

/-- A run that is stopped or reports a failure writes nothing, and it comes to no program. Any
other does; it prints the source and writes nothing, or it writes the source, with the unit if that
is asked for, right into the directory that the arguments name. -/
theorem run_writes (h : run environment tree texts = .ok ending) :
    (ending.written = [] ∧
      ((∃ code line, ending = .stopped code line) ∨ ∃ errors, ending = .finished 1 "" errors []) ∧
        ∀ arguments program, ¬ Compiles environment tree texts arguments program) ∨
      ∃ arguments program, Compiles environment tree texts arguments program ∧
        Delivers tree arguments program ending := by
  obtain ⟨settings, hsettings, h⟩ := bind_eq_ok.mp h
  have hread : ∀ {arguments program}, Compiles environment tree texts arguments program →
      Arguments.parse settings texts = .ok arguments ∧
        CompilesFrom settings tree arguments program := by
    rintro arguments program ⟨settings', hsettings', hfrom⟩
    obtain rfl := Except.ok.inj (hsettings.symm.trans hsettings')
    exact hfrom
  cases hparse : Arguments.parse settings texts with
  | error halt =>
    have hnone : ∀ arguments program, ¬ Compiles environment tree texts arguments program :=
      fun arguments program hcompiles =>
        absurd (hparse.symm.trans (hread hcompiles).1) (by simp)
    rw [hparse] at h
    cases halt with
    | help =>
      obtain rfl := Except.ok.inj h
      exact .inl ⟨rfl, .inl ⟨0, "", rfl⟩, hnone⟩
    | refused refusal =>
      obtain rfl := Except.ok.inj h
      exact .inl ⟨rfl, .inl ⟨2, _, rfl⟩, hnone⟩
  | ok arguments =>
    rw [hparse] at h
    rcases runArguments_cases h with ⟨hending, hnone⟩ | ⟨program, hfrom, hdelivers⟩
    · have hno : ∀ arguments program, ¬ Compiles environment tree texts arguments program := by
        intro other program hcompiles
        obtain ⟨hother, hfrom⟩ := hread hcompiles
        obtain rfl := Except.ok.inj (hparse.symm.trans hother)
        exact hnone program hfrom
      rcases hending with ⟨line, rfl⟩ | ⟨errors, rfl⟩
      · exact .inl ⟨rfl, .inl ⟨2, line, rfl⟩, hno⟩
      · exact .inl ⟨rfl, .inr ⟨errors, rfl⟩, hno⟩
    · exact .inr ⟨arguments, program, ⟨settings, hsettings, hparse, hfrom⟩, hdelivers⟩

end

/-! ## A patch without nodes -/

namespace Blank

/-- A project with one patch, which has no nodes. -/
def text : String := "\x7b\"patches\":\x7b\"@/m\":\x7b\x7d\x7d\x7d"

/-- The project file, and nothing else. -/
def tree : FileTree := ⟨[(⟨"", ["p"]⟩, text.toUTF8)], []⟩

/-- A command line that asks for the program and the unit of the patch. -/
def texts : List String := ["p", "--entry", "@/m", "--backend", "cpp", "--unit-json"]

def settings : Settings := ⟨["js"], .none, "WARNING", false, 3001, []⟩

def arguments : Arguments :=
  ⟨"p", some "@/m", some "cpp", some "none", [], some "build", false, true, false⟩

def read : Project := ⟨"", [⟨"@/m", none, [], []⟩], []⟩

def unit : CompiledUnit := ⟨[], [], [], [], [], "none", [(.text "PROJECT_NAME", .str "p")]⟩

def sortedUnit : Value :=
  .obj [
    ("globals", .obj [("PROJECT_NAME", .str "p")]), ("impl", .obj []), ("liveness", .str "none"),
    ("nodeIdsMap", .obj []), ("nodes", .obj []), ("pinsAffectedByErrorRaisers", .obj []),
    ("topology", .arr [])]

/-- The tree with the directory of the run. -/
def made : FileTree := { tree with directories := [⟨"", ["build"]⟩] }

theorem parse_texts : Arguments.parse settings texts = .ok arguments := by
  cbv

theorem project_text : project (Location.parse "p") text.toUTF8 = .ok read := by
  cbv

theorem compile_read :
    (requestOf arguments (constantsFor read (Location.parse "p") [])).compile [.str "cpp"] read =
      .ok unit := by
  cbv

theorem sortedValue_unit : unit.sortedValue = .ok sortedUnit := by
  cbv

/-- The lines of the program. -/
def lines : List String :=
  match Program.written .cpp unit with
  | .ok w => w.lines
  | .error _ => []

theorem exists_written :
    ∃ w, Program.written .cpp unit = .ok w ∧ Text.halfRun? (w.text ++ "\n") = none := by
  have hlines : lines ≠ [] := by decide +kernel
  have hhalf : (Text.halfRunFrom Text.isHalf 0 (Text.codes (Writer.chars lines))).isNone := by
    decide +kernel
  obtain ⟨w, hw⟩ : ∃ w, Program.written .cpp unit = .ok w := ⟨_, rfl⟩
  have hsame : lines = w.lines := by rw [lines, hw]
  rw [hsame] at hlines hhalf
  refine ⟨w, hw, ?_⟩
  rw [Text.halfRun?, Writer.toList_text hlines]
  exact Option.isNone_iff_eq_none.mp hhalf

theorem exists_program :
    ∃ program : Program,
      (requestOf arguments (constantsFor read (Location.parse "p") [])).program
        arguments.backend.toValue read = .ok program ∧
      program.unit = unit ∧ Text.halfRun? program.source = none := by
  obtain ⟨w, hw, hhalf⟩ := exists_written
  refine ⟨⟨w.text ++ "\n", unit⟩, bind_eq_ok.mpr ⟨unit, compile_read, ?_⟩, rfl, hhalf⟩
  have hcpp : Backend.ofValue (.str "cpp") = .ok .cpp := rfl
  refine bind_eq_ok.mpr ⟨.cpp, hcpp, ?_⟩
  rw [hw]

theorem placeFor_of_writable {tree : FileTree} {name place : Location} {content : String}
    (hplace : tree.writable name = .ok place) (hhalf : Text.halfRun? content = none) :
    placeFor tree name content = .ok place := by
  refine bind_eq_ok.mpr ⟨place, hplace, ?_⟩
  rw [hhalf]
  rfl

theorem exists_run : ∃ ending, run [] tree texts = .ok ending ∧ ending.written.length = 2 := by
  obtain ⟨program, hprogram, hunit, hhalf⟩ := exists_program
  have hjson : program.unit.json (some 2) = .ok (Json.render (some 2) sortedUnit) := by
    rw [hunit, CompiledUnit.json, sortedValue_unit]
    rfl
  have hjsonHalf : Text.halfRun? (Json.render (some 2) sortedUnit) = none := by
    rw [Text.halfRun?, Json.render, Json.renderIn, String.toList_ofList]
    exact Option.isNone_iff_eq_none.mp (by decide +kernel)
  have hsource : placeFor made ((Location.parse "build").child (fileName "@/m" "cpp"))
      program.source = .ok ⟨"", ["build", "m.cpp"]⟩ := placeFor_of_writable rfl hhalf
  have hunitPlace : placeFor made ((Location.parse "build").child (unitFileName "@/m"))
      (Json.render (some 2) sortedUnit) = .ok ⟨"", ["build", "m.unit.json"]⟩ :=
    placeFor_of_writable rfl hjsonHalf
  have hwriting : ∃ ending, writing tree arguments program = .ok ending ∧
      ending.written.length = 2 := by
    have hmade : tree.makeDirectory (Location.parse "build") = .ok made := rfl
    exact ⟨_, bind_eq_ok.mpr ⟨made, hmade, bind_eq_ok.mpr ⟨_, hsource,
      bind_eq_ok.mpr ⟨_, hjson, bind_eq_ok.mpr ⟨_, hunitPlace, rfl⟩⟩⟩⟩, rfl⟩
  obtain ⟨ending, hending, hlength⟩ := hwriting
  refine ⟨ending, bind_eq_ok.mpr ⟨settings, Settings.ofEnvironment_nil, ?_⟩, hlength⟩
  rw [parse_texts]
  refine bind_eq_ok.mpr ⟨.file text.toUTF8, rfl, ?_⟩
  show runOn tree arguments [] (Location.parse "p") text.toUTF8 = .ok ending
  rw [runOn, project_text]
  simp only [hprogram]
  exact hending

end Blank

/-- A run that writes its program and the unit. -/
theorem run_writes_blank :
    ∃ ending, run [] Blank.tree Blank.texts = .ok ending ∧ ending.written.length = 2 ∧
      ∃ arguments program, Compiles [] Blank.tree Blank.texts arguments program ∧
        Delivers Blank.tree arguments program ending := by
  obtain ⟨ending, hrun, hlength⟩ := Blank.exists_run
  refine ⟨ending, hrun, hlength, ?_⟩
  rcases run_writes hrun with ⟨hnone, _⟩ | hwrites
  · exact absurd hlength (by rw [hnone]; decide)
  · exact hwrites

end CommandLine

end Patchbay
