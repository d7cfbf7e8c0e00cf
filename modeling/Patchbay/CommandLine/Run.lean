import Patchbay.CommandLine.Arguments
import Patchbay.CommandLine.FileTree
import Patchbay.Program.Emission

/-!
# Runs of the command line

One run reads a project file, compiles one patch of it and writes the program, and on request the
unit, into a directory. The files are a tree that the run looks up; what it writes is part of its
result. A run that is refused, or that reports a failure, writes nothing.
-/

namespace Patchbay.CommandLine

/-- How a run ends. -/
inductive Ending where
  /-- The arguments were refused, or the usage was asked for; with the last line of the message. -/
  | stopped (code : Nat) (line : String)
  /-- The run came to its end: the exit code, both outputs, and the files written by location. -/
  | finished (code : Nat) (output errors : String) (written : List (Location × String))

/-- The name of the program in its messages. -/
def programName : String := "patchflow-compile"

/-- What a refused command line ends with. -/
def refused (refusal : Refusal) : Ending :=
  .stopped 2 (programName ++ ": error: " ++ refusal.message)

/-- The lines of a report, each ended by a line feed. -/
def linesText (lines : List String) : String := String.join (lines.map (· ++ "\n"))

/-- The end of a run that failed. -/
def failed (failure : Failure) : Ending :=
  let report := failure.report
  let lines := ["[error] " ++ report.kind.tag ++ ": " ++ report.message]
    ++ if report.payload.isEmpty then []
      else ["[error] " ++ Json.render none (Value.obj report.payload).sortKeys]
  .finished 1 "" (linesText lines) []

/-- A line about a run. -/
def note (subject text : String) : String := "[" ++ programName ++ "] " ++ subject ++ ": " ++ text

/-- What a run says about its program. -/
def notes (arguments : Arguments) (program : Program) : List String :=
  [note "entry   " arguments.entry.toValue.display,
    note "backend " arguments.backend.toValue.display,
    note "nodes   " (Text.Numeral.natText program.unit.topology.length)]

/-! ## Names of files -/

/-- A character as it stands in the name of a program file. -/
def fileChar (c : Char) : Char := if c = '-' || c = ' ' then '_' else c

/-- The name of a program file without its extension: the last part of the path of the patch. -/
def fileStem (entry : String) : String :=
  let name := (Text.lower (Text.lastSegment '/' entry)).toList.map fileChar
  if name.isEmpty then "main" else String.ofList name

/-- The name of the program file. -/
def fileName (entry backend : String) : String := fileStem entry ++ "." ++ backend

/-- The name of the file that holds the unit. -/
def unitFileName (entry : String) : String := fileStem entry ++ ".unit.json"

/-! ## Runs -/

/-- Where a text can be written under a name. -/
def placeFor (tree : FileTree) (name : Location) (content : String) : Except Fault Location := do
  let place ← tree.writable name
  match Text.halfRun? content with
  | some run => .error (.notEncodable run)
  | none => return place

/-- The end of a run that writes its files into a directory. -/
def writingInto (tree : FileTree) (directory : Location) (arguments : Arguments)
    (program : Program) : Except Fault Ending := do
  let entry := arguments.entry.toValue.display
  let tree ← tree.makeDirectory directory
  let programFile := directory.child (fileName entry arguments.backend.toValue.display)
  let programPlace ← placeFor tree programFile program.source
  let lines := notes arguments program ++ [note "wrote   " programFile.text]
  if arguments.unitJson then
    let unitFile := directory.child (unitFileName entry)
    let json ← program.unit.json (some 2)
    let unitPlace ← placeFor tree unitFile json
    return .finished 0 "" (linesText (lines ++ [note "wrote   " unitFile.text]))
      [(programPlace, program.source), (unitPlace, json ++ "\n")]
  else return .finished 0 "" (linesText lines) [(programPlace, program.source)]

/-- The end of a run that writes its files. -/
def writing (tree : FileTree) (arguments : Arguments) (program : Program) : Except Fault Ending :=
  match arguments.out with
  | some name => writingInto tree (Location.parse name) arguments program
  | none => .error (.notAName (Given.toValue none).kindName)

/-- The project in a file. -/
def project (name : Location) (bytes : ByteArray) : Except Failure Project := do
  let document ← Document.ofBytes name.text bytes
  Document.project document

/-- The constants of a run: the name of the project is one of them, unless it is set. -/
def constantsFor (project : Project) (name : Location) (constants : Constants) : Constants :=
  if (constants.lookup "PROJECT_NAME").isSome then constants
  else constants.put "PROJECT_NAME" (if project.name.isEmpty then name.stem else project.name)

/-- What a run asks to be compiled. -/
def requestOf (arguments : Arguments) (constants : Constants) : Request where
  entry := arguments.entry.toValue
  mode := arguments.liveness.toValue
  globals := constants.toValue
  strict := arguments.strict

/-- The end of a run on the bytes of a project file. -/
def runOn (tree : FileTree) (arguments : Arguments) (constants : Constants) (name : Location)
    (bytes : ByteArray) : Except Fault Ending :=
  match project name bytes with
  | .error (.fault fault) => .error fault
  | .error failure => .ok (failed failure)
  | .ok project =>
    let request := requestOf arguments (constantsFor project name constants)
    match request.program arguments.backend.toValue project with
    | .error failure => .ok (failed failure)
    | .ok program =>
      if arguments.print then
        .ok (.finished 0 program.source (linesText (notes arguments program)) [])
      else writing tree arguments program

/-- The end of a run on the file of a name, which is there. -/
def runOnEntry (tree : FileTree) (arguments : Arguments) (constants : Constants)
    (name : Location) : FileEntry → Except Fault Ending
  | .file bytes => runOn tree arguments constants name bytes
  | _ => .error (.isADirectory name.text)

/-- The end of a run on arguments that have been read. -/
def runArguments (settings : Settings) (tree : FileTree) (arguments : Arguments) :
    Except Fault Ending := do
  let name := Location.parse arguments.project
  match ← tree.entry name with
  | .absent => return .finished 1 "" (linesText ["[error] File not found: " ++ name.text]) []
  | entry =>
    match settings.globals.withBindings (arguments.constants.map Given.toValue) with
    | .error (.notABinding text) => return refused (.unbound (.notABinding text))
    | .error fault => .error fault
    | .ok constants => runOnEntry tree arguments constants name entry

/-- A run of the command line. -/
def run (environment : Environment) (tree : FileTree) (texts : List String) :
    Except Fault Ending := do
  let settings ← Settings.ofEnvironment environment
  match Arguments.parse settings texts with
  | .error .help => return .stopped 0 ""
  | .error (.refused refusal) => return refused refusal
  | .ok arguments => runArguments settings tree arguments

end Patchbay.CommandLine
