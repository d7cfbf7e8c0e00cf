import Patchbay.CommandLine.Run

/-!
# The program

Runs the command line on the files and the environment of the process: looks up the names that a
run asks about, runs on what was found, and then writes what the run says it wrote.
-/

namespace Patchbay.CommandLine

/-- The text that the system gives. -/
def received (s : String) : String := Text.ofChars s.toList

/-- The text as it is given to the system. -/
def handed (s : String) : String := (Text.plain? s).getD s

/-- The variables of the process. -/
def readEnvironment : IO Environment := do
  let bytes ← IO.FS.readBinFile "/proc/self/environ"
  let entries := (Text.splitAtChar (Char.ofNat 0) ((Text.ofUtf8? bytes).getD "").toList).map
    String.ofList
  return entries.filterMap (Text.cutAt? '=')

/-- The code by which the system refuses to read a directory. -/
def directoryCode : UInt32 := 21

/-- What a name leads to. -/
def look (name : Location) : IO FileEntry := do
  try
    let bytes ← IO.FS.readBinFile (handed name.text)
    return .file bytes
  catch
    | .inappropriateType _ code _ => return if code = directoryCode then .directory else .absent
    | _ => return .absent

/-- A name with those of the directories on the way to it. -/
def onTheWay (name : Location) : List Location :=
  (List.range (name.steps.length + 1)).map fun n => { name with steps := name.steps.take n }

/-- The directory that a command line writes into. -/
def outputDirectory (arguments : Arguments) : Location := Location.parse (arguments.out.getD "")

/-- The names that a run asks about. -/
def namesAsked (arguments : Arguments) : List Location :=
  let entry := arguments.entry.toValue.display
  let directory := outputDirectory arguments
  onTheWay (Location.parse arguments.project)
    ++ onTheWay (directory.child (fileName entry arguments.backend.toValue.display))
    ++ [directory.child (unitFileName entry)]

/-- The arguments of a command line, if it is not refused. -/
def argumentsOf? (environment : Environment) (texts : List String) : Option Arguments :=
  match Settings.ofEnvironment environment with
  | .error _ => none
  | .ok settings => (Arguments.parse settings texts).toOption

/-- The tree of what some names lead to. -/
def readTree : List Location → IO FileTree
  | [] => return ⟨[], []⟩
  | name :: rest => do
    let tree ← readTree rest
    let at_ := name.steps.foldl Location.step ⟨name.root, []⟩
    match ← look name with
    | .absent => return tree
    | .directory => return { tree with directories := at_ :: tree.directories }
    | .file bytes => return { tree with files := (at_, bytes) :: tree.files }

/-- How the program is called. -/
def usage : String :=
  "usage: " ++ programName ++ " " ++ " ".intercalate (Flag.all.map fun flag =>
    "[" ++ flag.title ++ (if flag.takesValue then " VALUE" else "") ++ "]") ++ " project.json"

/-- Does what an ending says, and writes into a directory. -/
def finish (directory : String) : Ending → IO UInt32
  | .stopped code line => do
    if line.isEmpty then IO.println usage else IO.eprintln (usage ++ "\n" ++ handed line)
    return UInt32.ofNat code
  | .finished code output errors written => do
    if !written.isEmpty then IO.FS.createDirAll directory
    for (place, content) in written do
      IO.FS.writeFile (handed place.text) (handed content)
    IO.eprint (handed errors)
    IO.print (handed output)
    return UInt32.ofNat code

end Patchbay.CommandLine

open Patchbay Patchbay.CommandLine in
/-- Runs the command line. -/
def main (texts : List String) : IO UInt32 := do
  let environment ← readEnvironment
  let texts := texts.map received
  let arguments := argumentsOf? environment texts
  let tree ← readTree (arguments.elim [] namesAsked)
  match run environment tree texts with
  | .ok ending => finish (handed (arguments.elim "." fun a => (outputDirectory a).text)) ending
  | .error fault =>
    IO.eprintln (fault.className ++ ": " ++ handed fault.message)
    return 1
