import Patchbay.Fault
import Patchbay.Text.Split

/-!
# Files

Names of files as a command line gives them, and a tree of files to look them up in. A name is
read as its steps from a root; empty steps and steps to the same directory count for nothing. A
step to the parent is taken when the name is looked up, so that it asks for the directory that it
leaves.

`FileTree.walk` follows a name to the place it leads to, or tells what is in its way.
-/

namespace Patchbay

/-- The name of a file or directory. -/
structure Location where
  /-- What the name starts with: one or two slashes, or nothing below the working directory. -/
  root : String
  steps : List String
  deriving DecidableEq, Inhabited

namespace Location

/-- The step to the parent. -/
def parent : String := ".."

/-- The root of a name that starts with so many slashes. -/
def rootOf (slashes : Nat) : String :=
  if slashes = 0 then "" else if slashes = 2 then "//" else "/"

/-- The location that a name gives. -/
def parse (name : String) : Location where
  root := rootOf (name.toList.takeWhile (· = '/')).length
  steps := ((Text.splitAtChar '/' name.toList).map String.ofList).filter
    fun step => !step.isEmpty && step != "."

/-- The name of a location. -/
def text (at_ : Location) : String :=
  let joined := at_.root ++ "/".intercalate at_.steps
  if joined.isEmpty then "." else joined

/-- A location inside a directory. -/
def child (at_ : Location) (name : String) : Location := { at_ with steps := at_.steps ++ [name] }

/-- The location after one more step, where a step to the parent takes one back; there is nothing
above a root. -/
def step (at_ : Location) (name : String) : Location :=
  if name = parent && at_.steps.getLast?.any (· != parent) then
    { at_ with steps := at_.steps.dropLast }
  else if name = parent && at_.steps.isEmpty && !at_.root.isEmpty then at_
  else at_.child name

/-- The last step of a location. -/
def lastStep (at_ : Location) : String := at_.steps.getLastD ""

/-- The last step without what follows its last point; a point at either end belongs to the
name. -/
def stem (at_ : Location) : String :=
  let extension := (at_.lastStep.toList.reverse.takeWhile (· ≠ '.')).length
  let length := at_.lastStep.toList.length
  if 0 < extension && extension + 1 < length then
    String.ofList (at_.lastStep.toList.take (length - extension - 1))
  else at_.lastStep

end Location

/-- What a location holds. -/
inductive FileEntry where
  | absent
  | directory
  | file (bytes : ByteArray)
  deriving Inhabited

/-- Files by location, and directories beside those on the way to the files. -/
structure FileTree where
  files : List (Location × ByteArray)
  directories : List Location
  deriving Inhabited

namespace FileTree

/-- Whether one location is on the way to another. -/
def isAbove (upper lower : Location) : Bool :=
  upper.root == lower.root && upper.steps.length < lower.steps.length
    && upper.steps.isPrefixOf lower.steps

/-- Whether a location without steps to the parent on its way is a directory; a root and the
working directory are, with the directories above it. -/
def isDirectory (tree : FileTree) (at_ : Location) : Bool :=
  at_.steps.all (· == Location.parent) || tree.directories.contains at_
    || tree.files.any fun (file, _) => isAbove at_ file

/-- What a location without steps to the parent on its way holds. -/
def entryAt (tree : FileTree) (at_ : Location) : FileEntry :=
  match tree.files.find? (·.1 = at_) with
  | some (_, bytes) => .file bytes
  | none => if tree.isDirectory at_ then .directory else .absent

/-! ## Walking -/

/-- What is in the way of a name. -/
inductive Obstacle where
  /-- The name leads on from something that is not there. -/
  | missing
  /-- The name leads on from a file. -/
  | notADirectory
  /-- Something is there already. -/
  | taken
  /-- The name, or a step of it, has too many bytes. -/
  | tooLong

/-- The fault of a name that an obstacle is in the way of. -/
def Obstacle.fault (name : Location) : Obstacle → Fault
  | missing => .noSuchFile name.text
  | notADirectory => .notADirectory name.text
  | taken => .fileExists name.text
  | tooLong => .nameTooLong name.text

/-- A step of a name has at most so many bytes. -/
def stepLimit : Nat := 255

/-- A name has fewer bytes than this. -/
def nameLimit : Nat := 4096

/-- The location that some steps from a location lead to; the last one may hold nothing. -/
def walkFrom (tree : FileTree) (at_ : Location) : List String → Except Obstacle Location
  | [] => .ok at_
  | step :: rest =>
    match tree.entryAt at_ with
    | .absent => .error .missing
    | .file _ => .error .notADirectory
    | .directory =>
      if stepLimit < Text.byteLength step then .error .tooLong
      else tree.walkFrom (at_.step step) rest

/-- The location that a name leads to. -/
def walk (tree : FileTree) (name : Location) : Except Obstacle Location :=
  if nameLimit ≤ Text.byteLength name.text then .error .tooLong
  else tree.walkFrom ⟨name.root, []⟩ name.steps

/-- What makes a text no name of any file. -/
def nameFault? (text : String) : Option Fault :=
  match Text.nameRun? text with
  | some run => some (.notEncodable run)
  | none => if text.toList.contains (Char.ofNat 0) then some .nullInName else none

/-- What a name leads to: nothing, where something is missing or in the way. -/
def entry (tree : FileTree) (name : Location) : Except Fault FileEntry :=
  if (nameFault? name.text).isSome then .ok .absent
  else match tree.walk name with
    | .ok at_ => .ok (tree.entryAt at_)
    | .error .tooLong => .error (.nameTooLong name.text)
    | .error _ => .ok .absent

/-! ## Making and writing -/

/-- The tree with one directory made, whose parent has to be there. -/
def makeOne (tree : FileTree) (name : Location) : Except Obstacle FileTree :=
  match tree.walk name with
  | .error obstacle => .error obstacle
  | .ok at_ =>
    match tree.entryAt at_ with
    | .absent => .ok { tree with directories := at_ :: tree.directories }
    | _ => .error .taken

/-- The tree as it is, where an obstacle to making a directory is that it is there. -/
def unlessThere (tree : FileTree) (name : Location) (obstacle : Obstacle) :
    Except Fault FileTree :=
  match tree.walk name with
  | .error _ => .error (obstacle.fault name)
  | .ok at_ =>
    match tree.entryAt at_ with
    | .directory => .ok tree
    | _ => .error (obstacle.fault name)

/-- The tree with a directory made, along with those on the way to it; its steps are given last one
first. -/
def makeSteps (root : String) (tree : FileTree) : List String → Except Fault FileTree
  | [] => .ok tree
  | step :: above =>
    let name : Location := ⟨root, (step :: above).reverse⟩
    match tree.makeOne name with
    | .ok tree => .ok tree
    | .error .missing => do
      let tree ← makeSteps root tree above
      match tree.makeOne name with
      | .ok tree => .ok tree
      | .error obstacle => tree.unlessThere name obstacle
    | .error obstacle => tree.unlessThere name obstacle

/-- The tree with a directory made, along with those on the way to it. -/
def makeDirectory (tree : FileTree) (name : Location) : Except Fault FileTree :=
  match nameFault? name.text with
  | some fault => .error fault
  | none => makeSteps name.root tree name.steps.reverse

/-- Where a file can be written under a name. -/
def writable (tree : FileTree) (name : Location) : Except Fault Location :=
  match nameFault? name.text with
  | some fault => .error fault
  | none =>
    match tree.walk name with
    | .error obstacle => .error (obstacle.fault name)
    | .ok at_ =>
      match tree.entryAt at_ with
      | .directory => .error (.isADirectory name.text)
      | _ => .ok at_

end FileTree

end Patchbay
