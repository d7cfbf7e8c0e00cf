import Patchbay.Text.CodePoint
import Patchbay.Text.Split

/-!
# Names in programs

The name that a node type has in a program: the parts between its slashes are joined by two
underscores, and every character that is not an ASCII letter, digit or underscore becomes an
underscore. A name does not start with a digit.
-/

namespace Patchbay.Text

/-- A code point as it stands in a name. -/
def nameChar (code : Nat) : Char :=
  let c := Char.ofNat code
  if c.isAlphanum || c = '_' then c else '_'

/-- The parts of a name with two underscores between any two. -/
def joinName : List (List Char) → List Char
  | [] => []
  | [part] => part
  | part :: parts => part ++ '_' :: '_' :: joinName parts

/-- The characters of the name of a node type. -/
def nameChars (type : List Char) : List Char :=
  let name := joinName ((splitAtChar '/' type).map fun part => (codes part).map nameChar)
  match name with
  | c :: _ => if c.isDigit then '_' :: name else name
  | [] => []

/-- The name of a node type in a program. -/
def programName (type : String) : String := String.ofList (nameChars type.toList)

end Patchbay.Text
