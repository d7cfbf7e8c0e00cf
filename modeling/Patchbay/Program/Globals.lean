import Patchbay.Label.Table
import Patchbay.Text.Character

/-!
# Constants in implementation texts

An implementation text may name constants by placeholders: two opening braces, a name, two closing
braces, with blanks around the name. One pass from left to right puts the constants in; what it
puts in is not looked at again, and a placeholder of an unknown name stays as it is.
-/

namespace Patchbay.Globals

/-- A letter, digit or underscore, of ASCII. -/
def isNameChar (c : Char) : Bool := c.isAlphanum || c = '_'

/-- The name of the placeholder that some characters start with, and what follows it. A name does
not start with a digit. -/
def placeholder? : List Char → Option (List Char × List Char)
  | '{' :: '{' :: body =>
    let start := body.dropWhile Text.isBlank
    match start.takeWhile isNameChar, (start.dropWhile isNameChar).dropWhile Text.isBlank with
    | c :: name, '}' :: '}' :: rest => if c.isDigit then none else some (c :: name, rest)
    | _, _ => none
  | _ => none

theorem length_of_placeholder? {cs name rest : List Char}
    (h : placeholder? cs = some (name, rest)) : rest.length < cs.length := by
  unfold placeholder? at h
  split at h
  · rename_i body
    dsimp only at h
    split at h
    · rename_i c tail after _ hafter
      split at h
      · exact absurd h (by simp)
      · injection h with h
        injection h with _ h
        subst h
        have h1 := congrArg List.length hafter
        have h2 := (((body.dropWhile Text.isBlank).dropWhile isNameChar).dropWhile_suffix
          Text.isBlank).length_le
        have h3 := ((body.dropWhile Text.isBlank).dropWhile_suffix isNameChar).length_le
        have h4 := (body.dropWhile_suffix Text.isBlank).length_le
        simp only [List.length_cons] at h1 ⊢
        omega
    · exact absurd h (by simp)
  · exact absurd h (by simp)

/-- The characters with the constants put in. -/
def spliceChars (globals : Table Value) (cs : List Char) : List Char :=
  match _h : placeholder? cs with
  | some (name, rest) =>
    (match globals.get? (.text (String.ofList name)) with
      | some value => value.display.toList
      | none => cs.take (cs.length - rest.length)) ++ spliceChars globals rest
  | none =>
    match cs with
    | [] => []
    | c :: rest => c :: spliceChars globals rest
termination_by cs.length
decreasing_by
  · exact length_of_placeholder? _h
  · simp

/-- The text with the constants put in. -/
def splice (globals : Table Value) (source : String) : String :=
  String.ofList (spliceChars globals source.toList)

end Patchbay.Globals
