/-!
# Cutting texts

`splitAtChar` cuts a text at every occurrence of a separator, so that joining the parts with the
separator gives the text back (`join_splitAtChar`). `lastSegment` is the last of the parts.

`lines` cuts a text at a line feed, a carriage return (with the line feed that follows it), and the
further breaks of the Unicode standard and the ASCII separators: U+000B, U+000C, U+001C, U+001D,
U+001E, U+0085, U+2028, U+2029. A break at the very end opens no empty last line.
-/

namespace Patchbay.Text

/-! ## At a character -/

/-- The parts between the separators; a text without separator is one part. -/
def splitAtChar (sep : Char) : List Char → List (List Char)
  | [] => [[]]
  | c :: rest =>
    if c = sep then [] :: splitAtChar sep rest
    else match splitAtChar sep rest with
      | [] => [[c]]
      | part :: parts => (c :: part) :: parts

/-- The parts written one after another with the separator between them. -/
def joinWith (sep : Char) : List (List Char) → List Char
  | [] => []
  | [part] => part
  | part :: parts => part ++ sep :: joinWith sep parts

theorem splitAtChar_ne_nil (sep : Char) (cs : List Char) : splitAtChar sep cs ≠ [] := by
  cases cs with
  | nil => simp [splitAtChar]
  | cons c rest =>
    rw [splitAtChar]
    split
    · simp
    · split <;> simp

theorem join_splitAtChar (sep : Char) (cs : List Char) :
    joinWith sep (splitAtChar sep cs) = cs := by
  induction cs with
  | nil => rfl
  | cons c rest ih =>
    obtain ⟨part, parts, hs⟩ := List.exists_cons_of_ne_nil (splitAtChar_ne_nil sep rest)
    rw [hs] at ih
    by_cases h : c = sep
    · simp [splitAtChar, h, hs, joinWith, ih]
    · cases parts with
      | nil => simpa [splitAtChar, h, hs, joinWith] using ih
      | cons next parts => simpa [splitAtChar, h, hs, joinWith] using ih

/-- What stands before the first separator and what follows it, if there is one. -/
def cutAt? (sep : Char) (s : String) : Option (String × String) :=
  match s.toList.dropWhile (· ≠ sep) with
  | [] => none
  | _ :: rest => some (String.ofList (s.toList.takeWhile (· ≠ sep)), String.ofList rest)

/-- What follows the last separator, or the whole text when there is none. -/
def lastSegment (sep : Char) (s : String) : String :=
  String.ofList ((splitAtChar sep s.toList).getLastD [])

/-! ## At line breaks -/

/-- A character that ends a line. -/
def isBreak (c : Char) : Bool :=
  let code := c.toNat
  (0x0A ≤ code && code ≤ 0x0D) || (0x1C ≤ code && code ≤ 0x1E) || code == 0x85
    || code == 0x2028 || code == 0x2029

/-- The lines of the characters that follow `line`, the open line read so far, last character
first. -/
def linesFrom (line : List Char) : List Char → List (List Char)
  | [] => if line.isEmpty then [] else [line.reverse]
  | '\r' :: '\n' :: rest => line.reverse :: linesFrom [] rest
  | c :: rest => if isBreak c then line.reverse :: linesFrom [] rest else linesFrom (c :: line) rest

/-- The lines of a text, without their breaks. -/
def lines (s : String) : List String := (linesFrom [] s.toList).map String.ofList

/-- The characters without one line feed at their end. -/
def dropFinalFeed (cs : List Char) : List Char :=
  if cs.getLast? = some '\n' then cs.dropLast else cs

theorem dropFinalFeed_of_not_mem {cs : List Char} (h : '\n' ∉ cs) : dropFinalFeed cs = cs :=
  if_neg fun hlast => h (List.mem_of_getLast? hlast)

end Patchbay.Text
