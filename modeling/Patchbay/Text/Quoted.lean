import Patchbay.Text.Character
import Patchbay.Text.CodePoint
import Patchbay.Text.Printable

/-!
# Quoted texts

How a message shows a text among other values: between apostrophes, or between double quotes when
the text holds apostrophes and no double quote. The mark and the backslash are written after a
backslash, a line feed, carriage return and tab by their letters, and every other character that
does not print by its code point in hexadecimal digits.
-/

namespace Patchbay.Text

/-- The character U+0027. -/
def apostrophe : Char := Char.ofNat 0x27

/-- The mark put around a text. -/
def quoteMark (cs : List Char) : Char :=
  if cs.contains apostrophe && !cs.contains '"' then '"' else apostrophe

/-- The escape of a code point that does not print. -/
def codeEscape (code : Nat) : List Char :=
  if code < 0x100 then '\\' :: 'x' :: hexDigits 2 code
  else if code < 0x10000 then '\\' :: 'u' :: hexDigits 4 code
  else '\\' :: 'U' :: hexDigits 8 code

/-- A code point as it stands between the marks. Half of a surrogate pair does not print. -/
def quoteCode (mark : Char) (code : Nat) : List Char :=
  let c := Char.ofNat code
  if c = mark || c = '\\' then ['\\', c]
  else if c = '\n' then ['\\', 'n']
  else if c = '\r' then ['\\', 'r']
  else if c = '\t' then ['\\', 't']
  else if !isHalf code && isPrintable c then [c]
  else codeEscape code

/-- The text between its marks. -/
def quoted (s : String) : String :=
  let mark := quoteMark s.toList
  String.ofList (mark :: (codes s.toList).flatMap (quoteCode mark) ++ [mark])

end Patchbay.Text
