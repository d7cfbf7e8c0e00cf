import Patchbay.Json.Value
import Patchbay.Text.Character

/-!
# JSON texts

A value written as JSON in a style: on one line or with one item to a line at a given indentation,
in ASCII characters only or with all characters as they are, with or without blanks after commas
and colons. Characters that are escaped beyond U+FFFF are escaped as a surrogate pair. An empty
array or object takes no line of its own.
-/

namespace Patchbay.Json

/-- Numbers in JSON texts: no exponent part from `1e-4` up to below `1e16`. -/
def numberLayout : Layout := ⟨-4, 16, "NaN", "Infinity"⟩

/-- How a value is written. -/
structure Style where
  /-- So many spaces to a level, each item on a line of its own; or all on one line. -/
  indent : Option Nat
  /-- Whether all characters but the printing ASCII ones are escaped. -/
  asciiOnly : Bool
  /-- What stands between two items on one line. -/
  comma : List Char
  /-- What stands between a key and its value. -/
  colon : List Char

namespace Style

/-- Texts to be read: blanks after commas and colons. -/
def spaced (indent : Option Nat) : Style := ⟨indent, true, [',', ' '], [':', ' ']⟩

/-- Texts to be sent: no blanks, and characters as they are. -/
def compact : Style := ⟨none, false, [','], [':']⟩

end Style

/-- The escape of a sixteen-bit unit. -/
def unitEscape (unit : Nat) : List Char := '\\' :: 'u' :: Text.hexDigits 4 unit

/-- The escape of a code point; a mark that stands alone has none. -/
def codeEscape (code : Nat) : List Char :=
  if code < 0x10000 then unitEscape code
  else if code = Text.bareMark then Text.charsOf code
  else
    unitEscape (0xD800 + (code - 0x10000) / 0x400)
      ++ unitEscape (0xDC00 + (code - 0x10000) % 0x400)

/-- A code point as it stands inside a JSON text value. -/
def codeChars (asciiOnly : Bool) (code : Nat) : List Char :=
  let c := Char.ofNat code
  if c = '"' then ['\\', '"']
  else if c = '\\' then ['\\', '\\']
  else if c = '\n' then ['\\', 'n']
  else if c = '\r' then ['\\', 'r']
  else if c = '\t' then ['\\', 't']
  else if code = 0x08 then ['\\', 'b']
  else if code = 0x0C then ['\\', 'f']
  else if 0x20 ≤ code ∧ code < 0x7F then [c]
  else if !asciiOnly && 0x7F ≤ code then Text.charsOf code
  else codeEscape code

/-- A text between its double quotes. -/
def quote (style : Style) (s : String) : List Char :=
  '"' :: (Text.codes s.toList).flatMap (codeChars style.asciiOnly) ++ ['"']

/-- What starts an item: a line of its own at the depth of the item, if lines are broken. -/
def lineStart (style : Style) (depth : Nat) : List Char :=
  match style.indent with
  | none => []
  | some width => '\n' :: List.replicate (width * depth) ' '

/-- What stands between two items. -/
def separator (style : Style) (depth : Nat) : List Char :=
  match style.indent with
  | none => style.comma
  | some _ => ',' :: lineStart style depth

mutual

/-- A value, with the items of an array or object at `depth + 1`. -/
def write (style : Style) (depth : Nat) : Value → List Char
  | .null => ['n', 'u', 'l', 'l']
  | .bool true => ['t', 'r', 'u', 'e']
  | .bool false => ['f', 'a', 'l', 's', 'e']
  | .int n => (Text.Numeral.intText n).toList
  | .float x => (numberLayout.text x).toList
  | .str s => quote style s
  | .arr [] => ['[', ']']
  | .arr (v :: rest) =>
    '[' :: lineStart style (depth + 1) ++ write style (depth + 1) v
      ++ writeItems style (depth + 1) rest ++ lineStart style depth ++ [']']
  | .obj [] => ['{', '}']
  | .obj ((k, v) :: rest) =>
    '{' :: lineStart style (depth + 1) ++ quote style k ++ style.colon
      ++ write style (depth + 1) v ++ writeMembers style (depth + 1) rest
      ++ lineStart style depth ++ ['}']

/-- The items after the first. -/
def writeItems (style : Style) (depth : Nat) : List Value → List Char
  | [] => []
  | v :: rest => separator style depth ++ write style depth v ++ writeItems style depth rest

/-- The members after the first. -/
def writeMembers (style : Style) (depth : Nat) : List (String × Value) → List Char
  | [] => []
  | (k, v) :: rest =>
    separator style depth ++ quote style k ++ style.colon ++ write style depth v
      ++ writeMembers style depth rest

end

/-- The JSON text of a value in a style. -/
def renderIn (style : Style) (v : Value) : String := String.ofList (write style 0 v)

/-- The JSON text of a value; `indent` breaks it into lines, that many spaces to a level. -/
def render (indent : Option Nat) (v : Value) : String := renderIn (.spaced indent) v

end Patchbay.Json
