import Patchbay.Text.CodePoint

/-!
# UTF-8

Texts as bytes. A text that holds half of a surrogate pair has no bytes: `halfRun?` finds where. The
name of a file has bytes even then if each half in it is one of those that stand for a single byte,
U+DC80 to U+DCFF.
-/

namespace Patchbay.Text

/-- A run of halves that cannot be written: the places of the first and the last, and the first. -/
structure HalfRun where
  first : Nat
  last : Nat
  code : Nat

/-- The first run of halves that starts with a barred code point; the codes start at `place`. -/
def halfRunFrom (barred : Nat → Bool) (place : Nat) : List Nat → Option HalfRun
  | [] => none
  | code :: rest =>
    if barred code then some ⟨place, place + (rest.takeWhile isHalf).length, code⟩
    else halfRunFrom barred (place + 1) rest

/-- The first run of halves in a text. -/
def halfRun? (s : String) : Option HalfRun := halfRunFrom isHalf 0 (codes s.toList)

/-- A half that stands for a single byte of a name. -/
def isByteHalf (code : Nat) : Bool := 0xDC80 ≤ code && code ≤ 0xDCFF

/-- The first run of halves in a name that does not start with one that stands for a byte. -/
def nameRun? (s : String) : Option HalfRun :=
  halfRunFrom (fun code => isHalf code && !isByteHalf code) 0 (codes s.toList)

/-- How many bytes a code point takes. -/
def byteCount (code : Nat) : Nat :=
  if code < 0x80 || isByteHalf code then 1
  else if code < 0x800 then 2
  else if code < 0x10000 then 3
  else 4

/-- How many bytes a name takes. -/
def byteLength (s : String) : Nat :=
  (codes s.toList).foldl (fun total code => total + byteCount code) 0

/-- The characters of a text without halves, each standing for itself. -/
def plain? (s : String) : Option String :=
  match halfRun? s with
  | some _ => none
  | none => some (String.ofList ((codes s.toList).map Char.ofNat))

/-- The bytes of a text without halves. -/
def toUtf8? (s : String) : Option ByteArray := (plain? s).map String.toUTF8

/-- The text that some bytes hold. -/
def ofUtf8? (bytes : ByteArray) : Option String :=
  (String.fromUTF8? bytes).map fun s => ofChars s.toList

end Patchbay.Text
