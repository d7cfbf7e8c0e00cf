import Patchbay.Text.Utf8

/-!
# Encodings of JSON texts

Bytes that hold a JSON text tell their encoding: by a mark at the start, or else by where the zero
bytes are among the first four, since a JSON text starts with an ASCII character. In the sixteen-bit
and thirty-two-bit encodings a half of a surrogate pair may stand alone.
-/

namespace Patchbay.Text

/-- How bytes hold a text. -/
inductive Encoding where
  | utf8
  | utf16 (bigEndian : Bool)
  | utf32 (bigEndian : Bool)
  deriving DecidableEq

namespace Encoding

/-- The encoding of some bytes without a mark. -/
def unmarked : List UInt8 → Encoding
  | 0 :: 0 :: _ :: _ :: _ => utf32 true
  | 0 :: _ :: _ :: _ :: _ => utf16 true
  | _ :: 0 :: 0 :: 0 :: _ => utf32 false
  | _ :: 0 :: _ :: _ :: _ => utf16 false
  | [0, _] => utf16 true
  | [_, 0] => utf16 false
  | _ => utf8

/-- The encoding of some bytes, and the bytes after the mark. -/
def detect : List UInt8 → Encoding × List UInt8
  | 0x00 :: 0x00 :: 0xFE :: 0xFF :: rest => (utf32 true, rest)
  | 0xFF :: 0xFE :: 0x00 :: 0x00 :: rest => (utf32 false, rest)
  | 0xFE :: 0xFF :: rest => (utf16 true, rest)
  | 0xFF :: 0xFE :: rest => (utf16 false, rest)
  | 0xEF :: 0xBB :: 0xBF :: rest => (utf8, rest)
  | bytes => (unmarked bytes, bytes)

/-- The numbers that pairs of bytes hold. -/
def units16? (bigEndian : Bool) : List UInt8 → Option (List Nat)
  | [] => some []
  | [_] => none
  | a :: b :: rest =>
    (units16? bigEndian rest).map
      ((if bigEndian then a.toNat * 256 + b.toNat else b.toNat * 256 + a.toNat) :: ·)

/-- The code points of sixteen-bit units: a first and a second half that follow each other are one
code point. -/
def joinPairs : List Nat → List Nat
  | [] => []
  | [unit] => [unit]
  | first :: second :: rest =>
    if 0xD800 ≤ first && first ≤ 0xDBFF && 0xDC00 ≤ second && second ≤ 0xDFFF then
      (0x10000 + (first - 0xD800) * 0x400 + (second - 0xDC00)) :: joinPairs rest
    else first :: joinPairs (second :: rest)

/-- The code points that groups of four bytes hold. -/
def codes32? (bigEndian : Bool) : List UInt8 → Option (List Nat)
  | [] => some []
  | a :: b :: c :: d :: rest =>
    let code :=
      if bigEndian then ((a.toNat * 256 + b.toNat) * 256 + c.toNat) * 256 + d.toNat
      else ((d.toNat * 256 + c.toNat) * 256 + b.toNat) * 256 + a.toNat
    if code < bareMark then (codes32? bigEndian rest).map (code :: ·) else none
  | _ => none

/-- The text that some bytes hold in an encoding. -/
def decode? (bytes : List UInt8) : Encoding → Option String
  | utf8 => ofUtf8? ⟨bytes.toArray⟩
  | utf16 bigEndian =>
    (units16? bigEndian bytes).map fun units => String.ofList (ofCodes (joinPairs units))
  | utf32 bigEndian =>
    (codes32? bigEndian bytes).map fun codes => String.ofList (ofCodes codes)

/-- The text that some bytes hold in the encoding that they tell. -/
def read? (bytes : ByteArray) : Option String :=
  let (encoding, rest) := detect bytes.toList
  encoding.decode? rest

end Encoding

end Patchbay.Text
