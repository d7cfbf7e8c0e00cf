import Patchbay.Json.Value
import Patchbay.Text.Character

/-!
# Reading JSON texts

`Json.read` reads one value and nothing after it but blanks. A reader returns what remains of the
text, and on failure what remained where it stopped; `placeOf` turns that into a place in the text.

Beyond the grammar of JSON the names `NaN`, `Infinity` and `-Infinity` are numbers. A repeated key
keeps its first place and its last value, and half of a surrogate pair may stand alone. `Limits`
bound how deep values lie in each other and how many digits a whole number has.
-/

namespace Patchbay.Json

/-- What remains of a text. -/
abbrev Rest := List Char

/-- Why a text holds no value that is read. -/
inductive Refusal where
  /-- The text is no JSON; with what remained of it. -/
  | malformed (rest : Rest)
  /-- A whole number has so many digits. -/
  | tooManyDigits (count : Nat)
  /-- An array, or else an object, lies in as many others as it may. -/
  | tooDeep (isArray : Bool)

/-- A reader's answer: a result and what remains, or why there is none. -/
abbrev Reading (α : Type) := Except Refusal (α × Rest)

/-- What is read at the most. -/
structure Limits where
  /-- How many arrays and objects may lie in each other, if that is bounded. -/
  depth : Option Nat
  /-- How many digits a whole number may have, if that is bounded. -/
  digits : Option Nat

namespace Limits

/-- No bounds. -/
def none : Limits := ⟨.none, .none⟩

/-- The limits inside an array or object, if there may be one. -/
def inside? (limits : Limits) : Option Limits :=
  match limits.depth with
  | .none => some limits
  | some 0 => .none
  | some (depth + 1) => some { limits with depth := some depth }

/-- Whether a whole number may have so many digits. -/
def admits (limits : Limits) (count : Nat) : Bool := limits.digits.all (count ≤ ·)

@[simp] theorem inside?_none : Limits.none.inside? = some Limits.none := rfl

@[simp] theorem admits_none (count : Nat) : Limits.none.admits count = true := rfl

end Limits

/-- A blank of JSON texts. -/
def isBlank (c : Char) : Bool := c = ' ' || c = '\t' || c = '\n' || c = '\r'

/-- The text after its leading blanks. -/
def skip (rest : Rest) : Rest := rest.dropWhile isBlank

/-! ## Texts -/

/-- The number of four hexadecimal digits. -/
def unit? (a b c d : Char) : Option Nat := do
  let a ← Text.hexValue? a
  let b ← Text.hexValue? b
  let c ← Text.hexValue? c
  let d ← Text.hexValue? d
  return a * 4096 + b * 256 + c * 16 + d

/-- The first half of a surrogate pair. -/
def isHighSurrogate (unit : Nat) : Bool := 0xD800 ≤ unit && unit ≤ 0xDBFF

/-- The second half of a surrogate pair. -/
def isLowSurrogate (unit : Nat) : Bool := 0xDC00 ≤ unit && unit ≤ 0xDFFF

/-- The code point that a letter after a backslash stands for. -/
def letterEscape? (c : Char) : Option Nat :=
  if c = '"' || c = '\\' || c = '/' then some c.toNat
  else if c = 'b' then some 0x08
  else if c = 'f' then some 0x0C
  else if c = 'n' then some 0x0A
  else if c = 'r' then some 0x0D
  else if c = 't' then some 0x09
  else none

/-- One escape, read after its backslash. A code point escape needs a character behind it. -/
def escape (opening : Rest) : Rest → Reading Nat
  | [] => .error (.malformed opening)
  | 'u' :: a :: b :: c :: d :: e :: rest =>
    match unit? a b c d with
    | none => .error (.malformed ('u' :: a :: b :: c :: d :: e :: rest))
    | some first =>
      match isHighSurrogate first, e :: rest with
      | true, '\\' :: 'u' :: a :: b :: c :: d :: e :: rest =>
        match unit? a b c d with
        | none => .error (.malformed ('u' :: a :: b :: c :: d :: e :: rest))
        | some second =>
          if isLowSurrogate second then
            .ok (0x10000 + (first - 0xD800) * 0x400 + (second - 0xDC00), e :: rest)
          else .ok (first, '\\' :: 'u' :: a :: b :: c :: d :: e :: rest)
      | _, rest => .ok (first, rest)
  | 'u' :: rest => .error (.malformed ('u' :: rest))
  | c :: rest =>
    match letterEscape? c with
    | some code => .ok (code, rest)
    | none => .error (.malformed ('\\' :: c :: rest))

/-- An escape takes at least one character. -/
theorem escape_shorter {opening rest rest' : Rest} {code : Nat}
    (h : escape opening rest = .ok (code, rest')) : rest'.length < rest.length := by
  unfold escape at h
  repeat' split at h
  all_goals first
    | contradiction
    | (simp only [Except.ok.injEq, Prod.mk.injEq] at h
       obtain ⟨-, rfl⟩ := h
       simp_all
       try omega)

/-- The text that ends at the next plain double quote; `opening` starts at its first double quote
and `done` holds what has been read, last character first. -/
def textFrom (opening : Rest) (done : List Char) : Rest → Reading String
  | [] => .error (.malformed opening)
  | c :: rest =>
    if c = '"' then .ok (String.ofList done.reverse, rest)
    else if c = '\\' then
      match _h : escape opening rest with
      | .error refusal => .error refusal
      | .ok (code, rest') => textFrom opening ((Text.charsOf code).reverse ++ done) rest'
    else if c.toNat < 0x20 then .error (.malformed (c :: rest))
    else textFrom opening (c :: done) rest
termination_by rest => rest.length
decreasing_by
  · have := escape_shorter _h
    simp only [List.length_cons]
    omega
  · simp

/-! ## Numbers -/

/-- The digits at the front and what follows them. -/
def digitRun (rest : Rest) : List Char × Rest :=
  (rest.takeWhile Text.Numeral.isAsciiDigit, rest.dropWhile Text.Numeral.isAsciiDigit)

/-- The digits behind a point, if a point and a digit come next. -/
def fractionRun (rest : Rest) : Option (List Char × Rest) :=
  match rest with
  | '.' :: tail => if (digitRun tail).1.isEmpty then none else some (digitRun tail)
  | _ => none

/-- The exponent behind its letter, if a complete exponent part comes next. -/
def exponentRun (rest : Rest) : Option (Int × Rest) :=
  let unsigned (negative : Bool) (tail : Rest) : Option (Int × Rest) :=
    if (digitRun tail).1.isEmpty then none
    else
      let size : Int := Text.Numeral.value (digitRun tail).1
      some (if negative then -size else size, (digitRun tail).2)
  match rest with
  | c :: tail =>
    if c = 'e' || c = 'E' then
      match tail with
      | '-' :: tail => unsigned true tail
      | '+' :: tail => unsigned false tail
      | tail => unsigned false tail
    else none
  | [] => none

/-- The digits before the point: a zero stands alone. -/
def wholeRun (rest : Rest) : Option (List Char × Rest) :=
  match rest with
  | '0' :: tail => some (['0'], tail)
  | rest => if (digitRun rest).1.isEmpty then none else some (digitRun rest)

/-- A number; with a fraction or an exponent it is a floating-point number. -/
def number (limits : Limits) (rest : Rest) : Reading Value :=
  let (negative, body) := match rest with
    | '-' :: tail => (true, tail)
    | tail => (false, tail)
  match wholeRun body with
  | none => .error (.malformed rest)
  | some (whole, tail) =>
    match fractionRun tail, exponentRun ((fractionRun tail).elim tail (·.2)) with
    | none, none =>
      if limits.admits whole.length then
        let size : Int := Text.Numeral.value whole
        .ok (.int (if negative then -size else size), tail)
      else .error (.tooManyDigits whole.length)
    | fraction, power =>
      let places := (fraction.elim [] (·.1))
      let tail := (fraction.elim tail (·.2))
      .ok (.float (.ofDecimal negative (Text.Numeral.value (whole ++ places))
        ((power.elim 0 (·.1)) - places.length)), power.elim tail (·.2))

/-! ## Values -/

/-- A value that is neither a text, an array nor an object. -/
def scalar (limits : Limits) (rest : Rest) : Reading Value :=
  match rest with
  | 'n' :: 'u' :: 'l' :: 'l' :: tail => .ok (.null, tail)
  | 't' :: 'r' :: 'u' :: 'e' :: tail => .ok (.bool true, tail)
  | 'f' :: 'a' :: 'l' :: 's' :: 'e' :: tail => .ok (.bool false, tail)
  | 'N' :: 'a' :: 'N' :: tail => .ok (.float .nan, tail)
  | 'I' :: 'n' :: 'f' :: 'i' :: 'n' :: 'i' :: 't' :: 'y' :: tail =>
    .ok (.float (.infinity false), tail)
  | '-' :: 'I' :: 'n' :: 'f' :: 'i' :: 'n' :: 'i' :: 't' :: 'y' :: tail =>
    .ok (.float (.infinity true), tail)
  | rest => number limits rest

mutual

/-- A value without blanks before it. The number bounds the steps still to be made: two for an
opening bracket and one for a comma, so that twice the length of the text is enough. -/
def value (limits : Limits) : Nat → Rest → Reading Value
  | 0, rest => .error (.malformed rest)
  | fuel + 1, rest =>
    match rest with
    | '"' :: tail => (textFrom rest [] tail).map fun (s, tail) => (.str s, tail)
    | '[' :: tail =>
      match limits.inside? with
      | none => .error (.tooDeep true)
      | some inner =>
        match skip tail with
        | ']' :: tail => .ok (.arr [], tail)
        | start => items inner fuel [] start
    | '{' :: tail =>
      match limits.inside? with
      | none => .error (.tooDeep false)
      | some inner =>
        match skip tail with
        | '}' :: tail => .ok (.obj [], tail)
        | start => members inner fuel [] start
    | rest => scalar limits rest

/-- The items up to the closing bracket; `done` holds the earlier ones, last one first. -/
def items (limits : Limits) : Nat → List Value → Rest → Reading Value
  | 0, _, rest => .error (.malformed rest)
  | fuel + 1, done, rest =>
    match value limits fuel rest with
    | .error refusal => .error refusal
    | .ok (v, tail) =>
      match skip tail with
      | ']' :: tail => .ok (.arr (v :: done).reverse, tail)
      | ',' :: tail => items limits fuel (v :: done) (skip tail)
      | other => .error (.malformed other)

/-- The members up to the closing brace; `done` holds the earlier ones. -/
def members (limits : Limits) : Nat → Members → Rest → Reading Value
  | 0, _, rest => .error (.malformed rest)
  | fuel + 1, done, rest =>
    match rest with
    | '"' :: tail =>
      match textFrom rest [] tail with
      | .error refusal => .error refusal
      | .ok (key, tail) =>
        match skip tail with
        | ':' :: tail =>
          match value limits fuel (skip tail) with
          | .error refusal => .error refusal
          | .ok (v, tail) =>
            match skip tail with
            | '}' :: tail => .ok (.obj (done.put key v), tail)
            | ',' :: tail => members limits fuel (done.put key v) (skip tail)
            | other => .error (.malformed other)
        | other => .error (.malformed other)
    | other => .error (.malformed other)

end

/-- The value that a text holds. -/
def readChars (limits : Limits) (text : Rest) : Except Refusal Value :=
  match value limits (2 * text.length + 1) (skip text) with
  | .error refusal => .error refusal
  | .ok (v, tail) => if (skip tail).isEmpty then .ok v else .error (.malformed (skip tail))

/-- The value that a text holds. -/
def read (limits : Limits) (s : String) : Except Refusal Value := readChars limits s.toList

/-- The place in code points of what remains of a text. -/
def placeOf (s : String) (rest : Rest) : Nat :=
  (Text.codes (s.toList.take (s.toList.length - rest.length))).length

end Patchbay.Json
