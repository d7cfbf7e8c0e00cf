import Patchbay.Text.Numeral

/-!
# Binary floating-point numbers

A number of 64 bits is kept by its bit pattern: a sign, eleven bits of exponent and fifty-two of
fraction. A finite one is `± mantissa · 2 ^ exponent`, all in exact arithmetic. `ofDecimal` is
the number nearest to a decimal fraction, a tie going to the even mantissa.
-/

namespace Patchbay

/-- A binary floating-point number of 64 bits. -/
structure Binary64 where
  bits : UInt64
  deriving DecidableEq, Inhabited

namespace Binary64

/-! ## The parts of a number -/

/-- The number of fractions that share an exponent. -/
def fractionUnit : Nat := Nat.pow 2 52

/-- The weight of the sign. -/
def signUnit : Nat := Nat.pow 2 63

/-- The bits of the positive infinity; magnitudes above it are not numbers. -/
def infinityBits : Nat := 2047 * fractionUnit

/-- The number with this sign and these bits of magnitude. -/
def ofMagnitude (negative : Bool) (magnitude : Nat) : Binary64 :=
  ⟨UInt64.ofNat ((if negative then signUnit else 0) + magnitude)⟩

/-- The bits without the sign. -/
def magnitude (x : Binary64) : Nat := x.bits.toNat % signUnit

/-- The sign bit. -/
def negative (x : Binary64) : Bool := decide (signUnit ≤ x.bits.toNat)

/-- The one value that stands for "not a number". -/
def nan : Binary64 := ofMagnitude false (infinityBits + Nat.pow 2 51)

/-- The infinity of a sign. -/
def infinity (negative : Bool) : Binary64 := ofMagnitude negative infinityBits

/-- Not a number. -/
def isNaN (x : Binary64) : Bool := infinityBits < x.magnitude

/-- One of the two infinities. -/
def isInfinite (x : Binary64) : Bool := x.magnitude == infinityBits

/-- Neither infinite nor "not a number". -/
def isFinite (x : Binary64) : Bool := x.magnitude < infinityBits

/-- The whole number `m` of a finite magnitude `m · 2 ^ q`. -/
def mantissa (x : Binary64) : Nat :=
  if x.magnitude / fractionUnit = 0 then x.magnitude
  else fractionUnit + x.magnitude % fractionUnit

/-- The exponent `q` of a finite magnitude `m · 2 ^ q`. -/
def exponent (x : Binary64) : Int := (max 1 (x.magnitude / fractionUnit) : Nat) - 1075

/-- A finite magnitude as a fraction, numerator and denominator. -/
def fraction (x : Binary64) : Nat × Nat :=
  if 0 ≤ x.exponent then (x.mantissa * Nat.pow 2 x.exponent.toNat, 1)
  else (x.mantissa, Nat.pow 2 (-x.exponent).toNat)

/-! ## Rounding -/

/-- The quotient rounded to the nearest whole number, a tie to the even one. -/
def roundDiv (num den : Nat) : Nat :=
  if 2 * (num % den) < den then num / den
  else if den < 2 * (num % den) then num / den + 1
  else num / den + num / den % 2

/-- The fraction multiplied by `base ^ power`. -/
def scale (base num den : Nat) (power : Int) : Nat × Nat :=
  if 0 ≤ power then (num * Nat.pow base power.toNat, den) else (num, den * Nat.pow base (-power).toNat)

/-- The greatest `l` with `2 ^ l ≤ num / den`, for a positive fraction. -/
def log2Div (num den : Nat) : Int :=
  let guess : Int := (num.log2 : Int) - den.log2
  let (n, d) := scale 2 num den (-guess)
  if d ≤ n then guess else guess - 1

/-- The bits of the magnitude nearest to a fraction. -/
def roundMagnitude (num den : Nat) : Nat :=
  if num = 0 then 0
  else
    let power := max (log2Div num den - 52) (-1074)
    let (n, d) := scale 2 num den (-power)
    min infinityBits ((power + 1074).toNat * fractionUnit + roundDiv n d)

/-- Decimal exponents of the leading digit beyond this bound need no arithmetic: the number is
infinite or zero. -/
def farExponent : Int := 400

/-- The number nearest to `digits · 10 ^ power`. -/
def ofDecimal (negative : Bool) (digits : Nat) (power : Int) : Binary64 :=
  let size := (Text.Numeral.digits digits).length + power
  if digits = 0 ∨ size < -farExponent then ofMagnitude negative 0
  else if farExponent < size then infinity negative
  else
    let (num, den) := scale 10 digits 1 power
    ofMagnitude negative (roundMagnitude num den)

/-! ## Comparison -/

/-- A finite number as a signed fraction. -/
def signedFraction (x : Binary64) : Int × Nat :=
  ((if x.negative then -1 else 1) * (x.fraction.1 : Int), x.fraction.2)

/-- The integer that equals the number, if there is one. -/
def whole? (x : Binary64) : Option Int :=
  let (num, den) := x.signedFraction
  if x.isFinite && num % den = 0 then some (num / den) else none

/-- Whether a number equals a whole number. -/
def equalsInt (x : Binary64) (n : Int) : Bool :=
  x.isFinite && x.signedFraction.1 == n * x.signedFraction.2

end Patchbay.Binary64
