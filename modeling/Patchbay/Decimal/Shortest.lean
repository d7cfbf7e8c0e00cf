import Patchbay.Decimal.Binary64

/-!
# Shortest decimal texts

The decimal text of a binary number: the fewest digits that read back as the number, and of those
the nearest to it, a tie going to the even digit. `candidate?` looks for them on the grid of a
given number of digits, `shortest` takes the first grid that has one.

A `Layout` says how the digits are written: up to which exponents without an exponent part, and
what the numbers without digits are called.
-/

namespace Patchbay

/-- A decimal fraction `digits · 10 ^ power`. -/
structure Decimal where
  digits : Nat
  power : Int
  deriving DecidableEq, Inhabited

namespace Decimal

/-- The magnitude nearest to the fraction. -/
def nearest (d : Decimal) : Binary64 := .ofDecimal false d.digits d.power

/-- The same fraction without zeros at its end. -/
def trim (d : Decimal) : Decimal :=
  if d.digits ≠ 0 ∧ d.digits % 10 = 0 then trim ⟨d.digits / 10, d.power + 1⟩ else d
termination_by d.digits
decreasing_by omega

end Decimal

namespace Binary64

/-- The magnitude of a number, its sign dropped. -/
def abs (x : Binary64) : Binary64 := ofMagnitude false x.magnitude

/-- The number `k` of digits before the point: `10 ^ (k - 1) ≤ |x| < 10 ^ k` for a finite `x`
other than zero. -/
def pointPlace (x : Binary64) : Int :=
  let (num, den) := x.fraction
  (Text.Numeral.digits (num * Nat.pow 10 400 / den)).length - 400

/-- The nearer of the two neighbours of a fraction on the grid of a power of ten, or the one of them
that reads back as a given magnitude. -/
def neighbour? (target : Binary64) (power : Int) (num den : Nat) : Option Decimal :=
  let below : Decimal := ⟨num / den, power⟩
  let above : Decimal := ⟨num / den + 1, power⟩
  if below.nearest = target then
    some (if above.nearest = target then ⟨roundDiv num den, power⟩ else below)
  else if above.nearest = target then some above
  else none

/-- The decimal with so many digits that reads back as the magnitude of `x`, if there is one. -/
def candidate? (x : Binary64) (digitCount : Nat) : Option Decimal :=
  let power := x.pointPlace - digitCount
  let scaled := scale 10 x.fraction.1 x.fraction.2 (-power)
  neighbour? x.abs power scaled.1 scaled.2

/-- The exact decimal value of a finite magnitude. -/
def exactDecimal (x : Binary64) : Decimal :=
  if 0 ≤ x.exponent then ⟨x.mantissa * Nat.pow 2 x.exponent.toNat, 0⟩
  else ⟨x.mantissa * Nat.pow 5 (-x.exponent).toNat, x.exponent⟩

/-- The shortest decimal that reads back as the magnitude of a finite `x`; seventeen digits
always suffice. -/
def shortest (x : Binary64) : Decimal :=
  if x.magnitude = 0 then ⟨0, 0⟩
  else (((List.range 17).findSome? fun n => x.candidate? (n + 1)).getD x.exactDecimal).trim

end Binary64

/-! ## Layout -/

/-- How decimal digits are written out. -/
structure Layout where
  /-- The least exponent of the leading digit that is written without an exponent part. -/
  lowest : Int
  /-- The least exponent above it that needs an exponent part again. -/
  highest : Int
  /-- The text of "not a number". -/
  nanText : String
  /-- The text of the positive infinity. -/
  infinityText : String

namespace Layout

/-- Digits `d₁d₂…` with the point after the first `place` of them; zeros fill the gaps, and a
whole number keeps one zero behind the point. -/
def positional (ds : List Char) (place : Int) : List Char :=
  if place ≤ 0 then '0' :: '.' :: List.replicate (-place).toNat '0' ++ ds
  else if (ds.length : Int) ≤ place then
    ds ++ List.replicate (place.toNat - ds.length) '0' ++ ['.', '0']
  else ds.take place.toNat ++ '.' :: ds.drop place.toNat

/-- The exponent part: a sign always, and at least two digits. -/
def exponentPart (e : Int) : List Char :=
  let ds := Text.Numeral.digits e.natAbs
  'e' :: (if e < 0 then '-' else '+') :: (if ds.length < 2 then '0' :: ds else ds)

/-- Digits `d₁.d₂…` with an exponent part. -/
def scientific (ds : List Char) (e : Int) : List Char :=
  (match ds with
    | [] => []
    | [d] => [d]
    | d :: rest => d :: '.' :: rest) ++ exponentPart e

/-- The text of a magnitude with these digits. -/
def magnitude (layout : Layout) (d : Decimal) : List Char :=
  let ds := Text.Numeral.digits d.digits
  let e := ds.length + d.power - 1
  if layout.lowest ≤ e ∧ e < layout.highest then positional ds (e + 1) else scientific ds e

/-- The text of a number. -/
def text (layout : Layout) (x : Binary64) : String :=
  if x.isNaN then layout.nanText
  else
    let body := if x.isInfinite then layout.infinityText.toList else layout.magnitude x.shortest
    String.ofList (if x.negative then '-' :: body else body)

end Patchbay.Layout
