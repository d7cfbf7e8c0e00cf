import Mathlib.Order.Monotone.Basic
import Mathlib.Tactic.Ring
import Patchbay.Decimal.Binary64

/-!
# Values of floating-point numbers

Of the finite floating-point numbers, only the two zeros have one value
(`eq_or_zero_of_signedFraction`): counted in units of the least positive number, greater bits of
magnitude have a greater value (`units_strictMono`).
-/

namespace Patchbay.Binary64

variable {x y : Binary64}

/-- The value of some bits of magnitude, in units of the least positive number. -/
def units (magnitude : Nat) : Nat :=
  (if magnitude / fractionUnit = 0 then magnitude else fractionUnit + magnitude % fractionUnit)
    * 2 ^ (max 1 (magnitude / fractionUnit) - 1)

theorem units_strictMono : StrictMono units := by
  refine strictMono_nat_of_lt_succ fun m => ?_
  have hunit : fractionUnit = 4503599627370496 := rfl
  have hpos (n : Nat) : 0 < 2 ^ n := Nat.two_pow_pos n
  unfold units
  rw [hunit]
  by_cases hsame : (m + 1) / 4503599627370496 = m / 4503599627370496
  · rw [hsame]
    refine Nat.mul_lt_mul_of_pos_right ?_ (hpos _)
    split
    · omega
    · omega
  · obtain ⟨q, hq⟩ : ∃ q, m / 4503599627370496 = q := ⟨_, rfl⟩
    have hnext : (m + 1) / 4503599627370496 = q + 1 := by omega
    have hlow : (m + 1) % 4503599627370496 = 0 := by omega
    rw [hq, hnext, hlow, if_neg (Nat.succ_ne_zero q), Nat.max_eq_right (Nat.le_add_left 1 q),
      Nat.add_sub_cancel, Nat.add_zero]
    cases q with
    | zero =>
      rw [if_pos rfl, Nat.max_eq_left (Nat.zero_le 1)]
      omega
    | succ q =>
      rw [if_neg (Nat.succ_ne_zero q), Nat.max_eq_right (Nat.le_add_left 1 q), Nat.add_sub_cancel]
      have hhigh : 4503599627370496 + m % 4503599627370496 < 4503599627370496 * 2 := by omega
      calc (4503599627370496 + m % 4503599627370496) * 2 ^ q
          < 4503599627370496 * 2 * 2 ^ q := Nat.mul_lt_mul_of_pos_right hhigh (hpos q)
        _ = 4503599627370496 * 2 ^ (q + 1) := by rw [Nat.pow_succ', Nat.mul_assoc]

theorem units_zero : units 0 = 0 := by
  unfold units
  rw [Nat.zero_div, if_pos rfl, Nat.zero_mul]

theorem denominator_pos (x : Binary64) : 0 < x.fraction.2 := by
  unfold fraction
  split
  · exact Nat.one_pos
  · exact Nat.two_pow_pos _

/-- A finite magnitude counts the units of its bits. -/
theorem fraction_eq_units (x : Binary64) :
    x.fraction.1 * 2 ^ 1074 = units x.magnitude * x.fraction.2 := by
  have hmantissa : units x.magnitude = x.mantissa * 2 ^ (max 1 (x.magnitude / fractionUnit) - 1) :=
    rfl
  rw [hmantissa]
  unfold fraction
  obtain ⟨e, he⟩ : ∃ e, max 1 (x.magnitude / fractionUnit) = e := ⟨_, rfl⟩
  have hexponent : x.exponent = (e : Int) - 1075 := by rw [← he]; rfl
  have he1 : 1 ≤ e := he ▸ Nat.le_max_left _ _
  rw [he]
  split
  · next hge =>
    have hpower : x.exponent.toNat + 1074 = e - 1 := by omega
    dsimp only
    rw [Nat.mul_one, Nat.mul_assoc, ← hpower, Nat.pow_add]
    rfl
  · next hlt =>
    have hpower : e - 1 + (-x.exponent).toNat = 1074 := by omega
    dsimp only
    rw [Nat.mul_assoc, ← hpower, Nat.pow_add]
    rfl

/-- Magnitudes of one value have the same bits. -/
theorem magnitude_eq_of_fraction (h : x.fraction.1 * y.fraction.2 = y.fraction.1 * x.fraction.2) :
    x.magnitude = y.magnitude := by
  have hx := fraction_eq_units x
  have hy := fraction_eq_units y
  generalize (2 : Nat) ^ 1074 = scale at hx hy
  refine units_strictMono.injective (Nat.eq_of_mul_eq_mul_right
    (Nat.mul_pos (denominator_pos x) (denominator_pos y)) ?_)
  calc units x.magnitude * (x.fraction.2 * y.fraction.2)
      = units x.magnitude * x.fraction.2 * y.fraction.2 := by ring
    _ = x.fraction.1 * y.fraction.2 * scale := by rw [← hx]; ring
    _ = y.fraction.1 * x.fraction.2 * scale := by rw [h]
    _ = units y.magnitude * y.fraction.2 * x.fraction.2 := by rw [← hy]; ring
    _ = units y.magnitude * (x.fraction.2 * y.fraction.2) := by ring

theorem magnitude_eq_zero (h : x.fraction.1 = 0) : x.magnitude = 0 := by
  have hx := fraction_eq_units x
  rw [h, Nat.zero_mul] at hx
  have hunits : units x.magnitude = units 0 := by
    rw [units_zero]
    exact (Nat.mul_eq_zero.mp hx.symm).resolve_right (denominator_pos x).ne'
  exact units_strictMono.injective hunits

/-- A number is given by its sign and the bits of its magnitude. -/
theorem eq_of_parts (hsign : x.negative = y.negative) (h : x.magnitude = y.magnitude) : x = y := by
  have hunit : signUnit = 9223372036854775808 := rfl
  have hx : x.bits.toNat < 18446744073709551616 := x.bits.toNat_lt
  have hy : y.bits.toNat < 18446744073709551616 := y.bits.toNat_lt
  unfold negative at hsign
  unfold magnitude at h
  rw [decide_eq_decide, hunit] at hsign
  rw [hunit] at h
  have hbits : x.bits.toNat = y.bits.toNat := by omega
  cases x
  cases y
  rw [mk.injEq]
  exact UInt64.toNat_inj.mp hbits

/-- Only the two zeros are different numbers of one value. -/
theorem eq_or_zero_of_signedFraction
    (h : x.signedFraction.1 * y.signedFraction.2 = y.signedFraction.1 * x.signedFraction.2) :
    x = y ∨ x.magnitude = 0 ∧ y.magnitude = 0 := by
  have hx := denominator_pos x
  have hy := denominator_pos y
  unfold signedFraction at h
  dsimp only at h
  have hsame (hfraction : x.fraction.1 * y.fraction.2 = y.fraction.1 * x.fraction.2)
      (hsign : x.negative = y.negative) : x = y :=
    eq_of_parts hsign (magnitude_eq_of_fraction hfraction)
  have hzero (hfraction : ((x.fraction.1 * y.fraction.2 : Nat) : Int) =
      -((y.fraction.1 * x.fraction.2 : Nat) : Int)) : x.magnitude = 0 ∧ y.magnitude = 0 := by
    obtain ⟨n, hn⟩ : ∃ n, x.fraction.1 * y.fraction.2 = n := ⟨_, rfl⟩
    obtain ⟨m, hm⟩ : ∃ m, y.fraction.1 * x.fraction.2 = m := ⟨_, rfl⟩
    rw [hn, hm] at hfraction
    obtain ⟨rfl, rfl⟩ : n = 0 ∧ m = 0 := by omega
    exact ⟨magnitude_eq_zero ((Nat.mul_eq_zero.mp hn).resolve_right hy.ne'),
      magnitude_eq_zero ((Nat.mul_eq_zero.mp hm).resolve_right hx.ne')⟩
  cases hnx : x.negative with
  | true =>
    cases hny : y.negative with
    | true =>
      simp only [hnx, hny, if_true, neg_mul, one_mul, neg_inj] at h
      exact .inl (hsame (mod_cast h) (hnx.trans hny.symm))
    | false =>
      simp only [hnx, hny, if_true, Bool.false_eq_true, if_false, neg_mul, one_mul] at h
      exact .inr (hzero (by rw [Int.natCast_mul, Int.natCast_mul, ← h, neg_neg]))
  | false =>
    cases hny : y.negative with
    | true =>
      simp only [hnx, hny, if_true, Bool.false_eq_true, if_false, neg_mul, one_mul] at h
      exact .inr (hzero (by rw [Int.natCast_mul, Int.natCast_mul, h]))
    | false =>
      simp only [hnx, hny, Bool.false_eq_true, if_false, one_mul] at h
      exact .inl (hsame (mod_cast h) (hnx.trans hny.symm))

end Patchbay.Binary64
