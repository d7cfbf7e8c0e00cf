import Patchbay.Decimal.Shortest
import Patchbay.Proofs.Decimal.Rounding

/-!
# Shortest digits read back

The shortest digits of a finite number are read as the number, with its sign (`ofDecimal_shortest`):
so are those that are looked for on a grid, and the exact ones that are taken if none are found.
-/

namespace Patchbay

namespace Decimal

/-- Without the zeros at its end, a decimal fraction is read as the same number. -/
theorem nearest_trim (d : Decimal) : d.trim.nearest = d.nearest := by
  fun_induction trim d with
  | case1 d h ih =>
    rw [ih]
    have hdigits : d.digits / 10 * 10 ^ 1 = d.digits := by omega
    have hshift := Binary64.ofDecimal_shift false (d.digits / 10) 1 (d.power + 1)
    rw [hdigits, Nat.cast_one, Int.add_sub_cancel] at hshift
    exact hshift.symm
  | case2 d h => rfl

end Decimal

namespace Binary64

variable {x : Binary64}

/-! ## Parts of numbers -/

theorem magnitude_lt (x : Binary64) : x.magnitude < signUnit := Nat.mod_lt _ (by decide)

theorem toNat_ofMagnitude (negative : Bool) {m : Nat} (hm : m < signUnit) :
    (ofMagnitude negative m).bits.toNat = (if negative then signUnit else 0) + m := by
  have hunit : signUnit = 9223372036854775808 := rfl
  unfold ofMagnitude
  rw [UInt64.toNat_ofNat']
  refine Nat.mod_eq_of_lt ?_
  rw [hunit] at hm ⊢
  split <;> omega

theorem magnitude_ofMagnitude (negative : Bool) {m : Nat} (hm : m < signUnit) :
    (ofMagnitude negative m).magnitude = m := by
  rw [magnitude, toNat_ofMagnitude negative hm]
  cases negative with
  | false => rw [if_neg (by decide), Nat.zero_add, Nat.mod_eq_of_lt hm]
  | true => rw [if_pos rfl, Nat.add_mod_left, Nat.mod_eq_of_lt hm]

theorem negative_ofMagnitude (negative : Bool) {m : Nat} (hm : m < signUnit) :
    (ofMagnitude negative m).negative = negative := by
  rw [Binary64.negative, toNat_ofMagnitude negative hm]
  cases negative with
  | false => exact decide_eq_false (by simpa using hm)
  | true => exact decide_eq_true (Nat.le_add_right _ _)

/-- A number has its sign and its magnitude. -/
theorem ofMagnitude_parts (x : Binary64) : ofMagnitude x.negative x.magnitude = x :=
  eq_of_parts (negative_ofMagnitude _ (magnitude_lt x)) (magnitude_ofMagnitude _ (magnitude_lt x))

theorem roundMagnitude_le (num den : Nat) : roundMagnitude num den ≤ infinityBits := by
  unfold roundMagnitude
  split
  · exact Nat.zero_le _
  · exact Nat.min_le_left _ _

/-! ## Digits on a grid -/

theorem roundDiv_eq_or (num den : Nat) :
    roundDiv num den = num / den ∨ roundDiv num den = num / den + 1 := by
  unfold roundDiv
  split
  · exact .inl rfl
  split
  · exact .inr rfl
  · omega

theorem nearest_of_neighbour {target : Binary64} {power : Int} {num den : Nat} {d : Decimal}
    (h : neighbour? target power num den = some d) : d.nearest = target := by
  unfold neighbour? at h
  dsimp only at h
  split at h
  · next hbelow =>
    rw [← Option.some.inj h]
    split
    · next habove =>
      rcases roundDiv_eq_or num den with hround | hround
      · rw [hround, hbelow]
      · rw [hround, habove]
    · exact hbelow
  split at h
  · next habove => rw [← Option.some.inj h, habove]
  · exact absurd h (by simp)

theorem nearest_of_candidate {count : Nat} {d : Decimal} (h : x.candidate? count = some d) :
    d.nearest = x.abs := by
  unfold candidate? at h
  exact nearest_of_neighbour h

/-! ## Exact digits -/

/-- The value of the bits of a number is that of its fraction. -/
theorem valueOf_magnitude (x : Binary64) :
    valueOf x.magnitude = (x.fraction.1 : ℚ) / x.fraction.2 := by
  have hpos : (x.fraction.2 : ℚ) ≠ 0 := by exact_mod_cast (denominator_pos x).ne'
  have hunits := congrArg (Nat.cast (R := ℚ)) (fraction_eq_units x)
  rw [Nat.cast_mul, Nat.cast_mul, Nat.cast_pow, ← zpow_natCast, Nat.cast_ofNat] at hunits
  rw [valueOf, eq_div_iff hpos, zpow_neg, ← div_eq_mul_inv, div_mul_eq_mul_div, ← hunits]
  exact mul_div_cancel_right₀ _ (zpow_ne_zero _ (by norm_num))

theorem value_exactDecimal (x : Binary64) :
    (x.exactDecimal.digits : ℚ) * 10 ^ x.exactDecimal.power = valueOf x.magnitude := by
  rw [valueOf_magnitude]
  unfold exactDecimal fraction
  split
  · dsimp only
    rw [zpow_zero, mul_one, Nat.cast_one, div_one]
  · next hneg =>
    obtain ⟨k, hk⟩ := Int.eq_ofNat_of_zero_le (Int.neg_nonneg.mpr (le_of_not_ge hneg))
    have hpower : x.exponent = -k := by omega
    have hten : (10 : ℚ) ^ k = 2 ^ k * 5 ^ k := by rw [← mul_pow]; norm_num
    dsimp only
    rw [hk, hpower, Int.toNat_natCast, Nat.pow_eq, Nat.pow_eq, zpow_neg, zpow_natCast, hten]
    push_cast
    field_simp

theorem nearest_exactDecimal (hx : x.isFinite = true) : x.exactDecimal.nearest = x.abs :=
  ofDecimal_of_value false (of_decide_eq_true hx) (value_exactDecimal x)

/-! ## Shortest digits -/

theorem nearest_shortest (hx : x.isFinite = true) : x.shortest.nearest = x.abs := by
  unfold shortest
  split
  · next hzero => rw [abs, hzero, Decimal.nearest, ofDecimal_zero]
  · rw [Decimal.nearest_trim]
    cases hfound : (List.range 17).findSome? fun n => x.candidate? (n + 1) with
    | none => exact nearest_exactDecimal hx
    | some d =>
      obtain ⟨n, _, hcandidate⟩ := List.exists_of_findSome?_eq_some hfound
      exact nearest_of_candidate hcandidate

theorem infinityBits_lt : infinityBits < signUnit := by decide

/-- A number that is read has the sign it is read with, and a magnitude that does not depend on
it. -/
theorem exists_ofDecimal (n : Nat) (power : Int) :
    ∃ m, m ≤ infinityBits ∧ ∀ negative, ofDecimal negative n power = ofMagnitude negative m := by
  by_cases hzero : n = 0 ∨ ((Text.Numeral.digits n).length : Int) + power < -farExponent
  · exact ⟨0, Nat.zero_le _, fun negative => if_pos hzero⟩
  by_cases hfar : farExponent < ((Text.Numeral.digits n).length : Int) + power
  · refine ⟨infinityBits, Nat.le_refl _, fun negative => ?_⟩
    exact (if_neg hzero).trans (if_pos hfar)
  · exact ⟨_, roundMagnitude_le _ _, fun negative => (if_neg hzero).trans (if_neg hfar)⟩

/-- What is read from digits is a number. -/
theorem isNaN_ofDecimal (negative : Bool) (n : Nat) (power : Int) :
    (ofDecimal negative n power).isNaN = false := by
  obtain ⟨m, hm, hread⟩ := exists_ofDecimal n power
  rw [hread, isNaN, magnitude_ofMagnitude _ (hm.trans_lt infinityBits_lt), decide_eq_false_iff_not]
  exact Nat.not_lt_of_le hm

/-- The shortest digits of a finite number are read as the number. -/
theorem ofDecimal_shortest (hx : x.isFinite = true) :
    ofDecimal x.negative x.shortest.digits x.shortest.power = x := by
  obtain ⟨m, hm, hread⟩ := exists_ofDecimal x.shortest.digits x.shortest.power
  have hnearest := congrArg magnitude (nearest_shortest hx)
  rw [Decimal.nearest, hread, abs, magnitude_ofMagnitude _ (hm.trans_lt infinityBits_lt),
    magnitude_ofMagnitude _ (magnitude_lt x)] at hnearest
  rw [hread, hnearest, ofMagnitude_parts]

end Binary64

end Patchbay
