import Mathlib.Data.Int.Log
import Mathlib.Data.Rat.Floor
import Mathlib.Tactic.FieldSimp
import Patchbay.Proofs.Decimal.Binary64
import Patchbay.Proofs.Text.Numeral

/-!
# Rounding

Rounding looks at the value of a fraction only (`roundMagnitude_congr`), and leaves a value alone
that a finite number has (`roundMagnitude_of_value`). So a decimal fraction may be written with more
zeros (`ofDecimal_shift`), and is read as the number whose value it is (`ofDecimal_of_value`).
-/

namespace Patchbay

namespace Binary64

variable {num den num' den' : Nat}

/-! ## Scaling -/

theorem scale_value {base : Nat} (hbase : 0 < base) (num den : Nat) (power : Int) :
    ((scale base num den power).1 : ℚ) / (scale base num den power).2 =
      num / den * (base : ℚ) ^ power := by
  unfold scale
  split
  · next hpower =>
    obtain ⟨n, rfl⟩ := Int.eq_ofNat_of_zero_le hpower
    dsimp only
    rw [Int.toNat_natCast, Nat.pow_eq, Nat.cast_mul, Nat.cast_pow, zpow_natCast]
    ring
  · next hpower =>
    obtain ⟨n, hn⟩ := Int.eq_ofNat_of_zero_le (Int.neg_nonneg.mpr (le_of_not_ge hpower))
    obtain rfl : power = -n := by omega
    dsimp only
    rw [neg_neg, Int.toNat_natCast, Nat.pow_eq, Nat.cast_mul, Nat.cast_pow, zpow_neg, zpow_natCast]
    field_simp

theorem scale_pos {base : Nat} (hbase : 0 < base) (hden : 0 < den) (num : Nat) (power : Int) :
    0 < (scale base num den power).2 := by
  unfold scale
  split
  · exact hden
  · exact Nat.mul_pos hden (Nat.pow_pos hbase)

/-! ## The binary logarithm -/

theorem log_eq {v : ℚ} {l : Int} (hlow : (2 : ℚ) ^ l ≤ v) (hhigh : v < (2 : ℚ) ^ (l + 1)) :
    Int.log 2 v = l := by
  have hpos : 0 < v := lt_of_lt_of_le (zpow_pos (by norm_num) l) hlow
  have hle : l ≤ Int.log 2 v := (Int.zpow_le_iff_le_log (b := 2) (by norm_num) hpos).mp hlow
  have hlt : Int.log 2 v < l + 1 := (Int.lt_zpow_iff_log_lt (b := 2) (by norm_num) hpos).mp hhigh
  omega

/-- The lengths of both parts place a fraction between two powers of two. -/
theorem quotient_bounds (hnum : 0 < num) (hden : 0 < den) :
    (2 : ℚ) ^ ((num.log2 : Int) - den.log2 - 1) ≤ num / den ∧
      (num : ℚ) / den < 2 ^ ((num.log2 : Int) - den.log2 + 1) := by
  have hd : (0 : ℚ) < den := by exact_mod_cast hden
  have hpower : ∀ n : Int, (0 : ℚ) < 2 ^ n := zpow_pos (by norm_num)
  have hnumlow : (2 : ℚ) ^ num.log2 ≤ num := by exact_mod_cast Nat.log2_self_le hnum.ne'
  have hnumhigh : (num : ℚ) < 2 ^ (num.log2 + 1) := by exact_mod_cast Nat.lt_log2_self
  have hdenlow : (2 : ℚ) ^ den.log2 ≤ den := by exact_mod_cast Nat.log2_self_le hden.ne'
  have hdenhigh : (den : ℚ) < 2 ^ (den.log2 + 1) := by exact_mod_cast Nat.lt_log2_self
  constructor
  · rw [le_div_iff₀ hd]
    calc (2 : ℚ) ^ ((num.log2 : Int) - den.log2 - 1) * den
        ≤ 2 ^ ((num.log2 : Int) - den.log2 - 1) * 2 ^ (den.log2 + 1) :=
          mul_le_mul_of_nonneg_left hdenhigh.le (hpower _).le
      _ = 2 ^ num.log2 := by
        rw [← zpow_natCast, ← zpow_natCast, ← zpow_add₀ (by norm_num)]
        congr 1
        push_cast
        ring
      _ ≤ num := hnumlow
  · rw [div_lt_iff₀ hd]
    calc (num : ℚ) < 2 ^ (num.log2 + 1) := hnumhigh
      _ = 2 ^ ((num.log2 : Int) - den.log2 + 1) * 2 ^ den.log2 := by
        rw [← zpow_natCast, ← zpow_natCast, ← zpow_add₀ (by norm_num)]
        congr 1
        push_cast
        ring
      _ ≤ 2 ^ ((num.log2 : Int) - den.log2 + 1) * den :=
        mul_le_mul_of_nonneg_left hdenlow (hpower _).le

theorem log2Div_eq (hnum : 0 < num) (hden : 0 < den) :
    log2Div num den = Int.log 2 ((num : ℚ) / den) := by
  obtain ⟨hlow, hhigh⟩ := quotient_bounds hnum hden
  unfold log2Div
  dsimp only
  generalize (num.log2 : Int) - den.log2 = guess at hlow hhigh ⊢
  have hscale := scale_value (by decide : 0 < 2) num den (-guess)
  have hpos := scale_pos (by decide : 0 < 2) hden num (-guess)
  generalize scale 2 num den (-guess) = scaled at hscale hpos
  obtain ⟨n, d⟩ := scaled
  have hd : (0 : ℚ) < d := by exact_mod_cast hpos
  -- The guess is too high by one just where the fraction is below its power of two.
  have hguess : d ≤ n ↔ (2 : ℚ) ^ guess ≤ num / den := by
    have hone : d ≤ n ↔ (1 : ℚ) ≤ n / d := by
      rw [le_div_iff₀ hd, one_mul]
      exact Nat.cast_le.symm
    rw [hone, hscale, Nat.cast_ofNat, zpow_neg,
      le_mul_inv_iff₀ (zpow_pos (by norm_num) _), one_mul]
  split
  · next h => exact (log_eq (hguess.mp h) hhigh).symm
  · next h =>
    refine (log_eq hlow ?_).symm
    rw [sub_add_cancel]
    exact not_le.mp (mt hguess.mpr h)

/-! ## Quotients -/

theorem roundDiv_mul (hden : 0 < den) (n : Nat) : roundDiv (n * den) den = n := by
  rw [roundDiv, Nat.mul_mod_left, Nat.mul_div_cancel _ hden, if_pos (by simpa using hden)]

theorem roundDiv_scale {k : Nat} (hk : 0 < k) (num den : Nat) :
    roundDiv (num * k) (den * k) = roundDiv num den := by
  unfold roundDiv
  rw [Nat.mul_mod_mul_right, Nat.mul_div_mul_right _ _ hk, ← Nat.mul_assoc]
  simp only [Nat.mul_lt_mul_right hk]

theorem roundDiv_congr (hden : 0 < den) (hden' : 0 < den')
    (h : (num : ℚ) / den = (num' : ℚ) / den') : roundDiv num den = roundDiv num' den' := by
  have hd : (den : ℚ) ≠ 0 := by exact_mod_cast hden.ne'
  have hd' : (den' : ℚ) ≠ 0 := by exact_mod_cast hden'.ne'
  have hcross : num * den' = num' * den := by
    rw [div_eq_div_iff hd hd'] at h
    exact_mod_cast h
  rw [← roundDiv_scale hden' num den, ← roundDiv_scale hden num' den', hcross, Nat.mul_comm den]

/-! ## Magnitudes -/

/-- Rounding looks at the value of a fraction only. -/
theorem roundMagnitude_congr (hden : 0 < den) (hden' : 0 < den')
    (h : (num : ℚ) / den = (num' : ℚ) / den') :
    roundMagnitude num den = roundMagnitude num' den' := by
  have hd : (den : ℚ) ≠ 0 := by exact_mod_cast hden.ne'
  have hd' : (den' : ℚ) ≠ 0 := by exact_mod_cast hden'.ne'
  have hzero : num = 0 ↔ num' = 0 := by
    have hsame := congrArg (· = 0) h
    simpa [div_eq_zero_iff, hd, hd'] using hsame
  unfold roundMagnitude
  by_cases hnum : num = 0
  · rw [if_pos hnum, if_pos (hzero.mp hnum)]
  · have hnum' := mt hzero.mpr hnum
    rw [if_neg hnum, if_neg hnum', log2Div_eq (Nat.pos_of_ne_zero hnum) hden,
      log2Div_eq (Nat.pos_of_ne_zero hnum') hden', h]
    dsimp only
    congr 2
    refine roundDiv_congr (scale_pos (by decide) hden _ _) (scale_pos (by decide) hden' _ _) ?_
    rw [scale_value (by decide), scale_value (by decide), h]

/-- The value of some bits of magnitude. -/
def valueOf (magnitude : Nat) : ℚ := units magnitude * 2 ^ (-1074 : Int)

/-- The mantissa of some bits of magnitude. -/
def mantissaOf (magnitude : Nat) : Nat :=
  if magnitude / fractionUnit = 0 then magnitude else fractionUnit + magnitude % fractionUnit

theorem valueOf_eq (m : Nat) :
    valueOf m = mantissaOf m * (2 : ℚ) ^ ((max 1 (m / fractionUnit) : Nat) - 1075 : Int) := by
  obtain ⟨e, he⟩ : ∃ e, max 1 (m / fractionUnit) = e := ⟨_, rfl⟩
  have hunits : units m = mantissaOf m * 2 ^ (e - 1) := by rw [← he]; rfl
  have he1 : 1 ≤ e := he ▸ Nat.le_max_left _ _
  have hpower : ((e : Int) - 1075) = (e - 1 : Nat) + (-1074) := by omega
  rw [valueOf, hunits, he, hpower, zpow_add₀ (by norm_num), zpow_natCast, Nat.cast_mul,
    Nat.cast_pow, Nat.cast_ofNat, mul_assoc]

/-- A finite number has fewer than fifty-four binary digits, and just as many unless its exponent is
the least one. -/
theorem mantissaOf_bounds {m : Nat} (hm : m ≠ 0) :
    0 < mantissaOf m ∧ mantissaOf m < 2 ^ 53 ∧
      (2 ^ 52 ≤ mantissaOf m ∨ max 1 (m / fractionUnit) = 1) := by
  have hunit : fractionUnit = 4503599627370496 := rfl
  unfold mantissaOf
  rw [hunit]
  split <;> omega

theorem bits_of_parts (m : Nat) :
    (max 1 (m / fractionUnit) - 1) * fractionUnit + mantissaOf m = m := by
  have hunit : fractionUnit = 4503599627370496 := rfl
  unfold mantissaOf
  rw [hunit]
  split <;> omega

/-- A value that a finite number has is left alone. -/
theorem roundMagnitude_of_value {m : Nat} (hden : 0 < den) (hm : m < infinityBits)
    (h : (num : ℚ) / den = valueOf m) : roundMagnitude num den = m := by
  have hd : (den : ℚ) ≠ 0 := by exact_mod_cast hden.ne'
  by_cases hzero : m = 0
  · have hnum : num = 0 := by
      rw [hzero, valueOf, units_zero, Nat.cast_zero, zero_mul, div_eq_zero_iff] at h
      exact_mod_cast h.resolve_right hd
    rw [roundMagnitude, if_pos hnum, hzero]
  · obtain ⟨hpos, hhigh, hlow⟩ := mantissaOf_bounds hzero
    obtain ⟨e, he⟩ : ∃ e, max 1 (m / fractionUnit) = e := ⟨_, rfl⟩
    have he1 : 1 ≤ e := he ▸ Nat.le_max_left _ _
    rw [valueOf_eq, he] at h
    rw [he] at hlow
    have hpower : ∀ n : Int, (0 : ℚ) < 2 ^ n := zpow_pos (by norm_num)
    have hposq : (0 : ℚ) < mantissaOf m := by exact_mod_cast hpos
    have hnum : 0 < num := by
      refine Nat.pos_of_ne_zero fun hnum => ?_
      rw [hnum, Nat.cast_zero, zero_div] at h
      exact absurd h (mul_pos hposq (hpower _)).ne
    have hplace : max (log2Div num den - 52) (-1074) = (e : Int) - 1075 := by
      have hvalue : 0 < (num : ℚ) / den := h ▸ mul_pos hposq (hpower _)
      have hupper : Int.log 2 ((num : ℚ) / den) < 53 + (e - 1075) := by
        refine (Int.lt_zpow_iff_log_lt (b := 2) (by norm_num) hvalue).mp ?_
        rw [h, Nat.cast_ofNat, zpow_add₀ (by norm_num)]
        refine mul_lt_mul_of_pos_right ?_ (hpower _)
        exact_mod_cast hhigh
      rw [log2Div_eq hnum hden]
      rcases hlow with hlow | rfl
      · have hlower : 52 + (e - 1075) ≤ Int.log 2 ((num : ℚ) / den) := by
          refine (Int.zpow_le_iff_le_log (b := 2) (by norm_num) hvalue).mp ?_
          rw [h, Nat.cast_ofNat, zpow_add₀ (by norm_num)]
          refine mul_le_mul_of_nonneg_right ?_ (hpower _).le
          exact_mod_cast hlow
        omega
      · omega
    have hscaled : roundDiv (scale 2 num den (-((e : Int) - 1075))).1
        (scale 2 num den (-((e : Int) - 1075))).2 = mantissaOf m := by
      have hscale := scale_value (by decide : 0 < 2) num den (-((e : Int) - 1075))
      rw [h, Nat.cast_ofNat, mul_assoc, ← zpow_add₀ (by norm_num), add_neg_cancel, zpow_zero,
        mul_one] at hscale
      have hpos := scale_pos (by decide : 0 < 2) hden num (-((e : Int) - 1075))
      have hone := roundDiv_mul Nat.one_pos (mantissaOf m)
      rw [← hone]
      exact roundDiv_congr hpos Nat.one_pos (by rw [hscale, Nat.mul_one, Nat.cast_one, div_one])
    have hexponent : ((e : Int) - 1075 + 1074).toNat = e - 1 := by omega
    rw [roundMagnitude, if_neg hnum.ne', hplace]
    dsimp only
    rw [hscaled, hexponent, ← he, bits_of_parts, Nat.min_eq_right hm.le]

/-! ## Decimal fractions -/

theorem ofDecimal_zero (negative : Bool) (power : Int) :
    ofDecimal negative 0 power = ofMagnitude negative 0 := by
  rw [ofDecimal, if_pos (.inl rfl)]

end Binary64

namespace Text.Numeral

theorem digits_mul_ten {n : Nat} (hn : n ≠ 0) : digits (n * 10) = digits n ++ ['0'] := by
  rw [digits, if_neg (by omega), Nat.mul_div_cancel _ (by decide), Nat.mul_mod_left]
  rfl

theorem length_digits_mul {n : Nat} (hn : n ≠ 0) (k : Nat) :
    (digits (n * 10 ^ k)).length = (digits n).length + k := by
  induction k with
  | zero => rw [Nat.pow_zero, Nat.mul_one, Nat.add_zero]
  | succ k ih =>
    have hne : n * 10 ^ k ≠ 0 := Nat.mul_ne_zero hn (Nat.pow_pos (by decide)).ne'
    rw [Nat.pow_succ, ← Nat.mul_assoc, digits_mul_ten hne, List.length_append, ih]
    rfl

theorem lt_pow_length (n : Nat) : n < 10 ^ (digits n).length := by
  fun_induction digits n with
  | case1 n h => exact h
  | case2 n h ih =>
    rw [List.length_append, List.length_singleton, Nat.pow_succ]
    omega

theorem pow_length_le {n : Nat} (hn : n ≠ 0) : 10 ^ ((digits n).length - 1) ≤ n := by
  fun_induction digits n with
  | case1 n h => exact Nat.pos_of_ne_zero hn
  | case2 n h ih =>
    have hstep := ih (by omega)
    have hlength := List.length_pos_of_ne_nil (digits_ne_nil (n / 10))
    rw [List.length_append, List.length_singleton, Nat.add_sub_cancel]
    obtain ⟨l, hl⟩ : ∃ l, (digits (n / 10)).length = l + 1 := ⟨_, (Nat.succ_pred hlength.ne').symm⟩
    rw [hl, Nat.add_sub_cancel] at hstep
    rw [hl, Nat.pow_succ]
    omega

end Text.Numeral

namespace Binary64

open Text.Numeral (digits)

/-- Zeros at the end of the digits do not matter. -/
theorem ofDecimal_shift (negative : Bool) (n k : Nat) (power : Int) :
    ofDecimal negative (n * 10 ^ k) (power - k) = ofDecimal negative n power := by
  by_cases hn : n = 0
  · rw [hn, Nat.zero_mul, ofDecimal_zero, ofDecimal_zero]
  · have hne : n * 10 ^ k ≠ 0 := Nat.mul_ne_zero hn (Nat.pow_pos (by decide)).ne'
    have hsize : ((digits (n * 10 ^ k)).length : Int) + (power - k) =
        (digits n).length + power := by
      rw [Text.Numeral.length_digits_mul hn]
      push_cast
      ring
    have hvalue : roundMagnitude (scale 10 (n * 10 ^ k) 1 (power - k)).1
        (scale 10 (n * 10 ^ k) 1 (power - k)).2 =
        roundMagnitude (scale 10 n 1 power).1 (scale 10 n 1 power).2 := by
      refine roundMagnitude_congr (scale_pos (by decide) Nat.one_pos _ _)
        (scale_pos (by decide) Nat.one_pos _ _) ?_
      rw [scale_value (by decide), scale_value (by decide), Nat.cast_mul, Nat.cast_pow,
        zpow_sub₀ (by norm_num), zpow_natCast]
      field_simp
    unfold ofDecimal
    dsimp only
    rw [hsize, hvalue]
    simp only [hn, hne, false_or]

theorem valueOf_bounds {m : Nat} (hzero : m ≠ 0) (hm : m < infinityBits) :
    (2 : ℚ) ^ (-1074 : Int) ≤ valueOf m ∧ valueOf m < (2 : ℚ) ^ (1024 : Int) := by
  constructor
  · have hunits : 1 ≤ units m := by
      have := units_strictMono (Nat.pos_of_ne_zero hzero)
      rwa [units_zero] at this
    have hunits : (1 : ℚ) ≤ units m := by exact_mod_cast hunits
    exact le_mul_of_one_le_left (zpow_nonneg (by norm_num) _) hunits
  · obtain ⟨_, hhigh, _⟩ := mantissaOf_bounds hzero
    have hexponent : max 1 (m / fractionUnit) ≤ 2046 := by
      have hlt : m / fractionUnit < 2047 := Nat.div_lt_of_lt_mul (Nat.mul_comm _ _ ▸ hm)
      omega
    have hhigh : (mantissaOf m : ℚ) < 2 ^ (53 : Int) := by exact_mod_cast hhigh
    have hpower : (2 : ℚ) ^ ((max 1 (m / fractionUnit) : Nat) - 1075 : Int) ≤ 2 ^ (971 : Int) := by
      refine zpow_le_zpow_right₀ (by norm_num) ?_
      omega
    rw [valueOf_eq]
    calc (mantissaOf m : ℚ) * 2 ^ ((max 1 (m / fractionUnit) : Nat) - 1075 : Int)
        < 2 ^ (53 : Int) * 2 ^ ((max 1 (m / fractionUnit) : Nat) - 1075 : Int) :=
          mul_lt_mul_of_pos_right hhigh (zpow_pos (by norm_num) _)
      _ ≤ 2 ^ (53 : Int) * 2 ^ (971 : Int) :=
          mul_le_mul_of_nonneg_left hpower (zpow_nonneg (by norm_num) _)
      _ = 2 ^ (1024 : Int) := by rw [← zpow_add₀ (by norm_num)]; rfl

/-- Powers of ten that far away are beyond the values of finite numbers. -/
theorem two_pow_lt_ten_pow : (2 : ℚ) ^ (1074 : Int) < 10 ^ (400 : Int) := by
  calc (2 : ℚ) ^ (1074 : Int) < 2 ^ (1200 : Int) := zpow_lt_zpow_right₀ (by norm_num) (by decide)
    _ = ((2 : ℚ) ^ (3 : Int)) ^ (400 : Int) := zpow_mul 2 3 400
    _ < 10 ^ (400 : Int) := zpow_lt_zpow_left₀ (by decide) (by norm_num) (by norm_num)

/-- The number of digits places a decimal fraction between two powers of ten. -/
theorem decimal_bounds {n : Nat} (hn : n ≠ 0) (power : Int) :
    (10 : ℚ) ^ (((digits n).length : Int) + power - 1) ≤ n * 10 ^ power ∧
      (n : ℚ) * 10 ^ power < 10 ^ (((digits n).length : Int) + power) := by
  have hten : (0 : ℚ) < 10 ^ power := zpow_pos (by norm_num) power
  have hlength := List.length_pos_of_ne_nil (Text.Numeral.digits_ne_nil n)
  constructor
  · have hle : (10 : ℚ) ^ ((digits n).length - 1) ≤ n := by
      exact_mod_cast Text.Numeral.pow_length_le hn
    rw [show ((digits n).length : Int) + power - 1 = ((digits n).length - 1 : Nat) + power by omega,
      zpow_add₀ (by norm_num), zpow_natCast]
    exact mul_le_mul_of_nonneg_right hle hten.le
  · have hlt : (n : ℚ) < 10 ^ (digits n).length := by
      exact_mod_cast Text.Numeral.lt_pow_length n
    rw [zpow_add₀ (by norm_num), zpow_natCast]
    exact mul_lt_mul_of_pos_right hlt hten

/-- A decimal fraction with the value of a finite number is not so small or large that reading it
gives up. -/
theorem near_of_value {n m : Nat} {power : Int} (hn : n ≠ 0) (hzero : m ≠ 0)
    (hm : m < infinityBits) (h : (n : ℚ) * 10 ^ power = valueOf m) :
    -farExponent ≤ ((digits n).length : Int) + power ∧
      ((digits n).length : Int) + power ≤ farExponent := by
  obtain ⟨hlower, hupper⟩ := decimal_bounds hn power
  obtain ⟨hlow, hhigh⟩ := valueOf_bounds hzero hm
  rw [h] at hlower hupper
  constructor
  · by_contra hfar
    have hpower : (10 : ℚ) ^ (((digits n).length : Int) + power) ≤ 10 ^ (-400 : Int) := by
      refine zpow_le_zpow_right₀ (by norm_num) ?_
      rw [farExponent] at hfar
      omega
    have hinverse : (10 : ℚ) ^ (-400 : Int) < 2 ^ (-1074 : Int) := by
      rw [zpow_neg, zpow_neg]
      exact inv_strictAnti₀ (zpow_pos (by norm_num) _) two_pow_lt_ten_pow
    exact absurd (hupper.trans_le (hpower.trans (hinverse.le.trans hlow))) (lt_irrefl _)
  · by_contra hfar
    have hpower : (10 : ℚ) ^ (400 : Int) ≤ 10 ^ (((digits n).length : Int) + power - 1) := by
      refine zpow_le_zpow_right₀ (by norm_num) ?_
      rw [farExponent] at hfar
      omega
    have hbinary : (2 : ℚ) ^ (1024 : Int) ≤ 2 ^ (1074 : Int) :=
      zpow_le_zpow_right₀ (by norm_num) (by decide)
    exact absurd (two_pow_lt_ten_pow.trans_le
      (hpower.trans (hlower.trans (hhigh.le.trans hbinary)))) (lt_irrefl _)

/-- A decimal fraction is read as the number whose value it is. -/
theorem ofDecimal_of_value (negative : Bool) {n m : Nat} {power : Int} (hm : m < infinityBits)
    (h : (n : ℚ) * 10 ^ power = valueOf m) :
    ofDecimal negative n power = ofMagnitude negative m := by
  by_cases hn : n = 0
  · have hunits : units m = units 0 := by
      rw [hn, Nat.cast_zero, zero_mul, valueOf] at h
      have hzero := (mul_eq_zero.mp h.symm).resolve_right (zpow_pos (by norm_num) _).ne'
      rw [units_zero]
      exact_mod_cast hzero
    rw [hn, ofDecimal_zero, units_strictMono.injective hunits]
  · have hzero : m ≠ 0 := by
      rintro rfl
      rw [valueOf, units_zero, Nat.cast_zero, zero_mul, mul_eq_zero] at h
      exact h.elim (by exact_mod_cast hn) (zpow_pos (by norm_num) power).ne'
    obtain ⟨hsmall, hlarge⟩ := near_of_value hn hzero hm h
    have hvalue := scale_value (by decide : 0 < 10) n 1 power
    rw [Nat.cast_one, div_one, Nat.cast_ofNat, h] at hvalue
    unfold ofDecimal
    dsimp only
    rw [if_neg (not_or.mpr ⟨hn, not_lt.mpr hsmall⟩), if_neg (not_lt.mpr hlarge),
      roundMagnitude_of_value (scale_pos (by decide) Nat.one_pos _ _) hm hvalue]

end Binary64

end Patchbay
