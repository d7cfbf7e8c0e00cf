import Mathlib.Data.List.Induction
import Patchbay.Json.Reader
import Patchbay.Proofs.Decimal.Layout
import Patchbay.Proofs.Decimal.Shortest

/-!
# Numbers read back

A number that is written is read back, whatever closes the part of the value that it stands in. An
integer is read from its digits (`scalar_intText`). Any other number is written with a point or an
exponent part, from its shortest digits, and those are read as the number (`scalar_text`); the text
of "not a number" is read as the one value that stands for it.
-/

namespace Patchbay

namespace Text.Numeral

theorem value_append (cs ds : List Char) :
    value (cs ++ ds) = value cs * 10 ^ ds.length + value ds := by
  induction ds using List.reverseRec with
  | nil => simp [value]
  | append_singleton ds d ih =>
    have hsnoc : ∀ cs : List Char, value (cs ++ [d]) = value cs * 10 + (digitValue? d).getD 0 := by
      intro cs
      simp [value]
    rw [← List.append_assoc, hsnoc, ih, hsnoc, List.length_append, List.length_singleton,
      Nat.pow_succ]
    ring

theorem value_zeros (n : Nat) : value (List.replicate n '0') = 0 := by
  induction n with
  | zero => rfl
  | succ n ih => rw [List.replicate_succ', value_append, ih]; rfl

/-- Leading zeros do not count. -/
theorem value_zeros_append (n : Nat) (cs : List Char) :
    value (List.replicate n '0' ++ cs) = value cs := by
  rw [value_append, value_zeros, Nat.zero_mul, Nat.zero_add]

/-- Only zero starts with a zero. -/
theorem eq_zero_of_head {n : Nat} (h : (digits n).head? = some '0') : n = 0 := by
  fun_induction digits n with
  | case1 n hn =>
    have hall : ∀ m : Fin 10, [digitChar m.val].head? = some '0' → m.val = 0 := by decide
    exact hall ⟨n, hn⟩ h
  | case2 n hn ih =>
    rw [List.head?_append_of_ne_nil _ (digits_ne_nil _)] at h
    have := ih h
    omega

end Text.Numeral

namespace Json

open Text.Numeral (digits isAsciiDigit)

variable {ds : List Char} {rest : Rest}

/-- What stands behind a part of a value: nothing, a new line, or what separates or closes parts. -/
def Ends (rest : Rest) : Prop := ∀ c ∈ rest.head?, c ∈ [',', ']', '}', '\n']

/-- No digit comes next. -/
def NoDigit (rest : Rest) : Prop := ∀ c ∈ rest.head?, isAsciiDigit c = false

theorem Ends.head {p : Char → Prop} (h : Ends rest) (hp : ∀ c ∈ [',', ']', '}', '\n'], p c) :
    ∀ c ∈ rest.head?, p c :=
  fun c hc => hp c (h c hc)

theorem Ends.noDigit (h : Ends rest) : NoDigit rest :=
  h.head (List.all_iff_forall_prop.mp (by decide))

/-! ## Runs of digits -/

theorem digitRun_append (hds : ∀ c ∈ ds, isAsciiDigit c = true) (hrest : NoDigit rest) :
    digitRun (ds ++ rest) = (ds, rest) := by
  rw [digitRun, Text.takeWhile_append_stop hds hrest, Text.dropWhile_append_stop hds hrest]

/-- Digits that stand before the point: a zero stands alone. -/
structure IsWhole (ds : List Char) : Prop where
  ne_nil : ds ≠ []
  digits : ∀ c ∈ ds, isAsciiDigit c = true
  zero : ds.head? = some '0' → ds = ['0']

theorem isWhole_digits (n : Nat) : IsWhole (digits n) where
  ne_nil := Text.Numeral.digits_ne_nil n
  digits := fun _ => Text.Numeral.mem_digits
  zero h := by
    rw [Text.Numeral.eq_zero_of_head h, Text.Numeral.digits]
    rfl

theorem wholeRun_append (hds : IsWhole ds) (hrest : NoDigit rest) :
    wholeRun (ds ++ rest) = some (ds, rest) := by
  have hrun := digitRun_append hds.digits hrest
  unfold wholeRun
  split
  · next tail heq =>
    obtain ⟨c, cs, rfl⟩ := List.exists_cons_of_ne_nil hds.ne_nil
    obtain ⟨rfl, htail⟩ := List.cons.inj heq
    obtain rfl := (List.cons.inj (hds.zero rfl)).2
    rw [← htail]
    rfl
  · rw [hrun, if_neg]
    simpa using hds.ne_nil

theorem fractionRun_point {places : List Char} (hne : places ≠ [])
    (hplaces : ∀ c ∈ places, isAsciiDigit c = true) (hrest : NoDigit rest) :
    fractionRun ('.' :: (places ++ rest)) = some (places, rest) := by
  rw [fractionRun, digitRun_append hplaces hrest, if_neg]
  simpa using hne

theorem fractionRun_none (h : ∀ c ∈ rest.head?, c ≠ '.') : fractionRun rest = none := by
  unfold fractionRun
  split
  · exact absurd rfl (h _ rfl)
  · rfl

theorem exponentRun_none (h : ∀ c ∈ rest.head?, c ≠ 'e' ∧ c ≠ 'E') : exponentRun rest = none := by
  cases rest with
  | nil => rfl
  | cons c tail => simp [exponentRun, h c rfl]

theorem exponentRun_exponentPart (e : Int) (hrest : NoDigit rest) :
    exponentRun (Layout.exponentPart e ++ rest) = some (e, rest) := by
  have hrun : ∀ ds, ds = (if (digits e.natAbs).length < 2 then '0' :: digits e.natAbs
      else digits e.natAbs) →
      digitRun (ds ++ rest) = (ds, rest) ∧ ds ≠ [] ∧ Text.Numeral.value ds = e.natAbs := by
    rintro _ rfl
    have hds : ∀ c ∈ digits e.natAbs, isAsciiDigit c = true := fun _ => Text.Numeral.mem_digits
    split
    · refine ⟨digitRun_append (List.forall_mem_cons.mpr ⟨by decide, hds⟩) hrest,
        List.cons_ne_nil _ _, ?_⟩
      have hzero := Text.Numeral.value_zeros_append 1 (digits e.natAbs)
      rwa [Text.Numeral.value_digits] at hzero
    · exact ⟨digitRun_append hds hrest, Text.Numeral.digits_ne_nil _, Text.Numeral.value_digits _⟩
  unfold Layout.exponentPart
  dsimp only
  generalize (if (digits e.natAbs).length < 2 then _ else _) = ds at hrun
  obtain ⟨hrun, hne, hvalue⟩ := hrun ds rfl
  have hempty : ds.isEmpty = false := by simpa using hne
  split
  · next hneg =>
    simp only [exponentRun, List.cons_append, Char.reduceEq, decide_true, decide_false,
      Bool.or_false, if_true, hrun, hempty, Bool.false_eq_true, if_false, hvalue]
    congr 2
    omega
  · next hpos =>
    simp only [exponentRun, List.cons_append, Char.reduceEq, decide_true, decide_false,
      Bool.or_false, if_true, hrun, hempty, Bool.false_eq_true, if_false, hvalue]
    congr 2
    omega

/-! ## Numbers -/

/-- A number with its sign before it. -/
def signed (negative : Bool) (body : List Char) : List Char :=
  if negative then '-' :: body else body

theorem number_signed {body whole tail : Rest} (hbody : ∀ c ∈ body.head?, c ≠ '-')
    (hwhole : wholeRun body = some (whole, tail)) {fraction : Option (List Char × Rest)}
    (hfraction : fractionRun tail = fraction) {power : Option (Int × Rest)}
    (hpower : exponentRun (fraction.elim tail (·.2)) = power) (negative : Bool) :
    number .none (signed negative body) = .ok (if fraction.isNone && power.isNone then
        (.int (if negative then -(Text.Numeral.value whole : Int) else Text.Numeral.value whole),
          tail)
      else (.float (.ofDecimal negative (Text.Numeral.value (whole ++ fraction.elim [] (·.1)))
        (power.elim 0 (·.1) - (fraction.elim [] (·.1)).length)),
          power.elim (fraction.elim tail (·.2)) (·.2))) := by
  unfold number
  split
  next n b hmatch =>
  obtain ⟨rfl, rfl⟩ : negative = n ∧ body = b := by
    unfold signed at hmatch
    split at hmatch
    · next heq =>
      obtain ⟨rfl, rfl⟩ := Prod.mk.inj hmatch
      split at heq
      · next hneg => exact ⟨hneg, (List.cons.inj heq).2⟩
      · exact absurd (congrArg List.head? heq) (fun h => hbody _ h rfl)
    · next hsign =>
      obtain ⟨rfl, rfl⟩ := Prod.mk.inj hmatch
      split
      · next hneg => exact absurd (if_pos hneg) (hsign _)
      · next hpos => exact ⟨Bool.eq_false_iff.mpr hpos, rfl⟩
  simp only [hwhole, hfraction, hpower]
  cases fraction with
  | none =>
    cases power with
    | none => rfl
    | some _ => rfl
  | some _ => rfl

theorem scalar_signed {body : Rest} (hbody : ∀ c ∈ body.head?, isAsciiDigit c = true)
    (hne : body ≠ []) (negative : Bool) :
    scalar .none (signed negative body) = number .none (signed negative body) := by
  obtain ⟨c, tail, rfl⟩ := List.exists_cons_of_ne_nil hne
  have hletters : ∀ d ∈ ['n', 't', 'f', 'N', 'I', '-'], c ≠ d := by
    rintro d hd rfl
    have hall : ∀ d ∈ ['n', 't', 'f', 'N', 'I', '-'], isAsciiDigit d = false :=
      List.all_iff_forall_prop.mp (by decide)
    exact absurd ((hbody c rfl).symm.trans (hall c hd)) (by decide)
  simp only [List.forall_mem_cons, List.not_mem_nil, false_implies, implies_true,
    and_true] at hletters
  unfold signed scalar
  cases negative with
  | true =>
    rw [if_pos rfl]
    split <;> simp_all
  | false =>
    rw [if_neg Bool.false_ne_true]
    split <;> simp_all

theorem IsWhole.head (hds : IsWhole ds) : ∀ c ∈ (ds ++ rest).head?, isAsciiDigit c = true := by
  intro c hc
  rw [List.head?_append_of_ne_nil _ hds.ne_nil] at hc
  exact hds.digits c (List.mem_of_head? hc)

/-- A row of digits starts with no sign. -/
theorem IsWhole.not_sign (hds : IsWhole ds) : ∀ c ∈ (ds ++ rest).head?, c ≠ '-' := by
  rintro c hc rfl
  exact absurd (hds.head _ hc) (by decide)

/-- An integer is read back. -/
theorem scalar_intText (n : Int) (hrest : Ends rest) :
    scalar .none ((Text.Numeral.intText n).toList ++ rest) = .ok (.int n, rest) := by
  have hwhole := isWhole_digits n.natAbs
  have hpoint : ∀ c ∈ [',', ']', '}', '\n'], c ≠ '.' := List.all_iff_forall_prop.mp (by decide)
  have hletter : ∀ c ∈ [',', ']', '}', '\n'], c ≠ 'e' ∧ c ≠ 'E' :=
    List.all_iff_forall_prop.mp (by decide)
  have htext : (Text.Numeral.intText n).toList ++ rest =
      signed (decide (n < 0)) (digits n.natAbs ++ rest) := by
    rw [Text.Numeral.toList_intText]
    unfold signed
    by_cases hn : n < 0
    · rw [if_pos hn, if_pos (decide_eq_true hn), List.cons_append]
    · rw [if_neg hn, decide_eq_false hn, if_neg Bool.false_ne_true]
  rw [htext, scalar_signed hwhole.head (List.append_ne_nil_of_left_ne_nil hwhole.ne_nil _),
    number_signed hwhole.not_sign (wholeRun_append hwhole hrest.noDigit)
      (fractionRun_none (hrest.head hpoint)) (exponentRun_none (hrest.head hletter))]
  simp only [Option.isNone_none, Bool.and_self, if_true, Text.Numeral.value_digits,
    decide_eq_true_eq]
  congr 3
  split <;> omega

/-! ## Figures -/

/-- The figures of a number that is no integer: the digits before and behind the point, and the
exponent, if there is one. -/
structure Figures where
  whole : List Char
  places : List Char
  power : Option Int

namespace Figures

variable {figures : Figures}

/-- The figures in a row. -/
def chars (figures : Figures) : List Char :=
  figures.whole ++ ((if figures.places = [] then [] else '.' :: figures.places)
    ++ figures.power.elim [] Layout.exponentPart)

/-- The number that the figures are read as. -/
def toNumber (negative : Bool) (figures : Figures) : Binary64 :=
  .ofDecimal negative (Text.Numeral.value (figures.whole ++ figures.places))
    (figures.power.getD 0 - figures.places.length)

/-- The figures are those of a number, and not of an integer. -/
structure Proper (figures : Figures) : Prop where
  whole : IsWhole figures.whole
  places : ∀ c ∈ figures.places, isAsciiDigit c = true
  shown : figures.places ≠ [] ∨ figures.power ≠ none

/-- Figures are read back. -/
theorem number_chars (h : figures.Proper) (hrest : Ends rest) (negative : Bool) :
    number .none (signed negative (figures.chars ++ rest)) =
      .ok (.float (figures.toNumber negative), rest) := by
  obtain ⟨whole, places, power⟩ := figures
  obtain ⟨hwhole, hplaces, hshown⟩ := h
  dsimp only at hwhole hplaces hshown
  have hpart : ∀ c ∈ (power.elim [] Layout.exponentPart ++ rest).head?,
      isAsciiDigit c = false ∧ c ≠ '.' := by
    cases power with
    | none => exact hrest.head (List.all_iff_forall_prop.mp (by decide))
    | some e =>
      intro c hc
      obtain rfl : 'e' = c := Option.some.inj hc
      decide
  have hexponent : exponentRun (power.elim [] Layout.exponentPart ++ rest) =
      power.map (·, rest) := by
    cases power with
    | none => exact exponentRun_none (hrest.head (List.all_iff_forall_prop.mp (by decide)))
    | some e => exact exponentRun_exponentPart e hrest.noDigit
  unfold chars toNumber
  dsimp only
  rw [List.append_assoc]
  by_cases hne : places = []
  · rw [if_pos hne, List.nil_append,
      number_signed hwhole.not_sign (wholeRun_append hwhole fun c hc => (hpart c hc).1)
        (fractionRun_none fun c hc => (hpart c hc).2) hexponent]
    cases power with
    | none => exact absurd hshown (by simp [hne])
    | some e => simp [hne]
  · have hpoint : NoDigit ('.' :: (places ++ (power.elim [] Layout.exponentPart ++ rest))) := by
      intro c hc
      obtain rfl : '.' = c := Option.some.inj hc
      decide
    rw [if_neg hne, List.append_assoc, List.cons_append,
      number_signed hwhole.not_sign (wholeRun_append hwhole hpoint)
        (fractionRun_point hne hplaces fun c hc => (hpart c hc).1) hexponent]
    cases power with
    | none => simp
    | some e => simp

/-- The figures show the number that a decimal fraction is read as. -/
structure Shows (figures : Figures) (d : Decimal) : Prop extends figures.Proper where
  toNumber_eq : ∀ negative, figures.toNumber negative = .ofDecimal negative d.digits d.power

theorem mem_zeros {n : Nat} {c : Char} (h : c ∈ List.replicate n '0') : isAsciiDigit c = true := by
  rw [List.eq_of_mem_replicate h]
  decide

/-- All digits stand behind the point. -/
theorem shows_behind (n k : Nat) :
    Shows ⟨['0'], List.replicate k '0' ++ digits n, none⟩ ⟨n, -(k + (digits n).length : Int)⟩ where
  whole := ⟨by simp, fun _ => @mem_zeros 1 _, fun _ => rfl⟩
  places _ hc := (List.mem_append.mp hc).elim mem_zeros ((isWhole_digits n).digits _)
  shown := .inl (List.append_ne_nil_of_right_ne_nil _ (isWhole_digits n).ne_nil)
  toNumber_eq negative := by
    have hread : Text.Numeral.value (['0'] ++ (List.replicate k '0' ++ digits n)) = n := calc
      _ = Text.Numeral.value (List.replicate k '0' ++ digits n) :=
        Text.Numeral.value_zeros_append 1 _
      _ = Text.Numeral.value (digits n) := Text.Numeral.value_zeros_append k _
      _ = n := Text.Numeral.value_digits n
    unfold toNumber
    rw [hread]
    congr 1
    rw [List.length_append, List.length_replicate]
    simp only [Option.getD_none]
    omega

/-- All digits stand before the point, and zeros behind them. -/
theorem shows_before {n k : Nat} (hzero : n = 0 → k = 0) :
    Shows ⟨digits n ++ List.replicate k '0', ['0'], none⟩ ⟨n, k⟩ where
  whole := by
    have hwhole := isWhole_digits n
    refine ⟨List.append_ne_nil_of_left_ne_nil hwhole.ne_nil _, fun c hc => ?_, fun h => ?_⟩
    · exact (List.mem_append.mp hc).elim (hwhole.digits c) mem_zeros
    · rw [List.head?_append_of_ne_nil _ hwhole.ne_nil] at h
      rw [hzero (Text.Numeral.eq_zero_of_head h), hwhole.zero h]
      rfl
  places _ := @mem_zeros 1 _
  shown := .inl (by simp)
  toNumber_eq negative := by
    have hread : Text.Numeral.value (digits n ++ List.replicate k '0' ++ ['0']) =
        n * 10 ^ (k + 1) := by
      rw [List.append_assoc, ← List.replicate_succ', Text.Numeral.value_append,
        Text.Numeral.value_zeros, Text.Numeral.value_digits, List.length_replicate, Nat.add_zero]
    unfold toNumber
    rw [hread, ← Binary64.ofDecimal_shift negative n (k + 1) k]
    congr 1
    simp only [Option.getD_none, List.length_singleton]
    omega

/-- The point stands between two digits. -/
theorem shows_between {n place : Nat} (hpos : 0 < place) (hlt : place < (digits n).length) :
    Shows ⟨(digits n).take place, (digits n).drop place, none⟩
      ⟨n, place - (digits n).length⟩ where
  whole := by
    have hwhole := isWhole_digits n
    refine ⟨?_, fun c hc => hwhole.digits c (List.mem_of_mem_take hc), fun h => ?_⟩
    · simp only [ne_eq, List.take_eq_nil_iff, hwhole.ne_nil, or_false]
      omega
    · rw [List.head?_take, if_neg (by omega)] at h
      rw [hwhole.zero h, List.length_singleton] at hlt
      omega
  places c hc := (isWhole_digits n).digits c (List.mem_of_mem_drop hc)
  shown := .inl (by simp only [ne_eq, List.drop_eq_nil_iff]; omega)
  toNumber_eq negative := by
    unfold toNumber
    rw [List.take_append_drop, Text.Numeral.value_digits]
    congr 1
    rw [List.length_drop]
    simp only [Option.getD_none]
    omega

theorem exists_positional {d : Decimal} (hzero : d.digits = 0 → d.power = 0) :
    ∃ figures, Shows figures d ∧
      Layout.positional (digits d.digits) ((digits d.digits).length + d.power) = figures.chars := by
  obtain ⟨n, power⟩ := d
  dsimp only at hzero ⊢
  have hne := (isWhole_digits n).ne_nil
  obtain ⟨place, hplace⟩ : ∃ place, ((digits n).length : Int) + power = place := ⟨_, rfl⟩
  rw [hplace]
  unfold Layout.positional
  by_cases hlow : place ≤ 0
  · rw [if_pos hlow]
    obtain rfl : power = -((-place).toNat + (digits n).length : Int) := by omega
    exact ⟨_, shows_behind n (-place).toNat, by simp [chars, hne]⟩
  rw [if_neg hlow]
  by_cases hhigh : ((digits n).length : Int) ≤ place
  · rw [if_pos hhigh]
    obtain ⟨k, rfl⟩ := Int.eq_ofNat_of_zero_le (by omega : 0 ≤ power)
    have hzeros : place.toNat - (digits n).length = k := by omega
    rw [hzeros]
    exact ⟨_, shows_before fun h => Int.ofNat_eq_zero.mp (hzero h), by simp [chars]⟩
  · rw [if_neg hhigh]
    obtain ⟨before, rfl⟩ := Int.eq_ofNat_of_zero_le (by omega : 0 ≤ place)
    obtain rfl : power = before - (digits n).length := by omega
    have hbehind : (digits n).drop before ≠ [] := by
      simp only [ne_eq, List.drop_eq_nil_iff]
      omega
    refine ⟨_, shows_between (by omega) (by omega), ?_⟩
    simp only [chars, Int.toNat_natCast, if_neg hbehind, Option.elim_none, List.append_nil]

theorem exists_scientific (d : Decimal) :
    ∃ figures, Shows figures d ∧ Layout.scientific (digits d.digits)
      ((digits d.digits).length + d.power - 1) = figures.chars := by
  obtain ⟨n, power⟩ := d
  dsimp only
  have hvalue := Text.Numeral.value_digits n
  have hwhole := isWhole_digits n
  generalize digits n = ds at hvalue hwhole
  obtain ⟨c, behind, rfl⟩ := List.exists_cons_of_ne_nil hwhole.ne_nil
  obtain ⟨hc, hbehind⟩ := List.forall_mem_cons.mp hwhole.digits
  refine ⟨⟨[c], behind, some ((c :: behind).length + power - 1)⟩,
    ⟨⟨⟨by simp, by simpa using hc, fun h => ?_⟩, hbehind, .inr (by simp)⟩, fun negative => ?_⟩, ?_⟩
  · rw [Option.some.inj h]
  · unfold toNumber
    rw [List.singleton_append, hvalue]
    congr 1
    simp only [Option.getD_some, List.length_cons]
    omega
  · cases behind with
    | nil => rfl
    | cons _ _ => simp [Layout.scientific, chars]

end Figures

/-- The digits of a decimal fraction are written as figures. -/
theorem exists_figures (layout : Layout) {d : Decimal} (hzero : d.digits = 0 → d.power = 0) :
    ∃ figures, Figures.Shows figures d ∧ layout.magnitude d = figures.chars := by
  unfold Layout.magnitude
  dsimp only
  split
  · obtain ⟨figures, hshows, heq⟩ := Figures.exists_positional hzero
    exact ⟨figures, hshows, by rw [← heq, Int.sub_add_cancel]⟩
  · exact Figures.exists_scientific d

/-- "Not a number" is the one value that stands for it. -/
def Canonical (x : Binary64) : Prop := x.isNaN = true → x = .nan

theorem digits_shortest {x : Binary64} (hx : x.isFinite = true) (h : x.shortest.digits = 0) :
    x.shortest.power = 0 := by
  have hnearest := congrArg Binary64.magnitude (Binary64.nearest_shortest hx)
  rw [Decimal.nearest, h, Binary64.ofDecimal_zero, Binary64.abs,
    Binary64.magnitude_ofMagnitude _ (by decide),
    Binary64.magnitude_ofMagnitude _ (Binary64.magnitude_lt x)] at hnearest
  rw [Binary64.shortest, if_pos hnearest.symm]

/-- A number that is no integer is read back. -/
theorem scalar_text {x : Binary64} (hx : Canonical x) (hrest : Ends rest) :
    scalar .none ((numberLayout.text x).toList ++ rest) = .ok (.float x, rest) := by
  unfold Layout.text
  split
  · next hnan =>
    rw [hx hnan]
    rfl
  · next hnan =>
    dsimp only
    rw [String.toList_ofList]
    cases hinfinite : x.isInfinite with
    | true =>
      have heq : Binary64.infinity x.negative = x := by
        have hmagnitude : x.magnitude = Binary64.infinityBits := beq_iff_eq.mp hinfinite
        rw [Binary64.infinity, ← hmagnitude, Binary64.ofMagnitude_parts]
      rw [if_pos rfl]
      cases hnegative : x.negative with
      | true =>
        rw [hnegative] at heq
        rw [← heq]
        rfl
      | false =>
        rw [hnegative] at heq
        rw [← heq]
        rfl
    | false =>
      have hfinite : x.isFinite = true := by
        simp only [Binary64.isNaN, Binary64.isInfinite, Binary64.isFinite, decide_eq_true_eq,
          beq_eq_false_iff_ne, ne_eq] at hnan hinfinite ⊢
        omega
      obtain ⟨figures, hshows, heq⟩ := exists_figures numberLayout (digits_shortest hfinite)
      have hsigned : (if x.negative then '-' :: figures.chars else figures.chars) ++ rest =
          signed x.negative (figures.chars ++ rest) := by
        unfold signed
        split
        · rw [List.cons_append]
        · rfl
      have hbody : ∀ c ∈ (figures.chars ++ rest).head?, isAsciiDigit c = true := by
        unfold Figures.chars
        rw [List.append_assoc]
        exact hshows.whole.head
      have hne : figures.chars ≠ [] := List.append_ne_nil_of_left_ne_nil hshows.whole.ne_nil _
      rw [if_neg Bool.false_ne_true, heq, hsigned,
        scalar_signed hbody (List.append_ne_nil_of_left_ne_nil hne _),
        Figures.number_chars hshows.toProper hrest, hshows.toNumber_eq,
        Binary64.ofDecimal_shortest hfinite]

end Json

end Patchbay
