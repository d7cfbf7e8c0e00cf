import Mathlib.Data.List.Chain
import Patchbay.Json.Printer
import Patchbay.Json.Reader

/-!
# Texts between quotes

A text that is written in ASCII is read back (`textFrom_quote`), so that it can be told from what
follows it. One thing is lost in writing: where the two halves of a surrogate pair stand one after
the other on their own, they are written as the character they would make together, and that is
what is read.
-/

namespace Patchbay

theorem Text.le_bareMark_of_mem_codes {cs : List Char} {code : Nat} (h : code ∈ codes cs) :
    code ≤ bareMark := by
  have hchar : ∀ c : Char, c.toNat ≤ bareMark := fun c => Nat.le_of_lt (toNat_bounds c).1
  have hlone : ∀ c : Char, loneCode c ≤ bareMark := by
    intro c
    unfold loneCode
    split
    · exact Nat.le_refl _
    · split
      · exact Nat.le_trans (Nat.sub_le _ _) (hchar c)
      · exact hchar c
  fun_induction codes cs with
  | case1 => exact absurd h List.not_mem_nil
  | case2 c => exact List.mem_singleton.mp h ▸ hlone c
  | case3 c d rest _ ih =>
    rcases List.mem_cons.mp h with rfl | h
    · exact hchar d
    · exact ih h
  | case4 c d rest _ ih =>
    rcases List.mem_cons.mp h with rfl | h
    · exact hlone c
    · exact ih h

/-! ## Hexadecimal digits -/

namespace Text

theorem hexValue?_hexDigit {n : Nat} (h : n < 16) : hexValue? (hexDigit n) = some n := by
  have : ∀ m : Fin 16, hexValue? (hexDigit m) = some m.val := by decide
  exact this ⟨n, h⟩

theorem hexDigits_four (n : Nat) : hexDigits 4 n =
    [hexDigit (n / 16 / 16 / 16 % 16), hexDigit (n / 16 / 16 % 16), hexDigit (n / 16 % 16),
      hexDigit (n % 16)] :=
  rfl

end Text

namespace Json

theorem unit?_hexDigits {unit : Nat} (h : unit < 0x10000) :
    ∃ a b c d, Text.hexDigits 4 unit = [a, b, c, d] ∧ unit? a b c d = some unit := by
  refine ⟨_, _, _, _, Text.hexDigits_four unit, ?_⟩
  have hdigit : ∀ n, Text.hexValue? (Text.hexDigit (n % 16)) = some (n % 16) :=
    fun n => Text.hexValue?_hexDigit (Nat.mod_lt n (by decide))
  simp only [unit?, hdigit, Option.bind_eq_bind, Option.bind_some, Option.pure_def]
  congr 1
  omega

/-! ## Code points -/

/-- How a code point is written in ASCII. -/
inductive Spelled (code : Nat) : List Char → Prop
  | plain {c : Char} (hquote : c ≠ '"') (hslash : c ≠ '\\') (hprints : 0x20 ≤ c.toNat)
      (h : Text.charsOf code = [c]) : Spelled code [c]
  | letter {c : Char} (h : letterEscape? c = some code) : Spelled code ['\\', c]
  | unit (h : code < 0x10000) : Spelled code (unitEscape code)
  | pair (h : 0x10000 ≤ code) (hlt : code < Text.bareMark) :
      Spelled code (unitEscape (0xD800 + (code - 0x10000) / 0x400)
        ++ unitEscape (0xDC00 + (code - 0x10000) % 0x400))

theorem eq_toNat_of_ofNat {code : Nat} {c : Char} (h : Char.ofNat code = c) (hc : c ≠ '\x00') :
    code = c.toNat := by
  subst h
  by_cases hvalid : code.isValidChar
  · rw [Char.ofNat, dif_pos hvalid]
    rfl
  · rw [Char.ofNat, dif_neg hvalid] at hc
    exact absurd rfl hc

theorem spelled_letter {code : Nat} {c d : Char} (h : Char.ofNat code = c) (hc : c ≠ '\x00')
    (hd : letterEscape? d = some c.toNat) : Spelled code ['\\', d] :=
  .letter (hd.trans (congrArg some (eq_toNat_of_ofNat h hc).symm))

theorem spelled_codeEscape {code : Nat} (h : code ≤ Text.bareMark) : Spelled code (codeEscape code) := by
  unfold codeEscape
  split
  · next hunit => exact .unit hunit
  · split
    · next hmark =>
      subst hmark
      exact .plain (by decide) (by decide) (by decide) rfl
    · next hunit hmark => exact .pair (Nat.le_of_not_lt hunit) (Nat.lt_of_le_of_ne h hmark)

theorem spelled_codeChars {code : Nat} (h : code ≤ Text.bareMark) :
    Spelled code (codeChars true code) := by
  unfold codeChars
  dsimp only
  split
  · next hc => exact spelled_letter hc (by decide) rfl
  split
  · next hc => exact spelled_letter hc (by decide) rfl
  split
  · next hc => exact spelled_letter hc (by decide) rfl
  split
  · next hc => exact spelled_letter hc (by decide) rfl
  split
  · next hc => exact spelled_letter hc (by decide) rfl
  split
  · next hc =>
    subst hc
    exact .letter rfl
  split
  · next hc =>
    subst hc
    exact .letter rfl
  split
  · next hquote hslash _ _ _ _ _ hprints =>
    have hhalf : ¬ Text.isHalf code = true := by
      rw [Text.isHalf_iff]
      omega
    refine .plain hquote hslash ?_ (Text.charsOf_low hhalf (by omega))
    rw [Text.toNat_ofNat (by unfold Text.bareMark; omega) hhalf]
    exact hprints.1
  · rw [if_neg (by simp)]
    exact spelled_codeEscape h

/-! ## Reading code points -/

/-- What stands behind a first half when no second half follows it. -/
def Follows (tail : Rest) : Prop :=
  (∀ rest, tail ≠ '\\' :: 'u' :: rest) ∨
    ∃ next rest, next < 0x10000 ∧ isLowSurrogate next = false ∧ rest ≠ [] ∧
      tail = unitEscape next ++ rest

variable {opening tail : Rest}

theorem escape_unit {unit : Nat} (h : unit < 0x10000) (htail : tail ≠ [])
    (hfollows : isHighSurrogate unit = true → Follows tail) :
    escape opening ('u' :: Text.hexDigits 4 unit ++ tail) = .ok (unit, tail) := by
  obtain ⟨e, rest, rfl⟩ := List.exists_cons_of_ne_nil htail
  obtain ⟨a, b, c, d, hdigits, hunit⟩ := unit?_hexDigits h
  rw [hdigits]
  show escape opening ('u' :: a :: b :: c :: d :: e :: rest) = _
  rw [escape]
  simp only [hunit]
  cases hhigh : isHighSurrogate unit with
  | false => rfl
  | true =>
    rcases hfollows hhigh with hplain | ⟨next, behind, hnext, hlow, hbehind, heq⟩
    · split
      · next heq => exact absurd heq (hplain _)
      · rfl
    · obtain ⟨e', rest', rfl⟩ := List.exists_cons_of_ne_nil hbehind
      obtain ⟨a', b', c', d', hdigits', hunit'⟩ := unit?_hexDigits hnext
      rw [unitEscape, hdigits'] at heq
      rw [heq]
      simp only [List.cons_append, List.nil_append, hunit', hlow]
      rfl

theorem escape_pair {first second : Nat} (hfirst : isHighSurrogate first = true)
    (hsecond : isLowSurrogate second = true) (htail : tail ≠ []) :
    escape opening ('u' :: Text.hexDigits 4 first ++ (unitEscape second ++ tail)) =
      .ok (0x10000 + (first - 0xD800) * 0x400 + (second - 0xDC00), tail) := by
  obtain ⟨e, rest, rfl⟩ := List.exists_cons_of_ne_nil htail
  have hbounds : first < 0x10000 ∧ second < 0x10000 := by
    simp only [isHighSurrogate, isLowSurrogate, Bool.and_eq_true, decide_eq_true_eq] at hfirst hsecond
    omega
  obtain ⟨a, b, c, d, hdigits, hunit⟩ := unit?_hexDigits hbounds.1
  obtain ⟨a', b', c', d', hdigits', hunit'⟩ := unit?_hexDigits hbounds.2
  rw [unitEscape, hdigits, hdigits']
  show escape opening
    ('u' :: a :: b :: c :: d :: '\\' :: 'u' :: a' :: b' :: c' :: d' :: e :: rest) = _
  rw [escape]
  simp only [hunit, hfirst, hunit', hsecond]
  rfl

theorem follows_spelled {code : Nat} {cs : List Char} (h : Spelled code cs)
    (hlow : isLowSurrogate code = false) (htail : tail ≠ []) : Follows (cs ++ tail) := by
  cases h with
  | plain _ hslash _ _ =>
    refine .inl fun rest heq => ?_
    exact hslash (List.cons.inj heq).1
  | @letter c hletter =>
    refine .inl fun rest heq => ?_
    obtain ⟨rfl, _⟩ := List.cons.inj (List.cons.inj heq).2
    exact absurd hletter (by simp [letterEscape?])
  | unit hunit => exact .inr ⟨code, tail, hunit, hlow, htail, rfl⟩
  | pair hpair hlt =>
    refine .inr ⟨_, _, ?_, ?_, ?_, List.append_assoc _ _ _⟩
    · unfold Text.bareMark at hlt
      omega
    · unfold Text.bareMark at hlt
      rw [isLowSurrogate, Bool.and_eq_false_iff, decide_eq_false_iff_not, decide_eq_false_iff_not]
      omega
    · exact List.append_ne_nil_of_right_ne_nil _ htail

theorem escape_letter {code : Nat} {c : Char} (h : letterEscape? c = some code) :
    escape opening (c :: tail) = .ok (code, tail) := by
  have hu : c ≠ 'u' := by
    rintro rfl
    exact absurd h (by simp [letterEscape?])
  unfold escape
  split
  · next heq => exact absurd heq (by simp)
  · next heq => exact absurd (List.cons.inj heq).1 hu
  · next heq => exact absurd (List.cons.inj heq).1 hu
  · next heq =>
    obtain ⟨rfl, rfl⟩ := List.cons.inj heq
    rw [h]

theorem textFrom_escape {code : Nat} {rest done : List Char}
    (h : escape opening rest = .ok (code, tail)) :
    textFrom opening done ('\\' :: rest) =
      textFrom opening ((Text.charsOf code).reverse ++ done) tail := by
  rw [textFrom, if_neg (by decide), if_pos rfl]
  split
  · next hrefused => exact absurd (h.symm.trans hrefused) (by simp)
  · next hread =>
    obtain ⟨rfl, rfl⟩ := Prod.mk.inj (Except.ok.inj (h.symm.trans hread))
    rfl

/-- A code point that is written is read back. -/
theorem textFrom_spelled {code : Nat} {cs done : List Char} (h : Spelled code cs) (htail : tail ≠ [])
    (hfollows : isHighSurrogate code = true → Follows tail) :
    textFrom opening done (cs ++ tail) =
      textFrom opening ((Text.charsOf code).reverse ++ done) tail := by
  cases h with
  | @plain c hquote hslash hprints hchars =>
    rw [hchars, List.singleton_append, textFrom, if_neg hquote, if_neg hslash,
      if_neg (Nat.not_lt_of_le hprints)]
    rfl
  | letter hletter => exact textFrom_escape (escape_letter hletter)
  | unit hunit => exact textFrom_escape (escape_unit hunit htail hfollows)
  | pair hpair hlt =>
    unfold Text.bareMark at hlt
    have hfirst : isHighSurrogate (0xD800 + (code - 0x10000) / 0x400) = true := by
      rw [isHighSurrogate, Bool.and_eq_true, decide_eq_true_eq, decide_eq_true_eq]
      omega
    have hsecond : isLowSurrogate (0xDC00 + (code - 0x10000) % 0x400) = true := by
      rw [isLowSurrogate, Bool.and_eq_true, decide_eq_true_eq, decide_eq_true_eq]
      omega
    have hcode : 0x10000 + (0xD800 + (code - 0x10000) / 0x400 - 0xD800) * 0x400 +
        (0xDC00 + (code - 0x10000) % 0x400 - 0xDC00) = code := by omega
    have hread := @escape_pair opening _ _ _ hfirst hsecond htail
    rw [hcode] at hread
    rw [List.append_assoc]
    exact textFrom_escape hread

/-! ## Texts -/

/-- No first half of a surrogate pair stands directly before a second half. -/
def HalvesApart (codes : List Nat) : Prop :=
  codes.IsChain fun code next => ¬ (isHighSurrogate code = true ∧ isLowSurrogate next = true)

instance : DecidablePred HalvesApart := fun codes =>
  inferInstanceAs (Decidable (codes.IsChain _))

theorem halvesApart_of_low {cs : List Char} (h : ∀ c ∈ cs, c.toNat < 0xD800) :
    HalvesApart (Text.codes cs) := by
  have hcodes : ∀ code ∈ Text.codes cs, code < 0xD800 := by
    induction cs with
    | nil => exact fun _ hcode => absurd hcode List.not_mem_nil
    | cons c cs ih =>
      have hc := h c List.mem_cons_self
      have hmark : c ≠ Text.mark := by
        rintro rfl
        exact absurd hc (by decide)
      have hplain : Text.isReserved c = false := by
        rw [← Bool.not_eq_true, Text.isReserved_iff]
        omega
      rw [Text.codes_cons_of_ne_mark hmark, Text.loneCode, if_neg hmark, hplain]
      exact List.forall_mem_cons.mpr ⟨hc, ih fun d hd => h d (List.mem_cons_of_mem _ hd)⟩
  refine (List.pairwise_of_forall_mem_list fun code hcode _ _ hhalves => ?_).isChain
  have hhigh := hhalves.1
  rw [isHighSurrogate, Bool.and_eq_true, decide_eq_true_eq] at hhigh
  exact absurd (hcodes code hcode) (Nat.not_lt_of_le hhigh.1)

theorem textFrom_codes {codes : List Nat} (hcodes : ∀ code ∈ codes, code ≤ Text.bareMark)
    (h : HalvesApart codes) (done : List Char) (rest : Rest) :
    textFrom opening done (codes.flatMap (codeChars true) ++ '"' :: rest) =
      .ok (String.ofList (done.reverse ++ Text.ofCodes codes), rest) := by
  induction codes generalizing done with
  | nil =>
    show textFrom opening done ('"' :: rest) = _
    rw [textFrom, if_pos rfl]
    simp [Text.ofCodes]
  | cons code codes ih =>
    obtain ⟨hcode, hcodes⟩ := List.forall_mem_cons.mp hcodes
    have htail : codes.flatMap (codeChars true) ++ '"' :: rest ≠ [] :=
      List.append_ne_nil_of_right_ne_nil _ (by simp)
    have hfollows : isHighSurrogate code = true →
        Follows (codes.flatMap (codeChars true) ++ '"' :: rest) := by
      intro hhigh
      cases codes with
      | nil => exact .inl fun _ heq => absurd (List.cons.inj heq).1 (by decide)
      | cons next codes =>
        have hlow : isLowSurrogate next = false := by
          rw [← Bool.not_eq_true]
          exact fun hlow => (List.isChain_cons_cons.mp h).1 ⟨hhigh, hlow⟩
        rw [List.flatMap_cons, List.append_assoc]
        exact follows_spelled (spelled_codeChars (hcodes next List.mem_cons_self)) hlow
          (List.append_ne_nil_of_right_ne_nil _ (by simp))
    rw [List.flatMap_cons, List.append_assoc,
      textFrom_spelled (spelled_codeChars hcode) htail hfollows,
      ih hcodes h.tail, List.reverse_append, List.reverse_reverse, List.append_assoc]
    rfl

/-- A text that is written is read back, whatever stands behind it. -/
theorem textFrom_quote {s : String} (h : HalvesApart (Text.codes s.toList)) {style : Style}
    (hascii : style.asciiOnly = true) (rest : Rest) :
    ∃ body, quote style s ++ rest = '"' :: body ∧ textFrom opening [] body = .ok (s, rest) := by
  refine ⟨(Text.codes s.toList).flatMap (codeChars true) ++ '"' :: rest, ?_, ?_⟩
  · rw [quote, hascii]
    simp
  · rw [textFrom_codes (fun _ => Text.le_bareMark_of_mem_codes) h, Text.ofCodes_codes]
    exact congrArg (fun t => Except.ok (t, rest)) String.ofList_toList

theorem quote_append_injective {s t : String} (hs : HalvesApart (Text.codes s.toList))
    (ht : HalvesApart (Text.codes t.toList)) {style : Style} (hascii : style.asciiOnly = true)
    {r r' : List Char} (h : quote style s ++ r = quote style t ++ r') : s = t ∧ r = r' := by
  obtain ⟨body, hbody, hread⟩ := @textFrom_quote [] s hs style hascii r
  obtain ⟨body', hbody', hread'⟩ := @textFrom_quote [] t ht style hascii r'
  rw [hbody, hbody'] at h
  obtain ⟨_, rfl⟩ := List.cons.inj h
  exact Prod.mk.inj (Except.ok.inj (hread.symm.trans hread'))

theorem feed_not_mem_spelled {code : Nat} {cs : List Char} (h : Spelled code cs) : '\n' ∉ cs := by
  have hdigit : ∀ n, '\n' ≠ Text.hexDigit (n % 16) := by
    intro n heq
    have hread := Text.hexValue?_hexDigit (Nat.mod_lt n (by decide : 0 < 16))
    rw [← heq] at hread
    exact absurd hread (by simp [Text.hexValue?])
  have hunit : ∀ unit, '\n' ∉ unitEscape unit := by
    intro unit
    rw [unitEscape, Text.hexDigits_four]
    simp [hdigit]
  cases h with
  | plain _ _ hprints _ =>
    rw [List.mem_singleton]
    rintro rfl
    exact absurd hprints (by decide)
  | letter hletter =>
    simp only [List.mem_cons, List.not_mem_nil, or_false, not_or]
    refine ⟨by decide, ?_⟩
    rintro rfl
    exact absurd hletter (by simp [letterEscape?])
  | unit _ => exact hunit code
  | pair _ _ => exact fun hmem => (List.mem_append.mp hmem).elim (hunit _) (hunit _)

/-- A text that is written in ASCII stands on one line. -/
theorem feed_not_mem_quote (s : String) {style : Style} (hascii : style.asciiOnly = true) :
    '\n' ∉ quote style s := by
  rw [quote, hascii]
  intro hmem
  rcases List.mem_append.mp hmem with hmem | hmem
  · rcases List.mem_cons.mp hmem with heq | hmem
    · exact absurd heq (by decide)
    · obtain ⟨code, hcode, hmem⟩ := List.mem_flatMap.mp hmem
      exact feed_not_mem_spelled (spelled_codeChars (Text.le_bareMark_of_mem_codes hcode)) hmem
  · exact absurd (List.mem_singleton.mp hmem) (by decide)

end Json

end Patchbay
