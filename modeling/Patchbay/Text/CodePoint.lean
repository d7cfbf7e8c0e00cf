/-!
# Code points

A text is a row of code points. Half of a surrogate pair may be one of them, alone, although it is
no character: a text carries it as one of the last 2048 characters there are. Where one of these
occurs for its own sake, or the mark U+10F7FF before them, a mark stands in front of it.

So every row of code points has a text (`codes_ofCodes`), and a text is determined by its code
points (`ofCodes_codes`). Texts are ordered by their code points, halves among them.
-/

namespace Patchbay.Text

/-- Half of a surrogate pair. -/
def isHalf (code : Nat) : Bool := 0xD800 ≤ code && code ≤ 0xDFFF

/-- The character that stands before a character which would otherwise carry a half. -/
def mark : Char := Char.ofNat 0x10F7FF

/-- How far the character that carries a half is from it. -/
def carrierDistance : Nat := 0x102000

/-- The mark, or a character that carries a half. -/
def isReserved (c : Char) : Bool := 0x10F7FF ≤ c.toNat

/-- What a mark counts as that stands before no reserved character: it is beyond all code
points. -/
def bareMark : Nat := 0x110000

/-- The code of a character that no mark stands before. -/
def loneCode (c : Char) : Nat :=
  if c = mark then bareMark
  else if isReserved c then c.toNat - carrierDistance
  else c.toNat

/-- The code points that some characters carry. -/
def codes : List Char → List Nat
  | [] => []
  | [c] => [loneCode c]
  | c :: d :: rest =>
    if c = mark && isReserved d then d.toNat :: codes rest else loneCode c :: codes (d :: rest)

/-- The characters that carry a code point. -/
def charsOf (code : Nat) : List Char :=
  if code = bareMark then [mark]
  else if isHalf code then [Char.ofNat (code + carrierDistance)]
  else if 0x10F7FF ≤ code then [mark, Char.ofNat code]
  else [Char.ofNat code]

/-- The characters that carry some code points. -/
def ofCodes (codes : List Nat) : List Char := codes.flatMap charsOf

/-- The text of characters that stand for themselves. -/
def ofChars (cs : List Char) : String := String.ofList (ofCodes (cs.map Char.toNat))

/-! ## Laws -/

theorem toNat_mark : mark.toNat = 0x10F7FF := rfl

theorem isReserved_iff {c : Char} : isReserved c = true ↔ 0x10F7FF ≤ c.toNat :=
  decide_eq_true_iff

theorem isHalf_iff {n : Nat} : isHalf n = true ↔ 0xD800 ≤ n ∧ n ≤ 0xDFFF := by
  rw [isHalf, Bool.and_eq_true, decide_eq_true_iff, decide_eq_true_iff]

theorem toNat_bounds (c : Char) : c.toNat < 0x110000 ∧ (c.toNat < 0xD800 ∨ 0xDFFF < c.toNat) := by
  have h : c.toNat < 0xD800 ∨ (0xDFFF < c.toNat ∧ c.toNat < 0x110000) := c.valid
  omega

theorem not_isHalf_toNat (c : Char) : ¬ isHalf c.toNat = true := by
  have h := toNat_bounds c
  rw [isHalf_iff]
  omega

theorem charsOf_half {n : Nat} (h : isHalf n = true) :
    charsOf n = [Char.ofNat (n + carrierDistance)] := by
  have hbare : n ≠ bareMark := by
    have := (isHalf_iff.1 h).2
    unfold bareMark
    omega
  rw [charsOf, if_neg hbare, if_pos h]

theorem charsOf_high {n : Nat} (hbare : n ≠ bareMark) (h : 0x10F7FF ≤ n) :
    charsOf n = [mark, Char.ofNat n] := by
  have hhalf : ¬ isHalf n = true := by
    rw [isHalf_iff]
    omega
  rw [charsOf, if_neg hbare, if_neg hhalf, if_pos h]

theorem charsOf_low {n : Nat} (hhalf : ¬ isHalf n = true) (h : ¬ 0x10F7FF ≤ n) :
    charsOf n = [Char.ofNat n] := by
  have hbare : n ≠ bareMark := by
    unfold bareMark
    omega
  rw [charsOf, if_neg hbare, if_neg hhalf, if_neg h]

theorem charsOf_loneCode (c : Char) : charsOf (loneCode c) = [c] := by
  have hc := toNat_bounds c
  by_cases hm : c = mark
  · rw [loneCode, if_pos hm, charsOf, if_pos rfl, hm]
  · rw [loneCode, if_neg hm]
    by_cases hr : isReserved c = true
    · have hge := isReserved_iff.1 hr
      have hne : c.toNat ≠ 0x10F7FF := fun he => hm (by
        rw [← Char.ofNat_toNat c, he, ← toNat_mark, Char.ofNat_toNat])
      have hhalf : isHalf (c.toNat - carrierDistance) = true := by
        rw [isHalf_iff]
        unfold carrierDistance
        omega
      have hback : c.toNat - carrierDistance + carrierDistance = c.toNat := by
        unfold carrierDistance
        omega
      rw [if_pos hr, charsOf_half hhalf, hback, Char.ofNat_toNat]
    · rw [if_neg hr, charsOf_low (not_isHalf_toNat c) (fun h => hr (isReserved_iff.2 h)),
        Char.ofNat_toNat]

theorem charsOf_reserved {d : Char} (h : isReserved d = true) : charsOf d.toNat = [mark, d] := by
  have hd := toNat_bounds d
  rw [charsOf_high (Nat.ne_of_lt hd.1) (isReserved_iff.1 h), Char.ofNat_toNat]

/-- The characters of a text are determined by its code points. -/
theorem ofCodes_codes (cs : List Char) : ofCodes (codes cs) = cs := by
  fun_induction codes cs with
  | case1 => rfl
  | case2 c => rw [ofCodes, List.flatMap_cons, charsOf_loneCode]; rfl
  | case3 c d rest h ih =>
    simp only [Bool.and_eq_true, decide_eq_true_eq] at h
    rw [ofCodes, List.flatMap_cons, charsOf_reserved h.2, h.1]
    exact congrArg (mark :: d :: ·) ih
  | case4 c d rest h ih =>
    rw [ofCodes, List.flatMap_cons, charsOf_loneCode]
    exact congrArg (c :: ·) ih

/-- Texts with the same code points are the same. -/
theorem codes_injective {cs ds : List Char} (h : codes cs = codes ds) : cs = ds := by
  rw [← ofCodes_codes cs, h, ofCodes_codes]

theorem codes_cons_of_ne_mark {c : Char} (h : c ≠ mark) (rest : List Char) :
    codes (c :: rest) = loneCode c :: codes rest := by
  cases rest with
  | nil => rfl
  | cons d rest => rw [codes, if_neg (by simp [h])]

theorem codes_mark_cons {d : Char} (h : isReserved d = true) (rest : List Char) :
    codes (mark :: d :: rest) = d.toNat :: codes rest := by
  rw [codes, if_pos (by simp [h])]

theorem toNat_ofNat {n : Nat} (hlt : n < bareMark) (hhalf : ¬ isHalf n = true) :
    (Char.ofNat n).toNat = n := by
  have hvalid : n.isValidChar := by
    rw [isHalf_iff] at hhalf
    unfold bareMark at hlt
    unfold Nat.isValidChar
    omega
  rw [Char.ofNat, dif_pos hvalid]
  rfl

theorem codes_charsOf_append {n : Nat} (h : n < bareMark) (rest : List Char) :
    codes (charsOf n ++ rest) = n :: codes rest := by
  by_cases hhalf : isHalf n = true
  · have hn := isHalf_iff.1 hhalf
    have hnat : (Char.ofNat (n + carrierDistance)).toNat = n + carrierDistance :=
      toNat_ofNat (by unfold carrierDistance bareMark; omega)
        (by rw [isHalf_iff]; unfold carrierDistance; omega)
    have hmark : Char.ofNat (n + carrierDistance) ≠ mark := fun he => by
      rw [he, toNat_mark] at hnat
      unfold carrierDistance at hnat
      omega
    have hreserved : isReserved (Char.ofNat (n + carrierDistance)) = true := by
      rw [isReserved_iff, hnat]
      unfold carrierDistance
      omega
    rw [charsOf_half hhalf, List.singleton_append, codes_cons_of_ne_mark hmark, loneCode,
      if_neg hmark, if_pos hreserved, hnat, Nat.add_sub_cancel]
  · have hnat := toNat_ofNat h hhalf
    by_cases hge : 0x10F7FF ≤ n
    · have hreserved : isReserved (Char.ofNat n) = true := by
        rw [isReserved_iff, hnat]
        exact hge
      rw [charsOf_high (Nat.ne_of_lt h) hge]
      exact (codes_mark_cons hreserved rest).trans (by rw [hnat])
    · have hmark : Char.ofNat n ≠ mark := fun he => by
        rw [he, toNat_mark] at hnat
        omega
      have hreserved : ¬ isReserved (Char.ofNat n) = true := by
        rw [isReserved_iff, hnat]
        exact hge
      rw [charsOf_low hhalf hge, List.singleton_append, codes_cons_of_ne_mark hmark, loneCode,
        if_neg hmark, if_neg hreserved, hnat]

/-- Every row of code points is that of a text. -/
theorem codes_ofCodes {ns : List Nat} (h : ∀ n ∈ ns, n < bareMark) : codes (ofCodes ns) = ns := by
  induction ns with
  | nil => rfl
  | cons n ns ih =>
    rw [ofCodes, List.flatMap_cons, codes_charsOf_append (h n List.mem_cons_self)]
    exact congrArg (n :: ·) (ih fun m hm => h m (List.mem_cons_of_mem n hm))

/-! ## Order -/

/-- The order of code sequences: the first place where they differ decides, and a sequence stands
before every longer one that starts with it. -/
def codesLe : List Nat → List Nat → Bool
  | [], _ => true
  | _ :: _, [] => false
  | a :: s, b :: t => if a = b then codesLe s t else decide (a < b)

/-- The order of texts: by code points. -/
def le (s t : String) : Bool := codesLe (codes s.toList) (codes t.toList)

end Patchbay.Text
