import Patchbay.Text.Numeral

/-!
# Written integers

An integer is determined by its text (`intText_injective`), and its text holds nothing but ASCII
digits behind a minus sign (`mem_intText`). Without the sign it is a numeral, which is read as the
integer (`value_intText`). A run of characters of a kind ends where another one follows
(`takeWhile_append_stop`).
-/

namespace Patchbay.Text

section Runs

variable {p : Char → Bool} {run rest : List Char}

/-- A run ends at the first character that does not belong to it. -/
theorem takeWhile_append_stop (hrun : ∀ c ∈ run, p c = true)
    (hstop : ∀ c ∈ rest.head?, p c = false) : (run ++ rest).takeWhile p = run := by
  rw [List.takeWhile_append_of_pos hrun]
  cases rest with
  | nil => exact List.append_nil run
  | cons c rest => rw [List.takeWhile_cons, hstop c rfl, if_neg Bool.false_ne_true, List.append_nil]

theorem dropWhile_append_stop (hrun : ∀ c ∈ run, p c = true)
    (hstop : ∀ c ∈ rest.head?, p c = false) : (run ++ rest).dropWhile p = rest := by
  rw [List.dropWhile_append_of_pos hrun]
  cases rest with
  | nil => rfl
  | cons c rest => rw [List.dropWhile_cons, hstop c rfl, if_neg Bool.false_ne_true]

end Runs

namespace Numeral

theorem isAsciiDigit_digitChar {n : Nat} (h : n < 10) : isAsciiDigit (digitChar n) = true := by
  have : ∀ m : Fin 10, isAsciiDigit (digitChar m) = true := by decide
  exact this ⟨n, h⟩

theorem mem_digits {n : Nat} {c : Char} (h : c ∈ digits n) : isAsciiDigit c = true := by
  fun_induction digits n with
  | case1 n hn =>
    rw [List.mem_singleton] at h
    exact h ▸ isAsciiDigit_digitChar hn
  | case2 n hn ih =>
    rcases List.mem_append.mp h with h | h
    · exact ih h
    · rw [List.mem_singleton] at h
      exact h ▸ isAsciiDigit_digitChar (Nat.mod_lt n (by omega))

theorem digits_ne_nil (n : Nat) : digits n ≠ [] := by
  unfold digits
  split
  · exact List.cons_ne_nil _ _
  · exact List.append_ne_nil_of_right_ne_nil _ (List.cons_ne_nil _ _)

theorem digits_injective {m n : Nat} (h : digits m = digits n) : m = n := by
  rw [← value_digits m, h, value_digits]

theorem toList_intText (n : Int) :
    (intText n).toList = if n < 0 then '-' :: digits n.natAbs else digits n.natAbs := by
  unfold intText natText
  split <;> simp

theorem mem_intText {n : Int} {c : Char} (h : c ∈ (intText n).toList) :
    c = '-' ∨ isAsciiDigit c = true := by
  rw [toList_intText] at h
  split at h
  · exact (List.mem_cons.mp h).imp_right mem_digits
  · exact .inr (mem_digits h)

theorem head_digits_ne (n : Nat) (rest : List Char) : digits n ≠ '-' :: rest := by
  intro h
  have : isAsciiDigit '-' = true := mem_digits (h ▸ List.mem_cons_self)
  exact absurd this (by decide)

theorem intText_injective {m n : Int} (h : intText m = intText n) : m = n := by
  have h := congrArg String.toList h
  rw [toList_intText, toList_intText] at h
  split at h <;> split at h
  · have := digits_injective (List.cons.inj h).2
    omega
  · exact absurd h.symm (head_digits_ne _ _)
  · exact absurd h (head_digits_ne _ _)
  · have := digits_injective h
    omega

/-! ## Integers without a sign -/

/-- The text of an integer is a numeral just where it has no sign. -/
theorem isAsciiNumeral_intText_iff {n : Int} : isAsciiNumeral (intText n) = true ↔ 0 ≤ n := by
  unfold isAsciiNumeral
  rw [toList_intText]
  split
  · next hneg =>
    have hsign : isAsciiDigit '-' = false := by decide
    simp only [List.all_cons, hsign, Bool.false_and, Bool.and_false, Bool.false_eq_true, false_iff]
    omega
  · next hpos =>
    have hdigits : (digits n.natAbs).all isAsciiDigit = true :=
      List.all_eq_true.mpr fun c hc => mem_digits hc
    rw [hdigits, List.isEmpty_eq_false_iff.mpr (digits_ne_nil _)]
    simpa using hpos

theorem value_intText {n : Int} (h : 0 ≤ n) : (value (intText n).toList : Int) = n := by
  rw [toList_intText, if_neg (Int.not_lt.mpr h), value_digits]
  omega

end Numeral

end Patchbay.Text
