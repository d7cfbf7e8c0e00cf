import Patchbay.Text.LetterCase
import Patchbay.Text.Split

/-!
# Characters of a text

What a test says of all ASCII characters is read off their codes (`forall_ascii`). The parts of a
text that is split are free of the separator, and lower-casing makes a slash of nothing else
(`slash_mem_of_mem_lower`).
-/

namespace Patchbay.Text

theorem forall_ascii {P : Char → Prop} (h : ∀ n : Fin 128, P (Char.ofNat n)) {c : Char}
    (hc : c.toNat < 128) : P c := by
  have hcode := h ⟨c.toNat, hc⟩
  rwa [Char.ofNat_toNat] at hcode

/-! ## Parts -/

theorem not_mem_of_mem_splitAtChar {sep : Char} {cs part : List Char}
    (h : part ∈ splitAtChar sep cs) : sep ∉ part := by
  induction cs generalizing part with
  | nil =>
    obtain rfl := List.mem_singleton.mp h
    exact List.not_mem_nil
  | cons c rest ih =>
    obtain ⟨first, parts, hsplit⟩ := List.exists_cons_of_ne_nil (splitAtChar_ne_nil sep rest)
    rw [splitAtChar] at h
    split at h
    · rcases List.mem_cons.mp h with rfl | h
      · exact List.not_mem_nil
      · exact ih h
    · next hc =>
      rw [hsplit] at h ih
      rcases List.mem_cons.mp h with rfl | h
      · exact fun hmem => (List.mem_cons.mp hmem).elim (Ne.symm hc) (ih List.mem_cons_self)
      · exact ih (List.mem_cons_of_mem _ h)

theorem not_mem_lastSegment (sep : Char) (s : String) : sep ∉ (lastSegment sep s).toList := by
  unfold lastSegment
  rw [String.toList_ofList, List.getLastD_eq_getLast?,
    List.getLast?_eq_some_getLast (splitAtChar_ne_nil sep s.toList)]
  exact not_mem_of_mem_splitAtChar (List.getLast_mem _)

/-! ## Lower case -/

/-- No run shifts a letter down to the slash. -/
theorem slash_lt_of_mem_lowerRuns :
    ∀ run ∈ lowerRuns, ('/'.toNat : Int) < run.first + run.shift := by
  decide +kernel

theorem ofNat_ne_slash {code : Nat} (h : '/'.toNat < code) : Char.ofNat code ≠ '/' := by
  intro hslash
  by_cases hvalid : code.isValidChar
  · have hcode : (Char.ofNat code).toNat = code := by
      rw [Char.ofNat, dif_pos hvalid]
      rfl
    rw [hslash] at hcode
    omega
  · rw [Char.ofNat, dif_neg hvalid] at hslash
    exact absurd hslash (by decide)

theorem shiftBy_lowerRuns_ne_slash {c : Char} (hc : c ≠ '/') : shiftBy lowerRuns c ≠ '/' := by
  unfold shiftBy
  split
  · next run hrun =>
    have hslash := slash_lt_of_mem_lowerRuns run (List.mem_of_find?_eq_some hrun)
    have hholds := List.find?_some hrun
    simp only [CaseRun.holds, Bool.and_eq_true, decide_eq_true_eq] at hholds
    refine ofNat_ne_slash ?_
    omega
  · exact hc

theorem slash_mem_of_mem_lowerFrom {before cs : List Char} (h : '/' ∈ lowerFrom before cs) :
    '/' ∈ cs := by
  induction cs generalizing before with
  | nil => exact h
  | cons c rest ih =>
    by_cases hc : c = '/'
    · exact hc ▸ List.mem_cons_self
    refine List.mem_cons_of_mem _ ?_
    rcases List.mem_append.mp h with h | h
    · exfalso
      split at h
      · next hascii =>
        have hlower : c ≠ '/' → '/' ≠ c.toLower :=
          forall_ascii (P := fun c => c ≠ '/' → '/' ≠ c.toLower) (by decide) hascii
        exact hlower hc (List.mem_singleton.mp h)
      · split at h
        · split at h
          · exact absurd h (by decide)
          · exact absurd h (by decide)
        · split at h
          · exact absurd h (by decide)
          · exact shiftBy_lowerRuns_ne_slash hc (List.mem_singleton.mp h).symm
    · exact ih h

/-- A text in lower case has no slashes but those of the text. -/
theorem slash_mem_of_mem_lower {s : String} (h : '/' ∈ (lower s).toList) : '/' ∈ s.toList := by
  rw [lower, String.toList_ofList] at h
  exact slash_mem_of_mem_lowerFrom h

end Patchbay.Text
