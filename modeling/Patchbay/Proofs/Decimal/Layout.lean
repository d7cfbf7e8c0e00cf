import Mathlib.Data.Bool.AllAny
import Patchbay.Json.Printer
import Patchbay.Proofs.Text.Numeral

/-!
# Written numbers

Which characters the text of a number holds. A number that is not whole-valued by kind shows it: its
text holds a point, an exponent part or letters, and that of an integer none of these.
-/

namespace Patchbay

open Text.Numeral (isAsciiDigit)

namespace Layout

variable {ds : List Char} {c : Char}

/-- A character of a number that is written with digits. -/
def IsFigure (c : Char) : Prop := isAsciiDigit c = true ∨ c ∈ ['-', '+', '.', 'e']

instance : DecidablePred IsFigure := fun _ => inferInstanceAs (Decidable (_ ∨ _))

theorem figure_of_mem_positional (hds : ∀ c ∈ ds, isAsciiDigit c = true) {place : Int}
    (h : c ∈ positional ds place) : IsFigure c := by
  have hzero : isAsciiDigit '0' = true := by decide
  have hpoint : IsFigure '.' := .inr (by decide)
  unfold positional at h
  split at h
  · simp only [List.cons_append, List.mem_cons, List.mem_append, List.mem_replicate] at h
    rcases h with rfl | rfl | ⟨_, rfl⟩ | h
    · exact .inl hzero
    · exact hpoint
    · exact .inl hzero
    · exact .inl (hds c h)
  split at h
  · simp only [List.mem_append, List.mem_replicate, List.mem_cons, List.not_mem_nil, or_false] at h
    rcases h with (h | ⟨_, rfl⟩) | rfl | rfl
    · exact .inl (hds c h)
    · exact .inl hzero
    · exact hpoint
    · exact .inl hzero
  · simp only [List.mem_append, List.mem_cons] at h
    rcases h with h | rfl | h
    · exact .inl (hds c (List.mem_of_mem_take h))
    · exact hpoint
    · exact .inl (hds c (List.mem_of_mem_drop h))

theorem point_mem_positional (ds : List Char) (place : Int) : '.' ∈ positional ds place := by
  unfold positional
  split
  · simp
  split
  · simp
  · simp

theorem figure_of_mem_scientific (hds : ∀ c ∈ ds, isAsciiDigit c = true) {e : Int}
    (h : c ∈ scientific ds e) : IsFigure c := by
  have hpart : c ∈ exponentPart e → IsFigure c := by
    intro h
    unfold exponentPart at h
    dsimp only at h
    rcases List.mem_cons.mp h with rfl | h
    · exact .inr (by decide)
    rcases List.mem_cons.mp h with rfl | h
    · refine .inr ?_
      split <;> decide
    split at h
    · rcases List.mem_cons.mp h with rfl | h
      · exact .inl (by decide)
      · exact .inl (Text.Numeral.mem_digits h)
    · exact .inl (Text.Numeral.mem_digits h)
  unfold scientific at h
  rcases List.mem_append.mp h with h | h
  · split at h
    · exact absurd h List.not_mem_nil
    · exact .inl (hds c h)
    · rcases List.mem_cons.mp h with rfl | h
      · exact .inl (hds c List.mem_cons_self)
      rcases List.mem_cons.mp h with rfl | h
      · exact .inr (by decide)
      · exact .inl (hds c (List.mem_cons_of_mem _ h))
  · exact hpart h

theorem figure_of_mem_magnitude (layout : Layout) {d : Decimal} (h : c ∈ layout.magnitude d) :
    IsFigure c := by
  have hds : ∀ c ∈ Text.Numeral.digits d.digits, isAsciiDigit c = true :=
    fun _ => Text.Numeral.mem_digits
  unfold magnitude at h
  dsimp only at h
  split at h
  · exact figure_of_mem_positional hds h
  · exact figure_of_mem_scientific hds h

theorem point_or_exponent_mem_magnitude (layout : Layout) (d : Decimal) :
    '.' ∈ layout.magnitude d ∨ 'e' ∈ layout.magnitude d := by
  unfold magnitude
  dsimp only
  split
  · exact .inl (point_mem_positional _ _)
  · exact .inr (List.mem_append_right _ List.mem_cons_self)

/-- The text of a number is a name, or digits with a point or an exponent part, behind a minus sign
or not. -/
theorem text_cases (layout : Layout) (x : Binary64) :
    layout.text x = layout.nanText ∨
    ∃ body, ((layout.text x).toList = body ∨ (layout.text x).toList = '-' :: body) ∧
      (body = layout.infinityText.toList ∨
        (∀ c ∈ body, IsFigure c) ∧ ('.' ∈ body ∨ 'e' ∈ body)) := by
  unfold text
  split
  · exact .inl rfl
  · dsimp only
    refine .inr ⟨if x.isInfinite then layout.infinityText.toList else layout.magnitude x.shortest,
      ?_, ?_⟩
    · rw [String.toList_ofList]
      cases x.negative with
      | false => exact .inl rfl
      | true => exact .inr rfl
    · cases x.isInfinite with
      | true => exact .inl rfl
      | false =>
        exact .inr ⟨fun c => figure_of_mem_magnitude layout,
          point_or_exponent_mem_magnitude layout _⟩

end Layout

namespace Json

/-- A character of a written number. -/
def IsNumeral (c : Char) : Prop := Layout.IsFigure c ∨ c ∈ "NaN".toList ++ "Infinity".toList

instance : DecidablePred IsNumeral := fun _ => inferInstanceAs (Decidable (_ ∨ _))

theorem numeral_of_mem_intText {n : Int} {c : Char} (h : c ∈ (Text.Numeral.intText n).toList) :
    IsNumeral c := by
  rcases Text.Numeral.mem_intText h with rfl | h
  · exact .inl (.inr (by decide))
  · exact .inl (.inl h)

theorem numeral_of_mem_text {x : Binary64} {c : Char} (h : c ∈ (numberLayout.text x).toList) :
    IsNumeral c := by
  have hname : c ∈ "NaN".toList ∨ c ∈ "Infinity".toList → IsNumeral c := by
    intro hc
    refine .inr ?_
    rcases hc with hc | hc
    · exact List.mem_append_left "Infinity".toList hc
    · exact List.mem_append_right "NaN".toList hc
  rcases numberLayout.text_cases x with hnan | ⟨body, htext, hbody⟩
  · rw [hnan] at h
    exact hname (.inl h)
  · have hmem : c ∈ body → IsNumeral c := by
      intro hc
      rcases hbody with rfl | ⟨hfigures, _⟩
      · exact hname (.inr hc)
      · exact .inl (hfigures c hc)
    rcases htext with htext | htext
    · exact hmem (htext ▸ h)
    · rw [htext] at h
      rcases List.mem_cons.mp h with rfl | h
      · exact .inl (.inr (by decide))
      · exact hmem h

theorem text_ne_nil (x : Binary64) : (numberLayout.text x).toList ≠ [] := by
  intro hnil
  rcases numberLayout.text_cases x with hnan | ⟨body, htext, hbody⟩
  · rw [hnan] at hnil
    exact absurd hnil (by decide)
  · have hempty : body = [] := by
      rcases htext with htext | htext
      · rw [← htext, hnil]
      · exact absurd (htext.symm.trans hnil) (by simp)
    subst hempty
    rcases hbody with hname | ⟨_, hpoint | hexponent⟩
    · exact absurd hname (by decide)
    · exact absurd hpoint List.not_mem_nil
    · exact absurd hexponent List.not_mem_nil

/-- A number that is not an integer has another text than every integer. -/
theorem text_ne_intText (x : Binary64) (n : Int) : numberLayout.text x ≠ Text.Numeral.intText n := by
  intro heq
  have hint : ∀ c ∈ (numberLayout.text x).toList, c = '-' ∨ isAsciiDigit c = true := by
    rw [heq]
    exact fun _ => Text.Numeral.mem_intText
  have hno : ∀ c, c ∈ ['.', 'e', 'N', 'I'] → c ∉ (numberLayout.text x).toList := by
    intro c hc hmem
    have hboth : ∀ c ∈ ['.', 'e', 'N', 'I'], ¬ (c = '-' ∨ isAsciiDigit c = true) :=
      List.all_iff_forall_prop.mp (by decide)
    exact hboth c hc (hint c hmem)
  rcases numberLayout.text_cases x with hnan | ⟨body, htext, hbody⟩
  · exact hno 'N' (by decide) (by rw [hnan]; decide)
  · have hmem : ∀ c ∈ body, c ∈ (numberLayout.text x).toList := by
      intro c hc
      rcases htext with htext | htext
      · exact htext ▸ hc
      · exact htext ▸ List.mem_cons_of_mem _ hc
    rcases hbody with rfl | ⟨_, hpoint | hexponent⟩
    · exact hno 'I' (by decide) (hmem _ (by decide))
    · exact hno '.' (by decide) (hmem _ hpoint)
    · exact hno 'e' (by decide) (hmem _ hexponent)

end Json

end Patchbay
