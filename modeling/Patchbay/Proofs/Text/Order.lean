import Patchbay.Text.CodePoint

/-!
# The order of texts

Texts are ordered by their code points. The order is total (`le_total`), and two texts that stand
before each other are the same (`le_antisymm`). `Before` is its strict part.
-/

namespace Patchbay.Text

/-! ## Code points -/

theorem codesLe_cons_iff {x y : Nat} {a b : List Nat} :
    codesLe (x :: a) (y :: b) = true ↔ x < y ∨ x = y ∧ codesLe a b = true := by
  by_cases h : x = y
  · subst h
    simp [codesLe]
  · simp [codesLe, h]

theorem codesLe_refl (a : List Nat) : codesLe a a = true := by
  induction a with
  | nil => rfl
  | cons x a ih => exact codesLe_cons_iff.mpr (.inr ⟨rfl, ih⟩)

theorem codesLe_total (a b : List Nat) : codesLe a b = true ∨ codesLe b a = true := by
  induction a generalizing b with
  | nil => exact .inl rfl
  | cons x a ih =>
    cases b with
    | nil => exact .inr rfl
    | cons y b =>
      rw [codesLe_cons_iff, codesLe_cons_iff]
      rcases Nat.lt_trichotomy x y with h | h | h
      · exact .inl (.inl h)
      · exact (ih b).imp (fun hab => .inr ⟨h, hab⟩) (fun hba => .inr ⟨h.symm, hba⟩)
      · exact .inr (.inl h)

theorem codesLe_trans {a b c : List Nat} (hab : codesLe a b = true) (hbc : codesLe b c = true) :
    codesLe a c = true := by
  induction a generalizing b c with
  | nil => rfl
  | cons x a ih =>
    cases b with
    | nil => exact absurd hab (by simp [codesLe])
    | cons y b =>
      cases c with
      | nil => exact absurd hbc (by simp [codesLe])
      | cons z c =>
        rw [codesLe_cons_iff] at hab hbc ⊢
        rcases hab with hxy | ⟨rfl, hab⟩ <;> rcases hbc with hyz | ⟨rfl, hbc⟩
        · exact .inl (Nat.lt_trans hxy hyz)
        · exact .inl hxy
        · exact .inl hyz
        · exact .inr ⟨rfl, ih hab hbc⟩

theorem codesLe_antisymm {a b : List Nat} (hab : codesLe a b = true) (hba : codesLe b a = true) :
    a = b := by
  induction a generalizing b with
  | nil =>
    cases b with
    | nil => rfl
    | cons y b => exact absurd hba (by simp [codesLe])
  | cons x a ih =>
    cases b with
    | nil => exact absurd hab (by simp [codesLe])
    | cons y b =>
      rw [codesLe_cons_iff] at hab hba
      rcases hab with hxy | ⟨rfl, hab⟩
      · rcases hba with hyx | ⟨rfl, _⟩ <;> omega
      · rcases hba with hxx | ⟨_, hba⟩
        · exact absurd hxx (Nat.lt_irrefl x)
        · rw [ih hab hba]

/-! ## Texts -/

theorem le_refl (s : String) : le s s = true := codesLe_refl _

theorem le_total (s t : String) : le s t = true ∨ le t s = true := codesLe_total _ _

theorem le_trans {s t u : String} (hst : le s t = true) (htu : le t u = true) : le s u = true :=
  codesLe_trans hst htu

theorem le_antisymm {s t : String} (hst : le s t = true) (hts : le t s = true) : s = t :=
  String.toList_inj.mp (codes_injective (codesLe_antisymm hst hts))

/-- The strict order of texts by code points. -/
def Before (s t : String) : Prop := le s t = true ∧ s ≠ t

theorem Before.trans {s t u : String} (hst : Before s t) (htu : Before t u) : Before s u := by
  refine ⟨le_trans hst.1 htu.1, ?_⟩
  rintro rfl
  exact hst.2 (le_antisymm hst.1 htu.1)

theorem before_trichotomy (s t : String) : Before s t ∨ s = t ∨ Before t s := by
  by_cases heq : s = t
  · exact .inr (.inl heq)
  · rcases le_total s t with h | h
    · exact .inl ⟨h, heq⟩
    · exact .inr (.inr ⟨h, Ne.symm heq⟩)

end Patchbay.Text
