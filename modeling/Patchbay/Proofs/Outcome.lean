/-!
# Chains of steps that may fail

A chain of two steps succeeds if both do. Two computations agree (`Agree`) if both succeed or both
fail, and what they come to corresponds; chains of steps that agree do so too. They go `Together` if
only the results have to correspond. One `Narrows` another if it comes to the same or else fails with
a cause of a sort. A computation `FailsOnly` in ways of a sort if every cause it can fail with is of
that sort.
-/

namespace Patchbay

universe u v
variable {ε : Type u} {α β : Type v}

theorem bind_eq_ok {x : Except ε α} {f : α → Except ε β} {b : β} :
    x >>= f = .ok b ↔ ∃ a, x = .ok a ∧ f a = .ok b := by
  cases x with
  | error cause => simp [bind, Except.bind]
  | ok a => simp [bind, Except.bind]

theorem map_eq_ok {x : Except ε α} {f : α → β} {b : β} :
    x.map f = .ok b ↔ ∃ a, x = .ok a ∧ f a = b := by
  cases x with
  | error cause => simp [Except.map]
  | ok a => simp [Except.map]

theorem pure_eq_ok {a b : α} : (pure a : Except ε α) = .ok b ↔ a = b := by
  simp [pure, Except.pure]

/-! ## Causes of failures -/

/-- Whatever the computation fails with is of this sort. -/
def FailsOnly (E : ε → Prop) (x : Except ε α) : Prop := ∀ cause, x = .error cause → E cause

namespace FailsOnly

variable {E : ε → Prop} {x : Except ε α}

theorem ok (a : α) : FailsOnly E (.ok a : Except ε α) := fun _ h => absurd h (by simp)

theorem error {cause : ε} (h : E cause) : FailsOnly E (.error cause : Except ε α) := by
  intro cause' hcause
  exact Except.error.inj hcause ▸ h

theorem bind {f : α → Except ε β} (h : FailsOnly E x)
    (hf : ∀ a, x = .ok a → FailsOnly E (f a)) : FailsOnly E (x >>= f) := by
  cases x with
  | error cause => exact error (h cause rfl)
  | ok a => exact hf a rfl

theorem mono {E' : ε → Prop} (h : FailsOnly E x) (hE : ∀ cause, E cause → E' cause) :
    FailsOnly E' x :=
  fun cause hcause => hE cause (h cause hcause)

end FailsOnly

/-! ## Two computations -/

/-- Two computations come to the same: both succeed, with results that correspond, or both fail,
with causes that correspond. -/
inductive Agree {ε' : Type u} (E : ε → ε' → Prop) (R : α → β → Prop) :
    Except ε α → Except ε' β → Prop
  | ok {a : α} {b : β} (h : R a b) : Agree E R (.ok a) (.ok b)
  | error {x : ε} {y : ε'} (h : E x y) : Agree E R (.error x) (.error y)

namespace Agree

variable {ε' : Type u} {E : ε → ε' → Prop} {R : α → β → Prop} {x : Except ε α} {y : Except ε' β}

theorem bind {γ δ : Type v} {S : γ → δ → Prop} {f : α → Except ε γ} {g : β → Except ε' δ}
    (h : Agree E R x y) (hfg : ∀ a b, R a b → Agree E S (f a) (g b)) :
    Agree E S (x >>= f) (y >>= g) := by
  cases h with
  | ok h => exact hfg _ _ h
  | error h => exact .error h

theorem map {γ δ : Type v} {S : γ → δ → Prop} {f : α → γ} {g : β → δ}
    (h : Agree E R x y) (hfg : ∀ a b, R a b → S (f a) (g b)) : Agree E S (x.map f) (y.map g) := by
  cases h with
  | ok h => exact .ok (hfg _ _ h)
  | error h => exact .error h

theorem of_eq {x y : Except ε α} (h : x = y) : Agree Eq Eq x y := by
  subst h
  cases x with
  | ok a => exact .ok rfl
  | error cause => exact .error rfl

theorem same {E : ε → ε → Prop} (hE : ∀ cause, E cause cause) {x : Except ε α} :
    Agree E Eq x x := by
  cases x with
  | ok a => exact .ok rfl
  | error cause => exact .error (hE cause)

/-- Computations that agree up to nothing are the same. -/
theorem eq {x y : Except ε α} (h : Agree Eq Eq x y) : x = y := by
  cases h with
  | ok h => rw [h]
  | error h => rw [h]

theorem imp {E' : ε → ε' → Prop} {R' : α → β → Prop} (h : Agree E R x y)
    (hE : ∀ c d, E c d → E' c d) (hR : ∀ a b, R a b → R' a b) : Agree E' R' x y := by
  cases h with
  | ok h => exact .ok (hR _ _ h)
  | error h => exact .error (hE _ _ h)

/-- The results that correspond are what the computations come to. -/
theorem results (h : Agree E R x y) :
    Agree E (fun a b => R a b ∧ x = .ok a ∧ y = .ok b) x y := by
  cases h with
  | ok h => exact .ok ⟨h, rfl, rfl⟩
  | error h => exact .error h

theorem trans {ε'' : Type u} {γ : Type v} {E' : ε' → ε'' → Prop} {S : β → γ → Prop}
    {z : Except ε'' γ} (h : Agree E R x y) (h' : Agree E' S y z) :
    Agree (fun a c => ∃ b, E a b ∧ E' b c) (fun a c => ∃ b, R a b ∧ S b c) x z := by
  cases h with
  | ok h =>
    cases h' with
    | ok h' => exact .ok ⟨_, h, h'⟩
  | error h =>
    cases h' with
    | error h' => exact .error ⟨_, h, h'⟩

end Agree

/-- Two computations both succeed, with results that correspond, or both fail. -/
abbrev Together {ε' : Type u} (R : α → β → Prop) : Except ε α → Except ε' β → Prop :=
  Agree (fun _ _ => True) R

namespace Together

variable {ε' : Type u} {R : α → β → Prop} {x : Except ε α} {y : Except ε' β}

theorem error {cause : ε} {cause' : ε'} :
    Together R (Except.error cause : Except ε α) (Except.error cause' : Except ε' β) :=
  Agree.error trivial

theorem same (x : Except ε α) : Together Eq x x := Agree.same fun _ => trivial

theorem of_ok (h : ∀ a, x = .ok a → ∃ b, y = .ok b ∧ R a b)
    (h' : ∀ b, y = .ok b → ∃ a, x = .ok a) : Together R x y := by
  cases x with
  | ok a =>
    obtain ⟨b, rfl, hab⟩ := h a rfl
    exact .ok hab
  | error _ =>
    cases y with
    | ok b =>
      obtain ⟨a, ha⟩ := h' b rfl
      exact absurd ha (by simp)
    | error _ => exact .error

theorem mono {S : α → β → Prop} (h : Together R x y) (hrs : ∀ a b, R a b → S a b) :
    Together S x y :=
  h.imp (fun _ _ _ => trivial) hrs

theorem trans {ε'' : Type u} {γ : Type v} {S : β → γ → Prop} {z : Except ε'' γ}
    (h : Together R x y) (h' : Together S y z) :
    Together (fun a c => ∃ b, R a b ∧ S b c) x z :=
  (Agree.trans h h').imp (fun _ _ _ => trivial) fun _ _ => id

end Together

/-- The first computation comes to what the second one comes to, or it fails with a cause of this
sort. -/
def Narrows (E : ε → Prop) (x y : Except ε α) : Prop := x = y ∨ ∃ cause, E cause ∧ x = .error cause

namespace Narrows

variable {E : ε → Prop} {x y : Except ε α}

theorem refl (x : Except ε α) : Narrows E x x := .inl rfl

theorem error {cause : ε} (h : E cause) : Narrows E (.error cause) y := .inr ⟨cause, h, rfl⟩

theorem map (h : Narrows E x y) (f : α → β) : Narrows E (x.map f) (y.map f) := by
  rcases h with rfl | ⟨cause, hcause, rfl⟩
  · exact .refl _
  · exact .error hcause

end Narrows

end Patchbay
