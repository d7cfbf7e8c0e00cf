import Mathlib.Data.List.Nodup
import Patchbay.Flat.Binding
import Patchbay.Proofs.Text.Order

/-!
# The order of links

Flat links are ordered by source, source pin, target and target pin (`FlatLink.Before`), and links
that leave a node by target and target pin (`OutLink.Before`). Links that are all different ascend
strictly once they are sorted (`pairwise_before`).
-/

namespace Patchbay

/-- A list of which repetitions are erased holds each entry once. -/
theorem nodup_eraseDups {α : Type} [DecidableEq α] : ∀ entries : List α, entries.eraseDups.Nodup
  | [] => List.nodup_nil
  | head :: rest => by
    have hothers := nodup_eraseDups (rest.filter fun entry => !entry == head)
    rw [List.eraseDups_cons]
    exact .cons (by simp) hothers
termination_by entries => entries.length
decreasing_by
  have := rest.length_filter_le fun entry => !entry == head
  simp only [List.length_cons]
  omega

/-- Entries that are all different ascend strictly once they are sorted. -/
theorem pairwise_mergeSort_strict {α : Type} {le : α → α → Bool} {before : α → α → Prop}
    (hle : ∀ a b, le a b = true ↔ before a b ∨ a = b)
    (htrans : ∀ a b c, before a b → before b c → before a c)
    (htotal : ∀ a b, before a b ∨ a = b ∨ before b a) {entries : List α} (h : entries.Nodup) :
    (entries.mergeSort le).Pairwise before := by
  have le_trans : ∀ a b c, le a b = true → le b c = true → le a c = true := by
    intro a b c hab hbc
    rw [hle] at *
    rcases hab with hab | rfl
    · rcases hbc with hbc | rfl
      · exact .inl (htrans a b c hab hbc)
      · exact .inl hab
    · exact hbc
  have le_total : ∀ a b, (le a b || le b a) = true := by
    intro a b
    rw [Bool.or_eq_true, hle, hle]
    rcases htotal a b with h | h | h
    · exact .inl (.inl h)
    · exact .inl (.inr h)
    · exact .inr (.inl h)
  have hsorted := List.pairwise_mergeSort le_trans le_total entries
  have hnodup : (entries.mergeSort le).Nodup := (List.mergeSort_perm entries le).nodup_iff.mpr h
  refine (hsorted.and hnodup).imp fun ⟨hab, hne⟩ => ?_
  exact ((hle _ _).mp hab).resolve_right hne

namespace FlatLink

/-- The strict order of flat links. -/
def Before (a b : FlatLink) : Prop :=
  a.source < b.source ∨ a.source = b.source ∧
    (Text.Before a.sourcePin b.sourcePin ∨ a.sourcePin = b.sourcePin ∧
      (a.target < b.target ∨ a.target = b.target ∧ Text.Before a.targetPin b.targetPin))

variable {a b c : FlatLink}

theorem le_iff : a.le b = true ↔ Before a b ∨ a = b := by
  obtain ⟨source, sourcePin, target, targetPin⟩ := a
  obtain ⟨source', sourcePin', target', targetPin'⟩ := b
  unfold le Before
  dsimp only
  by_cases hs : source = source'
  · subst hs
    by_cases hp : sourcePin = sourcePin'
    · subst hp
      by_cases ht : target = target'
      · subst ht
        by_cases hq : targetPin = targetPin'
        · simp [hq, Text.le_refl]
        · simp [Text.Before, hq]
      · simp [ht, Text.Before]
    · simp [hp, Text.Before]
  · simp [hs]

theorem Before.trans (hab : Before a b) (hbc : Before b c) : Before a c := by
  unfold Before at *
  rcases hab with hab | ⟨hab, hab'⟩
  · rcases hbc with hbc | ⟨hbc, _⟩
    · exact .inl (by omega)
    · exact .inl (by omega)
  rcases hbc with hbc | ⟨hbc, hbc'⟩
  · exact .inl (by omega)
  refine .inr ⟨hab.trans hbc, ?_⟩
  rcases hab' with hab | ⟨hab, hab'⟩
  · rcases hbc' with hbc | ⟨hbc, _⟩
    · exact .inl (hab.trans hbc)
    · exact .inl (hbc ▸ hab)
  rcases hbc' with hbc | ⟨hbc, hbc'⟩
  · exact .inl (hab ▸ hbc)
  refine .inr ⟨hab.trans hbc, ?_⟩
  rcases hab' with hab | ⟨hab, hab'⟩
  · rcases hbc' with hbc | ⟨hbc, _⟩
    · exact .inl (by omega)
    · exact .inl (by omega)
  rcases hbc' with hbc | ⟨hbc, hbc'⟩
  · exact .inl (by omega)
  · exact .inr ⟨hab.trans hbc, hab'.trans hbc'⟩

theorem before_total (a b : FlatLink) : Before a b ∨ a = b ∨ Before b a := by
  obtain ⟨source, sourcePin, target, targetPin⟩ := a
  obtain ⟨source', sourcePin', target', targetPin'⟩ := b
  unfold Before
  dsimp only
  rcases Int.lt_trichotomy source source' with hs | rfl | hs
  · exact .inl (.inl hs)
  · rcases Text.before_trichotomy sourcePin sourcePin' with hp | rfl | hp
    · exact .inl (.inr ⟨rfl, .inl hp⟩)
    · rcases Int.lt_trichotomy target target' with ht | rfl | ht
      · exact .inl (.inr ⟨rfl, .inr ⟨rfl, .inl ht⟩⟩)
      · rcases Text.before_trichotomy targetPin targetPin' with hq | rfl | hq
        · exact .inl (.inr ⟨rfl, .inr ⟨rfl, .inr ⟨rfl, hq⟩⟩⟩)
        · exact .inr (.inl rfl)
        · exact .inr (.inr (.inr ⟨rfl, .inr ⟨rfl, .inr ⟨rfl, hq⟩⟩⟩))
      · exact .inr (.inr (.inr ⟨rfl, .inr ⟨rfl, .inl ht⟩⟩))
    · exact .inr (.inr (.inr ⟨rfl, .inl hp⟩))
  · exact .inr (.inr (.inl hs))

/-- Sorted links that are all different ascend strictly. -/
theorem pairwise_before {links : List FlatLink} (h : links.Nodup) :
    (links.mergeSort le).Pairwise Before :=
  pairwise_mergeSort_strict (fun _ _ => le_iff) (fun _ _ _ => Before.trans) before_total h

end FlatLink

namespace OutLink

/-- The strict order of the links that leave a node. -/
def Before (a b : OutLink) : Prop := a.node < b.node ∨ a.node = b.node ∧ Text.Before a.key b.key

variable {a b c : OutLink}

theorem le_iff : a.le b = true ↔ Before a b ∨ a = b := by
  obtain ⟨node, key⟩ := a
  obtain ⟨node', key'⟩ := b
  unfold le Before
  dsimp only
  by_cases hn : node = node'
  · subst hn
    by_cases hk : key = key'
    · simp [hk, Text.le_refl]
    · simp [Text.Before, hk]
  · simp [hn]

theorem Before.trans (hab : Before a b) (hbc : Before b c) : Before a c := by
  unfold Before at *
  rcases hab with hab | ⟨hab, hab'⟩
  · rcases hbc with hbc | ⟨hbc, _⟩
    · exact .inl (by omega)
    · exact .inl (by omega)
  rcases hbc with hbc | ⟨hbc, hbc'⟩
  · exact .inl (by omega)
  · exact .inr ⟨hab.trans hbc, hab'.trans hbc'⟩

theorem Before.ne (h : Before a b) : a ≠ b := by
  rintro rfl
  rcases h with h | ⟨_, _, hne⟩
  · exact absurd h (Int.lt_irrefl _)
  · exact hne rfl

theorem before_total (a b : OutLink) : Before a b ∨ a = b ∨ Before b a := by
  obtain ⟨node, key⟩ := a
  obtain ⟨node', key'⟩ := b
  unfold Before
  dsimp only
  rcases Int.lt_trichotomy node node' with hn | rfl | hn
  · exact .inl (.inl hn)
  · rcases Text.before_trichotomy key key' with hk | rfl | hk
    · exact .inl (.inr ⟨rfl, hk⟩)
    · exact .inr (.inl rfl)
    · exact .inr (.inr (.inr ⟨rfl, hk⟩))
  · exact .inr (.inr (.inl hn))

theorem pairwise_before {links : List OutLink} (h : links.Nodup) :
    (links.mergeSort le).Pairwise Before :=
  pairwise_mergeSort_strict (fun _ _ => le_iff) (fun _ _ _ => Before.trans) before_total h

end OutLink

end Patchbay
