import Mathlib.Data.List.Nodup

/-!
# Lists of entries

What is found under a key is an entry of that key, and where each key is there once it is the only
one (`find?_eq_some_iff`, `lookup_eq_some_iff`). Of two lists that match entry by entry, each entry
of one has a partner in the other (`exists_left`, `exists_right`). A list that is cut at its first
separator has one part before it (`append_stop_inj`, `append_separator_inj`).
-/

namespace Patchbay.Keyed

variable {α κ : Type} [DecidableEq κ] {key : α → κ} {entries : List α} {k : κ} {a : α}

theorem mem_of_find? (h : entries.find? (fun a => key a = k) = some a) :
    a ∈ entries ∧ key a = k :=
  ⟨List.mem_of_find?_eq_some h, by simpa using List.find?_some h⟩

theorem find?_isSome_iff :
    (entries.find? fun a => key a = k).isSome = true ↔ ∃ a ∈ entries, key a = k := by
  simp [List.find?_isSome]

theorem exists_find? (h : k ∈ entries.map key) :
    ∃ a ∈ entries, entries.find? (fun a => key a = k) = some a ∧ key a = k := by
  obtain ⟨known, hknown, hkey⟩ := List.mem_map.mp h
  obtain ⟨a, ha⟩ := Option.isSome_iff_exists.mp (find?_isSome_iff.mpr ⟨known, hknown, hkey⟩)
  obtain ⟨hmem, hk⟩ := mem_of_find? ha
  exact ⟨a, hmem, ha, hk⟩

theorem find?_eq_some_iff
    (hkeys : ∀ a ∈ entries, ∀ b ∈ entries, key a = key b → a = b) :
    entries.find? (fun a => key a = k) = some a ↔ a ∈ entries ∧ key a = k := by
  refine ⟨mem_of_find?, fun ⟨ha, hk⟩ => ?_⟩
  obtain ⟨b, hb⟩ := Option.isSome_iff_exists.mp (find?_isSome_iff.mpr ⟨a, ha, hk⟩)
  obtain ⟨hmem, hkb⟩ := mem_of_find? hb
  rw [hb, hkeys b hmem a ha (hkb.trans hk.symm)]

theorem mem_of_lookup {β : Type} {table : List (κ × β)} {b : β} (h : table.lookup k = some b) :
    (k, b) ∈ table := by
  obtain ⟨before, after, rfl, _⟩ := List.lookup_eq_some_iff.mp h
  exact List.mem_append_right _ List.mem_cons_self

theorem lookup_eq_some_iff {β : Type} {table : List (κ × β)} {b : β}
    (hn : (table.map Prod.fst).Nodup) : table.lookup k = some b ↔ (k, b) ∈ table := by
  refine ⟨mem_of_lookup, fun h => ?_⟩
  induction table with
  | nil => exact absurd h List.not_mem_nil
  | cons head rest ih =>
    rw [List.map_cons, List.nodup_cons] at hn
    rcases List.mem_cons.mp h with rfl | h
    · exact List.lookup_cons_self
    · have hne : k ≠ head.1 := fun heq => hn.1 (heq ▸ List.mem_map_of_mem h)
      rw [List.lookup_cons, beq_false_of_ne hne]
      exact ih hn.2 h

/-- Entries sorted by whole numbers ascend. -/
theorem pairwise_mergeSort_le (key : α → Int) (entries : List α) :
    (entries.mergeSort fun a b => key a ≤ key b).Pairwise fun a b => key a ≤ key b := by
  have hsorted := @List.pairwise_mergeSort _ (fun a b => decide (key a ≤ key b))
    (fun a b c hab hbc => by
      rw [decide_eq_true_eq] at *
      exact Int.le_trans hab hbc)
    (fun a b => by
      rw [Bool.or_eq_true, decide_eq_true_eq, decide_eq_true_eq]
      exact Int.le_total _ _) entries
  exact hsorted.imp fun h => of_decide_eq_true h

end Patchbay.Keyed

namespace Patchbay.Matched

variable {α β : Type} {R : α → β → Prop} {l : List α} {m : List β}

theorem exists_right (h : List.Forall₂ R l m) {a : α} (ha : a ∈ l) : ∃ b ∈ m, R a b := by
  induction h with
  | nil => exact absurd ha List.not_mem_nil
  | cons hr _ ih =>
    rcases List.mem_cons.mp ha with rfl | ha
    · exact ⟨_, List.mem_cons_self, hr⟩
    · obtain ⟨b, hb, hr⟩ := ih ha
      exact ⟨b, List.mem_cons_of_mem _ hb, hr⟩

theorem exists_left (h : List.Forall₂ R l m) {b : β} (hb : b ∈ m) : ∃ a ∈ l, R a b :=
  exists_right h.flip hb

theorem map_eq {γ : Type} {f : α → γ} {g : β → γ} (h : List.Forall₂ R l m)
    (hfg : ∀ a b, R a b → f a = g b) : l.map f = m.map g := by
  induction h with
  | nil => rfl
  | cons hr _ ih => rw [List.map_cons, List.map_cons, hfg _ _ hr, ih]

end Patchbay.Matched

namespace Patchbay

/-- What stands before the first stop is determined by the whole. -/
theorem append_stop_inj {α : Type} {stop : α → Bool} {a b s t : List α}
    (ha : ∀ x ∈ a, stop x = false) (hb : ∀ x ∈ b, stop x = false)
    (hs : ∀ x ∈ s.head?, stop x = true) (ht : ∀ x ∈ t.head?, stop x = true)
    (h : a ++ s = b ++ t) : a = b ∧ s = t := by
  induction a generalizing b with
  | nil =>
    cases b with
    | nil => exact ⟨rfl, h⟩
    | cons y b =>
      have hy := hs y (by rw [show s = y :: (b ++ t) from h]; rfl)
      exact absurd (hy.symm.trans (hb y List.mem_cons_self)) (by decide)
  | cons x a ih =>
    cases b with
    | nil =>
      have hx := ht x (by rw [← show x :: (a ++ s) = t from h]; rfl)
      exact absurd (hx.symm.trans (ha x List.mem_cons_self)) (by decide)
    | cons y b =>
      obtain ⟨rfl, htail⟩ := List.cons.inj h
      obtain ⟨rfl, hrest⟩ := ih (fun z hz => ha z (List.mem_cons_of_mem _ hz))
        (fun z hz => hb z (List.mem_cons_of_mem _ hz)) htail
      exact ⟨rfl, hrest⟩

/-- What stands before the first separator is determined by the whole. -/
theorem append_separator_inj {α : Type} [DecidableEq α] {sep : α} {a b s t : List α}
    (ha : sep ∉ a) (hb : sep ∉ b) (h : a ++ sep :: s = b ++ sep :: t) : a = b ∧ s = t := by
  have hbare : ∀ {l : List α}, sep ∉ l → ∀ x ∈ l, decide (x = sep) = false := by
    intro l hl x hx
    rw [decide_eq_false_iff_not]
    rintro rfl
    exact hl hx
  obtain ⟨hab, hst⟩ := append_stop_inj (hbare ha) (hbare hb) (by simp) (by simp) h
  exact ⟨hab, (List.cons.inj hst).2⟩

end Patchbay
