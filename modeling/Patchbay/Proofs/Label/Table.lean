import Patchbay.Label.Table
import Patchbay.Proofs.Label.Order

/-!
# Tables up to order

Two tables are alike if they differ in the order of their entries at most, while their labels are
different keys (`Table.Alike`). They have the same members in ascending order, or none of them has
(`Alike.sortedMembers`), and stay alike when an entry is set under a text (`Alike.put`).
-/

namespace Patchbay

theorem Label.Apart.perm {labels others : List Label} (h : Apart labels)
    (hperm : labels.Perm others) : Apart others :=
  hperm.pairwise h fun hab => (same_comm _ _).trans hab

theorem Label.notNaN_text (s : String) : (Label.text s).NotNaN :=
  fun hfamily => absurd hfamily (by simp [Label.family])

namespace Table

variable {α β : Type} {R : α → β → Prop} {table : Table α} {other : Table β}

/-- Two tables differ in the order of their entries at most; their labels are different keys, none
of them "not a number". -/
structure Alike (R : α → β → Prop) (table : Table α) (other : Table β) : Prop where
  apart : Label.Apart (table.map Prod.fst)
  notNaN : ∀ entry ∈ table, entry.1.NotNaN
  shuffled : Shuffled (Keyed.Corresponds R) table other

theorem Alike.sortedMembers (h : Alike R table other) {value : α → Value} {value' : β → Value}
    (hvalue : ∀ a b, R a b → value a = value' b) :
    Together Eq (Table.sortedMembers value table) (Table.sortedMembers value' other) := by
  refine (Label.sortOn_together h.shuffled (fun _ _ hr => hr.1) h.apart h.notNaN).bind
    fun sorted sorted' hsorted => .ok ?_
  refine Matched.map_eq hsorted fun entry entry' hr => ?_
  exact Prod.ext (congrArg Label.keyText hr.1) (hvalue _ _ hr.2)

theorem Alike.apart_right (h : Alike R table other) : Label.Apart (other.map Prod.fst) :=
  h.apart.perm (h.shuffled.map_perm fun _ _ hr => hr.1)

theorem put_eq_append {key : Label} {a : α} (h : ∀ entry ∈ table, entry.1.same key = false) :
    Table.put key a table = table ++ [(key, a)] := by
  induction table with
  | nil => rfl
  | cons entry rest ih =>
    obtain ⟨hentry, hrest⟩ := List.forall_mem_cons.mp h
    rw [Table.put, hentry, if_neg Bool.false_ne_true, ih hrest, List.cons_append]

theorem apart_put (key : Label) (a : α) (h : Label.Apart (table.map Prod.fst)) :
    Label.Apart ((Table.put key a table).map Prod.fst) := by
  by_cases hfresh : ∀ entry ∈ table, entry.1.same key = false
  · rw [put_eq_append hfresh, List.map_append]
    refine List.pairwise_append.mpr ⟨h, by simp, fun other hother new hnew => ?_⟩
    obtain ⟨entry, hentry, rfl⟩ := List.mem_map.mp hother
    rw [show new = key by simpa using hnew]
    exact hfresh entry hentry
  · have hkeys : (Table.put key a table).map Prod.fst = table.map Prod.fst := by
      clear h
      induction table with
      | nil => simp at hfresh
      | cons entry rest ih =>
        obtain ⟨k, old⟩ := entry
        unfold put
        split
        · rfl
        · next hne =>
          have hrest : ¬ ∀ entry ∈ rest, entry.1.same key = false := fun hrest =>
            hfresh (List.forall_mem_cons.mpr ⟨by simpa using hne, hrest⟩)
          rw [List.map_cons, List.map_cons, ih hrest]
    rwa [hkeys]

/-- Under a text, an entry takes the place of the one that is there. -/
theorem put_text_perm (s : String) (a : α) (h : Label.Apart (table.map Prod.fst)) :
    (Table.put (.text s) a table).Perm ((.text s, a) :: table.filter (·.1 ≠ .text s)) := by
  induction table with
  | nil => exact .refl _
  | cons entry rest ih =>
    obtain ⟨key, old⟩ := entry
    obtain ⟨hfresh, hrest⟩ := List.pairwise_cons.mp h
    rw [Table.put]
    split
    · next hsame =>
      obtain rfl := Label.eq_text_of_same hsame
      rw [List.filter_cons_of_neg (by simp), List.filter_eq_self.mpr fun other hother => ?_]
      rw [decide_eq_true_eq]
      intro heq
      have hother := hfresh _ (List.mem_map_of_mem hother)
      rw [heq, Label.same_refl] at hother
      exact absurd hother (by decide)
    · next hsame =>
      have hne : key ≠ .text s := fun heq => hsame (heq ▸ Label.same_refl _)
      rw [List.filter_cons_of_pos (by simpa using hne)]
      exact ((ih hrest).cons _).trans (.swap _ _ _)

theorem Alike.put (h : Alike R table other) {s t : String} (hst : s = t) {a : α} {b : β}
    (hr : R a b) : Alike R (Table.put (.text s) a table) (Table.put (.text t) b other) := by
  subst hst
  have hperm := put_text_perm s a h.apart
  have hperm' := put_text_perm s b h.apart_right
  refine ⟨?_, ?_, ?_⟩
  · exact apart_put (.text s) a h.apart
  · intro entry hentry
    rcases List.mem_cons.mp (hperm.mem_iff.mp hentry) with rfl | hentry
    · exact Label.notNaN_text s
    · exact h.notNaN entry (List.mem_filter.mp hentry).1
  · have hrest : Shuffled (Keyed.Corresponds R) (table.filter (·.1 ≠ .text s))
        (other.filter (·.1 ≠ .text s)) := h.shuffled.filter fun _ _ hr => by rw [hr.1]
    have hcons : Keyed.Corresponds R (Label.text s, a) (Label.text s, b) := ⟨rfl, hr⟩
    exact ((hrest.cons hcons).perm_left hperm).perm_right hperm'.symm

end Table

end Patchbay
