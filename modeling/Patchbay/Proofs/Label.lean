import Patchbay.Label.Table
import Patchbay.Proofs.Outcome

/-!
# Labels in tables and sets

Labels that are texts can always be put in order (`sortOn_texts`). Tables and sets of text labels
stay so when text labels are put into them. A set holds what is put into it, and what it held.
-/

namespace Patchbay

namespace Label

/-- The label is a text. -/
def IsText (label : Label) : Prop := ∃ s, label = .text s

theorem isText_text (s : String) : IsText (.text s) := ⟨s, rfl⟩

theorem same_refl (label : Label) : label.same label = true := by
  cases label with
  | null => rfl
  | bool b => simp [same, whole?]
  | int n => simp [same, whole?]
  | float x => simp [same]
  | text s => simp

theorem eq_text_of_same {label : Label} {s : String} (h : label.same (.text s) = true) :
    label = .text s := by
  cases label with
  | text t =>
    rw [same_text, decide_eq_true_eq] at h
    rw [h]
  | _ => exact absurd h (by simp [same, whole?])

theorem ofValue_eq_text_iff {v : Value} {s : String} : ofValue v = .ok (.text s) ↔ v = .str s := by
  cases v <;> simp [ofValue]

theorem areAlike_of_texts {α : Type} (label : α → Label) {entries : List α}
    (h : ∀ entry ∈ entries, (label entry).IsText) : areAlike (entries.map label) = true := by
  unfold areAlike
  rw [Bool.or_eq_true, List.all_eq_true]
  refine .inl fun l hl => ?_
  obtain ⟨entry, hentry, rfl⟩ := List.mem_map.mp hl
  obtain ⟨s, hs⟩ := h entry hentry
  rw [hs]
  rfl

/-- Entries with text labels can be sorted. -/
theorem sortOn_texts {α : Type} (label : α → Label) {entries : List α}
    (h : ∀ entry ∈ entries, (label entry).IsText) :
    ∃ sorted, sortOn label entries = .ok sorted ∧ sorted.Perm entries :=
  ⟨_, if_pos (areAlike_of_texts label h), List.mergeSort_perm _ _⟩

end Label

namespace Table

variable {α : Type}

/-- The keys of the table are texts. -/
def HasTexts (table : Table α) : Prop := ∀ entry ∈ table, entry.1.IsText

theorem hasTexts_nil : HasTexts ([] : Table α) := fun _ h => absurd h List.not_mem_nil

theorem HasTexts.put {table : Table α} (h : table.HasTexts) {key : Label} (hkey : key.IsText)
    (a : α) : (Table.put key a table).HasTexts := by
  induction table with
  | nil =>
    intro entry hentry
    rw [List.mem_singleton.mp hentry]
    exact hkey
  | cons head rest ih =>
    obtain ⟨k, b⟩ := head
    have hhead : k.IsText := h (k, b) List.mem_cons_self
    have hrest : HasTexts rest := fun entry hentry => h entry (List.mem_cons_of_mem _ hentry)
    intro entry hentry
    unfold Table.put at hentry
    split at hentry
    · rcases List.mem_cons.mp hentry with rfl | hentry
      · exact hhead
      · exact hrest entry hentry
    · rcases List.mem_cons.mp hentry with rfl | hentry
      · exact hhead
      · exact ih hrest entry hentry

/-- A table has a text as a key if it had it before, or it is put. -/
theorem text_mem_keys_put {table : Table α} {key : Label} {a : α} {s : String} :
    .text s ∈ (Table.put key a table).map Prod.fst ↔
      key = .text s ∨ .text s ∈ table.map Prod.fst := by
  induction table with
  | nil => simp [Table.put, eq_comm]
  | cons head rest ih =>
    obtain ⟨k, b⟩ := head
    unfold Table.put
    split
    · next hsame =>
      rw [List.map_cons, List.map_cons]
      refine ⟨.inr, fun h => h.elim (fun hkey => ?_) id⟩
      rw [hkey] at hsame
      rw [Label.eq_text_of_same hsame]
      exact List.mem_cons_self
    · rw [List.map_cons, List.map_cons, List.mem_cons, List.mem_cons, ih]
      exact or_left_comm

/-- A table with texts as keys has members in ascending order. -/
theorem HasTexts.sortedMembers {table : Table α} (h : table.HasTexts) (value : α → Value) :
    ∃ members, Table.sortedMembers value table = .ok members := by
  obtain ⟨sorted, hsorted, _⟩ := Label.sortOn_texts (fun entry : Label × α => entry.1) h
  refine ⟨sorted.map fun entry => (entry.1.keyText, value entry.2), ?_⟩
  unfold Table.sortedMembers
  rw [hsorted]
  rfl

end Table

namespace LabelSet

/-- The labels of the set are texts. -/
def HasTexts (set : LabelSet) : Prop := ∀ label ∈ set, label.IsText

theorem HasTexts.insert {set : LabelSet} (h : set.HasTexts) {key : Label} (hkey : key.IsText) :
    (set.insert key).HasTexts := by
  intro label hlabel
  unfold LabelSet.insert at hlabel
  split at hlabel
  · exact h label hlabel
  · rcases List.mem_append.mp hlabel with hlabel | hlabel
    · exact h label hlabel
    · rw [List.mem_singleton.mp hlabel]
      exact hkey

variable {set : LabelSet} {key label : Label}

theorem holds_of_mem (h : label ∈ set) : set.holds label = true :=
  List.any_eq_true.mpr ⟨label, h, label.same_refl⟩

theorem mem_of_mem_insert (h : label ∈ set.insert key) : label ∈ set ∨ label = key := by
  unfold LabelSet.insert at h
  split at h
  · exact .inl h
  · exact (List.mem_append.mp h).imp_right List.mem_singleton.mp

theorem holds_insert (h : set.holds label = true) (key : Label) :
    (set.insert key).holds label = true := by
  unfold LabelSet.insert
  split
  · exact h
  · rw [holds, List.any_append, Bool.or_eq_true]
    exact .inl h

theorem holds_insert_self (set : LabelSet) (key : Label) : (set.insert key).holds key = true := by
  unfold LabelSet.insert
  split
  · next hheld => exact hheld
  · exact holds_of_mem (List.mem_append_right _ (List.mem_singleton_self key))

theorem mem_of_mem_insertAll {keys : List Label} (h : label ∈ set.insertAll keys) :
    label ∈ set ∨ label ∈ keys := by
  induction keys generalizing set with
  | nil => exact .inl h
  | cons first rest ih =>
    rcases ih h with h | h
    · rcases mem_of_mem_insert h with h | rfl
      · exact .inl h
      · exact .inr List.mem_cons_self
    · exact .inr (List.mem_cons_of_mem _ h)

theorem holds_insertAll {keys : List Label} (h : set.holds label = true) :
    (set.insertAll keys).holds label = true := by
  induction keys generalizing set with
  | nil => exact h
  | cons first rest ih => exact ih (holds_insert h first)

theorem holds_insertAll_of_mem {keys : List Label} (h : label ∈ keys) :
    (set.insertAll keys).holds label = true := by
  induction keys generalizing set with
  | nil => exact absurd h List.not_mem_nil
  | cons first rest ih =>
    rcases List.mem_cons.mp h with rfl | h
    · exact @holds_insertAll _ _ rest (holds_insert_self set _)
    · exact ih h

theorem HasTexts.insertAll {set : LabelSet} (h : set.HasTexts) {keys : List Label}
    (hkeys : ∀ key ∈ keys, key.IsText) : (set.insertAll keys).HasTexts := by
  unfold LabelSet.insertAll
  induction keys generalizing set with
  | nil => exact h
  | cons key rest ih =>
    exact ih (h.insert (hkeys key List.mem_cons_self))
      fun other hother => hkeys other (List.mem_cons_of_mem _ hother)

theorem HasTexts.sorted {set : LabelSet} (h : set.HasTexts) :
    ∃ labels, set.sorted = .ok labels := by
  obtain ⟨labels, hlabels, _⟩ := Label.sortOn_texts id h
  exact ⟨labels, hlabels⟩

end LabelSet

end Patchbay
