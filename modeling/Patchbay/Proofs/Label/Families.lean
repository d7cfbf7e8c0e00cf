import Patchbay.Label.Table
import Patchbay.Proofs.Label.Order

/-!
# Which labels have an order

Sorting step by step fails only where a comparison fails (`Stepwise.failsOnly_sort`), and not at all
where every comparison of its entries succeeds (`Stepwise.exists_sort`). So a set of labels has an
order just if all its labels are of one family (`LabelSet.exists_sorted_iff`): texts, numbers, or
null by itself.
-/

namespace Patchbay

namespace Stepwise

variable {α : Type} {before : Comparison α}

/-! ## Comparisons that fail -/

section FailsOnly

variable {E : Fault → Prop} (hbefore : ∀ x y, FailsOnly E (before x y))
include hbefore

theorem failsOnly_runFrom (descending : Bool) (done : List α) (last : α) (entries : List α) :
    FailsOnly E (runFrom before descending done last entries) := by
  induction entries generalizing done last with
  | nil => exact .ok _
  | cons next rest ih =>
    refine (hbefore next last).bind fun isBefore _ => ?_
    split
    · exact ih _ next
    · exact .ok _

theorem failsOnly_placeOf (entry : α) (run : List α) (low high : Nat) :
    FailsOnly E (placeOf before entry run low high) := by
  fun_induction placeOf before entry run low high with
  | case1 => exact .ok _
  | case2 low high _ middle _ ihlow ihhigh =>
    refine (hbefore entry middle).bind fun isBefore _ => ?_
    split
    · exact ihlow
    · exact ihhigh
  | case3 => exact .ok _

theorem failsOnly_insertAll (run entries : List α) :
    FailsOnly E (insertAll before run entries) := by
  induction entries generalizing run with
  | nil => exact .ok _
  | cons entry rest ih =>
    exact (failsOnly_placeOf hbefore entry run 0 run.length).bind fun place _ => ih _

/-- Sorting fails only as a comparison does. -/
theorem failsOnly_sort (entries : List α) : FailsOnly E (sort before entries) := by
  have hfront : FailsOnly E (frontRun before entries) := by
    match entries with
    | [] | [_] => exact .ok _
    | first :: next :: rest =>
      exact (hbefore next first).bind fun descending _ =>
        failsOnly_runFrom hbefore descending [first] next rest
  exact hfront.bind fun found _ => failsOnly_insertAll hbefore found.1 found.2

end FailsOnly

/-! ## Comparisons that succeed -/

section Comparable

variable {P : α → Prop} (hbefore : ∀ x y, P x → P y → ∃ isBefore, before x y = .ok isBefore)
include hbefore

theorem exists_runFrom (descending : Bool) (done : List α) {last : α} {entries : List α}
    (hlast : P last) (hentries : ∀ x ∈ entries, P x) :
    ∃ found, runFrom before descending done last entries = .ok found := by
  induction entries generalizing done last with
  | nil => exact ⟨_, rfl⟩
  | cons next rest ih =>
    obtain ⟨hnext, hrest⟩ := List.forall_mem_cons.mp hentries
    obtain ⟨isBefore, hb⟩ := hbefore next last hnext hlast
    rw [runFrom, hb]
    simp only [bind, Except.bind]
    split
    · exact ih _ hnext hrest
    · exact ⟨_, rfl⟩

theorem exists_placeOf {entry : α} {run : List α} (hentry : P entry) (hrun : ∀ x ∈ run, P x)
    (low high : Nat) : ∃ place, placeOf before entry run low high = .ok place := by
  fun_induction placeOf before entry run low high with
  | case1 low high _ _ => exact ⟨low, rfl⟩
  | case2 low high _ middle hmiddle ihlow ihhigh =>
    have hmem := List.mem_of_getElem? hmiddle
    obtain ⟨isBefore, hb⟩ := hbefore entry middle hentry (hrun middle hmem)
    rw [hb]
    simp only [bind, Except.bind]
    split
    · exact ihlow
    · exact ihhigh
  | case3 low high _ => exact ⟨low, rfl⟩

theorem exists_insertAll {run entries : List α} (hrun : ∀ x ∈ run, P x)
    (hentries : ∀ x ∈ entries, P x) : ∃ sorted, insertAll before run entries = .ok sorted := by
  induction entries generalizing run with
  | nil => exact ⟨run, rfl⟩
  | cons entry rest ih =>
    obtain ⟨hentry, hrest⟩ := List.forall_mem_cons.mp hentries
    obtain ⟨place, hplace⟩ := exists_placeOf hbefore hentry hrun 0 run.length
    have hgrown : ∀ x ∈ run.insertIdx place entry, P x := by
      intro x hx
      rcases List.eq_or_mem_of_mem_insertIdx hx with rfl | hx
      · exact hentry
      · exact hrun x hx
    obtain ⟨sorted, hsorted⟩ := ih hgrown hrest
    exact ⟨sorted, bind_eq_ok.mpr ⟨place, hplace, hsorted⟩⟩

/-- Entries of which any two can be compared are sorted. -/
theorem exists_sort {entries : List α} (hentries : ∀ x ∈ entries, P x) :
    ∃ sorted, sort before entries = .ok sorted := by
  match entries, hentries with
  | [], _ => exact ⟨[], rfl⟩
  | [first], _ => exact ⟨[first], rfl⟩
  | first :: next :: others, hentries =>
    obtain ⟨hfirst, hothers⟩ := List.forall_mem_cons.mp hentries
    obtain ⟨hnext, hrest⟩ := List.forall_mem_cons.mp hothers
    obtain ⟨descending, hb⟩ := hbefore next first hnext hfirst
    obtain ⟨⟨run, rest⟩, hrun⟩ := exists_runFrom hbefore descending [first] hnext hrest
    have hmem : ∀ x ∈ run ++ rest, P x := fun x hx =>
      hentries x (((perm_of_runFrom hrun).trans (.swap first next others)).mem_iff.mp hx)
    obtain ⟨sorted, hsorted⟩ := exists_insertAll hbefore
      (fun x hx => hmem x (List.mem_append_left _ hx)) fun x hx =>
        hmem x (List.mem_append_right _ hx)
    exact ⟨sorted, bind_eq_ok.mpr ⟨(run, rest), bind_eq_ok.mpr ⟨descending, hb, hrun⟩, hsorted⟩⟩

end Comparable

end Stepwise

namespace Label

/-- All labels are of one family. -/
def OfOneFamily (labels : List Label) : Prop := ∃ f, ∀ a ∈ labels, a.family = f

theorem before_eq_ok {a b : Label} (h : a.family = b.family) (hnull : a.family ≠ .null) :
    ∃ isBefore, before a b = .ok isBefore :=
  ⟨_, if_pos ⟨h, hnull⟩⟩

/-- Labels that cannot be compared have no order. -/
theorem failsOnly_before (a b : Label) :
    FailsOnly (fun fault => ∃ left right, fault = .unordered left right) (before a b) := by
  unfold before
  split
  · exact .ok _
  · exact .error ⟨_, _, rfl⟩

theorem eq_null_of_family {a : Label} (h : a.family = .null) : a = .null := by
  cases a with
  | null => rfl
  | _ => exact absurd h (by simp [family])

theorem ofOneFamily_of_areAlike {labels : List Label} (h : areAlike labels = true) :
    OfOneFamily labels := by
  rcases areAlike_cases h with htexts | hnumbers
  · refine ⟨.text, fun a ha => ?_⟩
    obtain ⟨s, rfl⟩ := htexts a ha
    rfl
  · refine ⟨.number, fun a ha => ?_⟩
    have hnumber := hnumbers a ha
    cases a with
    | null | text _ => exact absurd hnumber (by simp [isNumber, family])
    | _ => rfl

/-! ## Sets -/

theorem Apart.insert {set : LabelSet} (h : Apart set) (key : Label) : Apart (set.insert key) := by
  unfold LabelSet.insert
  split
  · exact h
  · next hheld =>
    rw [Bool.not_eq_true, LabelSet.holds, List.any_eq_false] at hheld
    refine List.pairwise_append.mpr ⟨h, List.pairwise_singleton _ _, fun a ha b hb => ?_⟩
    rw [List.mem_singleton.mp hb]
    simpa using hheld a ha

theorem Apart.insertAll {set : LabelSet} (h : Apart set) (keys : List Label) :
    Apart (set.insertAll keys) := by
  unfold LabelSet.insertAll
  induction keys generalizing set with
  | nil => exact h
  | cons key rest ih => exact ih (h.insert key)

end Label

namespace LabelSet

open Label

variable {set : LabelSet}

/-- A set that cannot be sorted holds two labels without an order. -/
theorem unordered_of_sorted {fault : Fault} (h : set.sorted = .error fault) :
    ∃ left right, fault = .unordered left right := by
  unfold sorted sortOn at h
  split at h
  · exact absurd h (by simp)
  · exact Stepwise.failsOnly_sort (fun x y => failsOnly_before x y) set fault h

theorem ofOneFamily_of_sorted {labels : List Label} (h : set.sorted = .ok labels) :
    OfOneFamily set := by
  unfold sorted sortOn at h
  split at h
  · next halike =>
    rw [List.map_id] at halike
    exact ofOneFamily_of_areAlike halike
  · have hsort : Stepwise.sort (Stepwise.byLabel id) set = .ok labels := h
    rcases Stepwise.sort_family hsort with hlength | ⟨f, _, hf⟩
    · match set, hlength with
      | [], _ => exact ⟨.null, by simp⟩
      | [a], _ => exact ⟨a.family, by simp⟩
    · exact ⟨f, hf⟩

/-- A set of labels is sorted just if they are of one family. -/
theorem exists_sorted_iff (hapart : Apart set) :
    (∃ labels, set.sorted = .ok labels) ↔ OfOneFamily set := by
  constructor
  · rintro ⟨labels, h⟩
    exact ofOneFamily_of_sorted h
  · rintro ⟨f, hf⟩
    unfold sorted sortOn
    split
    · exact ⟨_, rfl⟩
    · by_cases hnull : f = .null
      · subst hnull
        have hlength : set.length ≤ 1 := by
          match set, hapart, hf with
          | [], _, _ => exact Nat.zero_le 1
          | [_], _, _ => exact Nat.le_refl 1
          | a :: b :: _, hapart, hf =>
            obtain rfl := eq_null_of_family (hf a (by simp))
            obtain rfl := eq_null_of_family (hf b (by simp))
            exact absurd ((List.pairwise_cons.mp hapart).1 .null (by simp)) (by decide)
        exact ⟨set, Stepwise.sort_of_length_le hlength⟩
      · exact Stepwise.exists_sort (P := fun a : Label => a.family = f)
          (fun a b ha hb => before_eq_ok (ha.trans hb.symm) (ha ▸ hnull)) hf

end LabelSet

end Patchbay
