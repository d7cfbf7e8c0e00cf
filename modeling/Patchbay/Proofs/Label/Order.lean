import Mathlib.Algebra.Order.Field.Rat
import Mathlib.Data.List.Pairwise
import Mathlib.Data.Prod.Lex
import Mathlib.Tactic.NormNum
import Patchbay.Proofs.Decimal.Binary64
import Patchbay.Proofs.Label
import Patchbay.Proofs.Shuffled

/-!
# Sorting by labels

Numbers are ordered by their rank, and texts by code points; two labels that are before each other
are one key (`same_of_le`). Labels of several families cannot be sorted, in whatever order they come
(`sort_alike`). So entries whose labels are different keys, none of them "not a number", are sorted
in one way, or cannot be sorted in any order (`sortOn_together`). Sorting keeps all entries
(`perm_of_sortOn`).
-/

namespace Patchbay

namespace Label

/-- The label is something else than "not a number". -/
def NotNaN (a : Label) : Prop := a.family = .number → a.isNumber = true

/-- Where a number stands among all numbers: the infinities beyond the finite ones. -/
def rank (a : Label) : ℤ ×ₗ ℚ :=
  toLex (a.reach, if a.reach = 0 then (a.fraction.1 : ℚ) / a.fraction.2 else 0)

variable {a b c : Label}

theorem le_of_isNumber (ha : a.isNumber = true) :
    a.le b = if a.reach = 0 ∧ b.reach = 0 then
      decide (a.fraction.1 * b.fraction.2 ≤ b.fraction.1 * a.fraction.2)
    else decide (a.reach ≤ b.reach) := by
  cases a with
  | null => exact absurd ha (by decide)
  | text s => exact absurd ha (by simp [isNumber, family])
  | _ => rfl

theorem denominator_pos (a : Label) : 0 < a.fraction.2 := by
  cases a with
  | float x => exact x.denominator_pos
  | _ => exact Nat.one_pos

/-- Numbers are ordered by their rank. -/
theorem le_iff_rank_le (ha : a.isNumber = true) : a.le b = true ↔ a.rank ≤ b.rank := by
  have hpos : (0 : ℚ) < a.fraction.2 := mod_cast a.denominator_pos
  have hpos' : (0 : ℚ) < b.fraction.2 := mod_cast b.denominator_pos
  rw [le_of_isNumber ha, rank, rank, Prod.Lex.toLex_le_toLex]
  dsimp only
  split
  · next h =>
    rw [decide_eq_true_eq, if_pos h.1, if_pos h.2, h.1, h.2, div_le_div_iff₀ hpos hpos']
    simp only [lt_self_iff_false, true_and, false_or]
    exact_mod_cast Iff.rfl
  · next h =>
    rw [decide_eq_true_eq, le_iff_lt_or_eq]
    refine or_congr_right ⟨fun heq => ⟨heq, ?_⟩, And.left⟩
    have hne : a.reach ≠ 0 := fun hzero => h ⟨hzero, heq ▸ hzero⟩
    rw [if_neg hne, if_neg (heq ▸ hne)]

/-! ## One key -/

theorem same_comm (a b : Label) : a.same b = b.same a := by
  cases a with
  | float x =>
    cases b with
    | float y => simp only [same, eq_comm, Bool.and_comm]
    | _ => rfl
  | _ =>
    cases b with
    | _ => simp [same, whole?, eq_comm]

theorem same_float_whole {x : Binary64} {n : Int} (hb : b.whole? = some n) :
    (float x).same b = x.equalsInt n := by
  cases b with
  | bool _ => simp_all [same, whole?]
  | int _ => simp_all [same, whole?]
  | _ => exact absurd hb (by simp [whole?])

theorem same_whole {m n : Int} (ha : a.whole? = some m) (hb : b.whole? = some n) :
    a.same b = decide (m = n) := by
  cases a <;> cases b <;> simp_all [same, whole?]

theorem reach_float (x : Binary64) :
    (float x).reach = if x.isFinite then 0 else if x.negative then -1 else 1 := rfl

/-- A number is a floating-point number, or counts as a whole number. -/
theorem isNumber_cases (ha : a.isNumber = true) :
    (∃ x, a = .float x ∧ x.isNaN = false) ∨
    ∃ n, a.whole? = some n ∧ a.fraction = (n, 1) ∧ a.reach = 0 := by
  cases a with
  | null => exact absurd ha (by decide)
  | text s => exact absurd ha (by simp [isNumber, family])
  | float x => exact .inl ⟨x, rfl, by simpa [isNumber] using ha⟩
  | bool b => exact .inr ⟨_, rfl, rfl, rfl⟩
  | int n => exact .inr ⟨n, rfl, rfl, rfl⟩

theorem isFinite_of_reach {x : Binary64} (h : (float x).reach = 0) : x.isFinite = true := by
  rw [reach_float] at h
  split at h
  · assumption
  · split at h
    · exact absurd h (by decide)
    · exact absurd h (by decide)

theorem equalsInt_of_fraction {x : Binary64} {n : Int} (hreach : (float x).reach = 0)
    (h : x.signedFraction.1 * 1 = n * x.signedFraction.2) : x.equalsInt n = true := by
  rw [Binary64.equalsInt, isFinite_of_reach hreach, Bool.true_and, beq_iff_eq, ← h, Int.mul_one]

theorem magnitude_of_isFinite_eq_false {x : Binary64} (hnan : x.isNaN = false)
    (h : x.isFinite = false) : x.magnitude = Binary64.infinityBits := by
  rw [Binary64.isNaN, decide_eq_false_iff_not] at hnan
  rw [Binary64.isFinite, decide_eq_false_iff_not] at h
  omega

theorem same_float {x y : Binary64} (hx : x.isNaN = false) (hy : y.isNaN = false)
    (hreach : (float x).reach = (float y).reach)
    (h : (float x).reach = 0 →
      x.signedFraction.1 * y.signedFraction.2 = y.signedFraction.1 * x.signedFraction.2) :
    (float x).same (float y) = true := by
  have hsame : x = y ∨ x.magnitude = 0 ∧ y.magnitude = 0 := by
    cases hfinite : x.isFinite with
    | true => exact Binary64.eq_or_zero_of_signedFraction (h (by rw [reach_float, if_pos hfinite]))
    | false =>
      have hyfinite : y.isFinite = false := by
        by_contra hne
        rw [reach_float y, if_pos (by simpa using hne)] at hreach
        exact absurd (isFinite_of_reach hreach) (by rw [hfinite]; decide)
      rw [reach_float, reach_float, hfinite, hyfinite] at hreach
      refine .inl (Binary64.eq_of_parts ?_ ?_)
      · cases hnx : x.negative <;> cases hny : y.negative <;> simp_all
      · rw [magnitude_of_isFinite_eq_false hx hfinite, magnitude_of_isFinite_eq_false hy hyfinite]
  simpa [same] using hsame

/-- Numbers of one rank are one key. -/
theorem same_of_rank_eq (ha : a.isNumber = true) (hb : b.isNumber = true)
    (h : a.rank = b.rank) : a.same b = true := by
  obtain ⟨hreach, hvalue⟩ := Prod.mk.inj (toLex.injective h)
  have hfraction (hzero : a.reach = 0) :
      a.fraction.1 * b.fraction.2 = b.fraction.1 * a.fraction.2 := by
    have hpos : (a.fraction.2 : ℚ) ≠ 0 := mod_cast a.denominator_pos.ne'
    have hpos' : (b.fraction.2 : ℚ) ≠ 0 := mod_cast b.denominator_pos.ne'
    rw [if_pos hzero, if_pos (hreach ▸ hzero), div_eq_div_iff hpos hpos'] at hvalue
    exact_mod_cast hvalue
  rcases isNumber_cases ha with ⟨x, rfl, hx⟩ | ⟨m, hm, hmfraction, hmreach⟩
  · rcases isNumber_cases hb with ⟨y, rfl, hy⟩ | ⟨n, hn, hnfraction, hnreach⟩
    · exact same_float hx hy hreach hfraction
    · rw [same_float_whole hn]
      have hzero : (float x).reach = 0 := hreach.trans hnreach
      have heq := hfraction hzero
      rw [hnfraction] at heq
      exact equalsInt_of_fraction hzero heq
  · rcases isNumber_cases hb with ⟨y, rfl, hy⟩ | ⟨n, hn, hnfraction, hnreach⟩
    · rw [same_comm, same_float_whole hm]
      have heq := hfraction hmreach
      rw [hmfraction] at heq
      exact equalsInt_of_fraction (hreach.symm.trans hmreach) heq.symm
    · rw [same_whole hm hn, decide_eq_true_eq]
      simpa [hmfraction, hnfraction] using hfraction hmreach

/-! ## Alike labels -/

theorem areAlike_cases {labels : List Label} (h : areAlike labels = true) :
    (∀ a ∈ labels, a.IsText) ∨ ∀ a ∈ labels, a.isNumber = true := by
  unfold areAlike at h
  rw [Bool.or_eq_true, List.all_eq_true, List.all_eq_true] at h
  refine h.imp_left fun htexts a ha => ?_
  have hfamily := htexts a ha
  cases a with
  | text s => exact ⟨s, rfl⟩
  | _ => exact absurd hfamily (by simp [family])

section Alike

variable {labels : List Label} (h : areAlike labels = true)
include h

theorem trans_of_alike (ha : a ∈ labels) (hb : b ∈ labels) (hc : c ∈ labels) (hab : a.le b = true)
    (hbc : b.le c = true) : a.le c = true := by
  rcases areAlike_cases h with htexts | hnumbers
  · obtain ⟨s, rfl⟩ := htexts a ha
    obtain ⟨t, rfl⟩ := htexts b hb
    obtain ⟨u, rfl⟩ := htexts c hc
    exact Text.le_trans hab hbc
  · rw [le_iff_rank_le (hnumbers _ ha)] at hab ⊢
    rw [le_iff_rank_le (hnumbers _ hb)] at hbc
    exact le_trans hab hbc

theorem total_of_alike (ha : a ∈ labels) (hb : b ∈ labels) : a.le b = true ∨ b.le a = true := by
  rcases areAlike_cases h with htexts | hnumbers
  · obtain ⟨s, rfl⟩ := htexts a ha
    obtain ⟨t, rfl⟩ := htexts b hb
    exact Text.le_total s t
  · rw [le_iff_rank_le (hnumbers _ ha), le_iff_rank_le (hnumbers _ hb)]
    exact le_total _ _

/-- Labels that are before each other are one key. -/
theorem same_of_le (ha : a ∈ labels) (hb : b ∈ labels) (hab : a.le b = true)
    (hba : b.le a = true) : a.same b = true := by
  rcases areAlike_cases h with htexts | hnumbers
  · obtain ⟨s, rfl⟩ := htexts a ha
    obtain ⟨t, rfl⟩ := htexts b hb
    rw [same_text, decide_eq_true_eq]
    exact Text.le_antisymm hab hba
  · rw [le_iff_rank_le (hnumbers _ ha)] at hab
    rw [le_iff_rank_le (hnumbers _ hb)] at hba
    exact same_of_rank_eq (hnumbers _ ha) (hnumbers _ hb) (le_antisymm hab hba)

end Alike

theorem family_eq_of_before {b : Bool} {x y : Label} (h : before x y = .ok b) :
    x.family = y.family ∧ x.family ≠ .null := by
  unfold before at h
  split at h
  · assumption
  · exact absurd h (by simp)

end Label

/-! ## Sorting step by step -/

namespace Stepwise

variable {α : Type} {label : α → Label} {f : Label.Family}

/-- Entries are compared by their labels. -/
abbrev byLabel (label : α → Label) : Comparison α := fun x y => (label x).before (label y)

theorem turned_family {descending : Bool} {last : α} {done run : List α}
    (hdone : ∀ x ∈ last :: done, (label x).family = f)
    (h : (if descending then last :: done else (last :: done).reverse) = run) :
    run ≠ [] ∧ ∀ x ∈ run, (label x).family = f := by
  subst h
  split
  · exact ⟨List.cons_ne_nil _ _, hdone⟩
  · exact ⟨by simp, fun x hx => hdone x (List.mem_reverse.mp hx)⟩

theorem runFrom_family {descending : Bool} {done : List α} {last : α} {entries run rest : List α}
    (hdone : ∀ x ∈ last :: done, (label x).family = f)
    (h : runFrom (byLabel label) descending done last entries = .ok (run, rest)) :
    (run ≠ [] ∧ ∀ x ∈ run, (label x).family = f) ∧
      ∀ x ∈ entries, (label x).family = f ∨ x ∈ rest := by
  induction entries generalizing done last with
  | nil =>
    obtain ⟨hrun, rfl⟩ := Prod.mk.inj (Except.ok.inj h)
    exact ⟨turned_family hdone hrun, by simp⟩
  | cons next others ih =>
    rw [runFrom] at h
    obtain ⟨isBefore, hbefore, h⟩ := bind_eq_ok.mp h
    have hnext : (label next).family = f :=
      (Label.family_eq_of_before hbefore).1.trans (hdone last List.mem_cons_self)
    split at h
    · obtain ⟨hrun, hrest⟩ := ih (List.forall_mem_cons.mpr ⟨hnext, hdone⟩) h
      exact ⟨hrun, List.forall_mem_cons.mpr ⟨.inl hnext, hrest⟩⟩
    · obtain ⟨hrun, rfl⟩ := Prod.mk.inj (Except.ok.inj h)
      exact ⟨turned_family hdone hrun, fun x hx => .inr hx⟩

theorem placeOf_family {entry : α} {run : List α} {place : Nat} (hne : run ≠ [])
    (hrun : ∀ x ∈ run, (label x).family = f)
    (h : placeOf (byLabel label) entry run 0 run.length = .ok place) :
    (label entry).family = f := by
  have hpos : 0 < run.length := List.length_pos_iff.mpr hne
  rw [placeOf, if_pos hpos] at h
  have hmiddle : 0 + (run.length - 0) / 2 < run.length := by omega
  rw [List.getElem?_eq_getElem hmiddle] at h
  obtain ⟨isBefore, hbefore, _⟩ := bind_eq_ok.mp h
  exact (Label.family_eq_of_before hbefore).1.trans (hrun _ (List.getElem_mem hmiddle))

theorem insertAll_family {run entries sorted : List α} (hne : run ≠ [])
    (hrun : ∀ x ∈ run, (label x).family = f)
    (h : insertAll (byLabel label) run entries = .ok sorted) :
    ∀ x ∈ entries, (label x).family = f := by
  induction entries generalizing run with
  | nil => simp
  | cons entry rest ih =>
    rw [insertAll] at h
    obtain ⟨place, hplace, h⟩ := bind_eq_ok.mp h
    have hentry := placeOf_family hne hrun hplace
    refine List.forall_mem_cons.mpr ⟨hentry, ih ?_ (fun x hx => ?_) h⟩
    · exact List.ne_nil_of_length_pos
        ((List.length_pos_iff.mpr hne).trans_le List.length_le_length_insertIdx)
    · rcases List.eq_or_mem_of_mem_insertIdx hx with rfl | hx
      · exact hentry
      · exact hrun x hx

/-- Entries that can be sorted step by step are at most one, or of one family that has an order. -/
theorem sort_family {entries sorted : List α} (h : sort (byLabel label) entries = .ok sorted) :
    entries.length ≤ 1 ∨ ∃ f ≠ .null, ∀ x ∈ entries, (label x).family = f := by
  match entries, h with
  | [], _ => exact .inl (Nat.zero_le 1)
  | [_], _ => exact .inl (Nat.le_refl 1)
  | first :: next :: others, h =>
    obtain ⟨⟨run, rest⟩, hfront, h⟩ := bind_eq_ok.mp h
    obtain ⟨descending, hbefore, hrun⟩ := bind_eq_ok.mp hfront
    obtain ⟨hnext, hnull⟩ := Label.family_eq_of_before hbefore
    obtain ⟨⟨hne, hfamily⟩, hothers⟩ := runFrom_family (f := (label first).family)
      (List.forall_mem_cons.mpr ⟨hnext, List.forall_mem_singleton.mpr rfl⟩) hrun
    have hrest := insertAll_family hne hfamily h
    refine .inr ⟨(label first).family, hnext ▸ hnull, ?_⟩
    exact List.forall_mem_cons.mpr ⟨rfl, List.forall_mem_cons.mpr
      ⟨hnext, fun x hx => (hothers x hx).elim id (hrest x)⟩⟩

theorem sort_of_length_le {before : Comparison α} {entries : List α} (h : entries.length ≤ 1) :
    sort before entries = .ok entries := by
  match entries, h with
  | [], _ => rfl
  | [_], _ => rfl

variable {before : Comparison α}

theorem perm_of_runFrom {descending : Bool} {done entries run rest : List α} {last : α}
    (h : runFrom before descending done last entries = .ok (run, rest)) :
    (run ++ rest).Perm (last :: done ++ entries) := by
  have hturned : ∀ done : List α, (if descending then done else done.reverse).Perm done := by
    intro done
    split
    · exact .refl _
    · exact done.reverse_perm
  induction entries generalizing done last with
  | nil =>
    obtain ⟨rfl, rfl⟩ := Prod.mk.inj (Except.ok.inj h)
    exact (hturned (last :: done)).append_right []
  | cons next others ih =>
    rw [runFrom] at h
    obtain ⟨isBefore, _, h⟩ := bind_eq_ok.mp h
    split at h
    · exact (ih h).trans List.perm_middle.symm
    · obtain ⟨rfl, rfl⟩ := Prod.mk.inj (Except.ok.inj h)
      exact (hturned (last :: done)).append_right _

theorem placeOf_le {entry : α} {run : List α} {low high place : Nat} (hle : low ≤ high)
    (h : placeOf before entry run low high = .ok place) : place ≤ high := by
  fun_induction placeOf before entry run low high with
  | case1 low high _ _ => exact Except.ok.inj h ▸ hle
  | case2 low high hlt middle _ ihlow ihhigh =>
    obtain ⟨isBefore, _, h⟩ := bind_eq_ok.mp h
    split at h
    · exact (ihlow (by omega) h).trans (by omega)
    · exact ihhigh (by omega) h
  | case3 low high _ => exact Except.ok.inj h ▸ hle

theorem perm_of_insertAll {run entries sorted : List α}
    (h : insertAll before run entries = .ok sorted) : sorted.Perm (run ++ entries) := by
  induction entries generalizing run with
  | nil =>
    obtain rfl := Except.ok.inj h
    exact .of_eq (List.append_nil _).symm
  | cons entry rest ih =>
    rw [insertAll] at h
    obtain ⟨place, hplace, h⟩ := bind_eq_ok.mp h
    have hinserted := List.perm_insertIdx entry run (placeOf_le (Nat.zero_le _) hplace)
    exact (ih h).trans ((hinserted.append_right rest).trans List.perm_middle.symm)

/-- Sorting step by step keeps all entries. -/
theorem perm_of_sort {entries sorted : List α} (h : sort before entries = .ok sorted) :
    sorted.Perm entries := by
  match entries, h with
  | [], h | [_], h => exact .of_eq (Except.ok.inj h).symm
  | first :: next :: others, h =>
    obtain ⟨⟨run, rest⟩, hfront, h⟩ := bind_eq_ok.mp h
    obtain ⟨descending, _, hrun⟩ := bind_eq_ok.mp hfront
    exact (perm_of_insertAll h).trans ((perm_of_runFrom hrun).trans (.swap first next others))

end Stepwise

namespace Label

variable {α β : Type} {R : α → β → Prop} {label : α → Label} {label' : β → Label}

theorem areAlike_of_family {labels : List Label} {f : Family} (hf : f ≠ .null)
    (h : ∀ a ∈ labels, a.family = f) (hnan : ∀ a ∈ labels, a.NotNaN) : areAlike labels = true := by
  unfold areAlike
  rw [Bool.or_eq_true, List.all_eq_true, List.all_eq_true]
  cases f with
  | null => exact absurd rfl hf
  | number => exact .inr fun a ha => hnan a ha (h a ha)
  | text => exact .inl fun a ha => decide_eq_true (h a ha)

/-- The labels are keys that differ. -/
def Apart (labels : List Label) : Prop := labels.Pairwise fun a b => a.same b = false

theorem Apart.eq_of_same {entries : List α} (h : Apart (entries.map label)) {x y : α}
    (hx : x ∈ entries) (hy : y ∈ entries) (hsame : (label x).same (label y) = true) : x = y := by
  by_contra hne
  have hsymm : Std.Symm fun x y => (label x).same (label y) = false :=
    ⟨fun x y hxy => (same_comm _ _).trans hxy⟩
  have hapart := (List.pairwise_map.mp h).forall hx hy hne
  exact absurd hsame (by rw [hapart]; decide)

theorem sort_error {entries : List α} (hlength : ¬ entries.length ≤ 1)
    (halike : areAlike (entries.map label) = false) (hnan : ∀ x ∈ entries, (label x).NotNaN) :
    ∃ fault, Stepwise.sort (Stepwise.byLabel label) entries = .error fault := by
  cases hsort : Stepwise.sort (Stepwise.byLabel label) entries with
  | error fault => exact ⟨fault, rfl⟩
  | ok sorted =>
    obtain hle | ⟨f, hf, hfamily⟩ := Stepwise.sort_family hsort
    · exact absurd hle hlength
    · refine absurd (areAlike_of_family hf ?_ ?_) (by rw [halike]; decide)
      · exact List.forall_mem_map.mpr hfamily
      · exact List.forall_mem_map.mpr hnan

/-- Sorting keeps all entries. -/
theorem perm_of_sortOn {entries sorted : List α} (h : sortOn label entries = .ok sorted) :
    sorted.Perm entries := by
  unfold sortOn at h
  split at h
  · exact Except.ok.inj h ▸ List.mergeSort_perm _ _
  · exact Stepwise.perm_of_sort h

/-- Entries whose labels are different keys, none of them "not a number", are sorted in one way, in
whatever order they come, or cannot be sorted in any. -/
theorem sortOn_together {l : List α} {m : List β} (h : Shuffled R l m)
    (hlabel : ∀ a b, R a b → label a = label' b) (hapart : Apart (l.map label))
    (hnan : ∀ x ∈ l, (label x).NotNaN) :
    Together (List.Forall₂ R) (sortOn label l) (sortOn label' m) := by
  have hnan' : ∀ y ∈ m, (label' y).NotNaN := fun y hy => by
    obtain ⟨x, hx, hr⟩ := h.exists_left hy
    exact hlabel x y hr ▸ hnan x hx
  have hlength := h.length_eq
  obtain ⟨between, hmatch, hperm⟩ := h
  have hlabels : l.map label = between.map label' := Matched.map_eq hmatch hlabel
  have hpermLabels : (l.map label).Perm (m.map label') := hlabels ▸ hperm.map label'
  have hsameAlike : areAlike (l.map label) = areAlike (m.map label') := by
    unfold areAlike
    rw [hpermLabels.all_eq, hpermLabels.all_eq]
  unfold sortOn
  rw [← hsameAlike]
  split
  · next halike =>
    rw [hlabels] at halike hapart
    have hmem {y : β} (hy : y ∈ between) : label' y ∈ between.map label' := List.mem_map_of_mem hy
    have hsorted : between.mergeSort (fun x y => (label' x).le (label' y)) =
        m.mergeSort fun x y => (label' x).le (label' y) := by
      refine mergeSort_eq_of_perm hperm ?_ ?_ ?_
      · exact fun x hx y hy z hz => trans_of_alike halike (hmem hx) (hmem hy) (hmem hz)
      · exact fun x hx y hy => total_of_alike halike (hmem hx) (hmem hy)
      · exact fun x hx y hy hxy hyx =>
          hapart.eq_of_same hx hy (same_of_le halike (hmem hx) (hmem hy) hxy hyx)
    rw [← hsorted]
    exact .ok (Matched.mergeSort hmatch fun a b a' b' ha hb => by
      rw [hlabel a b ha, hlabel a' b' hb])
  · next halike =>
    rw [Bool.not_eq_true] at halike
    by_cases hone : l.length ≤ 1
    · rw [Stepwise.sort_of_length_le hone, Stepwise.sort_of_length_le (hlength ▸ hone)]
      have hbetween : between = m := by
        match between, hmatch.length_eq ▸ hone with
        | [], _ => exact hperm.nil_eq
        | [_], _ => exact List.singleton_perm.mp hperm
      exact .ok (hbetween ▸ hmatch)
    · obtain ⟨_, hleft⟩ := sort_error hone halike hnan
      obtain ⟨_, hright⟩ := sort_error (hlength ▸ hone) (hsameAlike ▸ halike) hnan'
      rw [hleft, hright]
      exact .error

end Label

end Patchbay
