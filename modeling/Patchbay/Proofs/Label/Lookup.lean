import Patchbay.Proofs.Label.Table

/-!
# Entries of tables

To be one key is an equivalence of labels: that of being equal, or numbers of one rank
(`same_iff`). So what is put into a table is found under each label that is the same key, and under
no other (`get?_put`). Of several entries that are put one after the other, the last one under a key
is found (`get?_puts`).
-/

namespace Patchbay

/-! ## The last entry of a kind -/

/-- The last entry of a list that stands for anything stands for this. -/
def LastOf {α β : Type} (R : α → β → Prop) (entries : List α) (b : β) : Prop :=
  ∃ before a after, entries = before ++ a :: after ∧ R a b ∧ ∀ other ∈ after, ∀ c, ¬ R other c

section

variable {α β γ : Type} {R : α → β → Prop} {entries : List α} {a : α} {b : β}

theorem lastOf_nil : ¬ LastOf R [] b := by
  rintro ⟨before, a, after, heq, _⟩
  exact absurd heq (by simp)

theorem lastOf_cons_iff :
    LastOf R (a :: entries) b ↔
      LastOf R entries b ∨ (∀ other ∈ entries, ∀ c, ¬ R other c) ∧ R a b := by
  constructor
  · rintro ⟨before, last, after, heq, hlast, hafter⟩
    cases before with
    | nil =>
      obtain ⟨rfl, rfl⟩ := List.cons.inj heq
      exact .inr ⟨hafter, hlast⟩
    | cons head before =>
      obtain ⟨rfl, rfl⟩ := List.cons.inj heq
      exact .inl ⟨before, last, after, rfl, hlast, hafter⟩
  · rintro (⟨before, last, after, rfl, hlast, hafter⟩ | ⟨hrest, ha⟩)
    · exact ⟨a :: before, last, after, rfl, hlast, hafter⟩
    · exact ⟨[], a, entries, rfl, ha, hrest⟩

theorem LastOf.exists_mem (h : LastOf R entries b) : ∃ a ∈ entries, R a b := by
  obtain ⟨before, a, after, rfl, ha, _⟩ := h
  exact ⟨a, by simp, ha⟩

theorem lastOf_and_iff {p : Prop} :
    LastOf (fun a b => p ∧ R a b) entries b ↔ p ∧ LastOf R entries b := by
  by_cases hp : p
  · simp [hp]
  · refine iff_of_false (fun h => ?_) fun h => hp h.1
    obtain ⟨_, _, hp', _⟩ := h.exists_mem
    exact hp hp'

theorem lastOf_filterMap_iff {f : γ → Option α} {items : List γ} :
    LastOf R (items.filterMap f) b ↔
      LastOf (fun item b => ∃ a, f item = some a ∧ R a b) items b := by
  induction items with
  | nil => exact iff_of_false lastOf_nil lastOf_nil
  | cons item rest ih =>
    have hrest : (∀ other ∈ rest.filterMap f, ∀ c, ¬ R other c) ↔
        ∀ other ∈ rest, ∀ c, ¬ ∃ a, f other = some a ∧ R a c := by
      constructor
      · rintro h other hother c ⟨a, ha, hc⟩
        exact h a (List.mem_filterMap.mpr ⟨other, hother, ha⟩) c hc
      · intro h a ha c hc
        obtain ⟨other, hother, ha⟩ := List.mem_filterMap.mp ha
        exact h other hother c ⟨a, ha, hc⟩
    rw [lastOf_cons_iff, ← ih, ← hrest, List.filterMap_cons]
    cases f item with
    | none => simp
    | some a =>
      rw [lastOf_cons_iff]
      simp

end

namespace Label

variable {a b c : Label}

theorem number_of_whole {n : Int} (h : a.whole? = some n) :
    a.isNumber = true ∧ a.fraction = (n, 1) ∧ a.reach = 0 := by
  cases a with
  | bool _ => exact ⟨rfl, by simpa [fraction, whole?] using h, rfl⟩
  | int _ => exact ⟨rfl, by simpa [fraction, whole?] using h, rfl⟩
  | _ => exact absurd h (by simp [whole?])

theorem number_of_isFinite {x : Binary64} (h : x.isFinite = true) :
    (float x).isNumber = true ∧ (float x).reach = 0 := by
  refine ⟨?_, by rw [reach_float, if_pos h]⟩
  unfold Binary64.isFinite at h
  simp only [decide_eq_true_eq] at h
  simp only [isNumber, Binary64.isNaN, Bool.not_eq_true', decide_eq_false_iff_not]
  omega

theorem fraction_of_magnitude {x : Binary64} (h : x.magnitude = 0) : (float x).fraction.1 = 0 := by
  have hunits := x.fraction_eq_units
  have hscale : (2 : Nat) ^ 1074 ≠ 0 := pow_ne_zero _ two_ne_zero
  generalize (2 : Nat) ^ 1074 = scale at hunits hscale
  rw [h, Binary64.units_zero, Nat.zero_mul] at hunits
  have hfraction := (Nat.mul_eq_zero.mp hunits).resolve_right hscale
  simp [fraction, Binary64.signedFraction, hfraction]

theorem rank_eq_of_fraction (ha : a.reach = 0) (hb : b.reach = 0)
    (h : a.fraction.1 * b.fraction.2 = b.fraction.1 * a.fraction.2) : a.rank = b.rank := by
  have hpos : (a.fraction.2 : ℚ) ≠ 0 := mod_cast a.denominator_pos.ne'
  have hpos' : (b.fraction.2 : ℚ) ≠ 0 := mod_cast b.denominator_pos.ne'
  rw [rank, rank, ha, hb, if_pos rfl, if_pos rfl, (div_eq_div_iff hpos hpos').mpr]
  exact_mod_cast h

theorem rank_eq_of_equalsInt {x : Binary64} {n : Int} (hb : b.whole? = some n)
    (h : x.equalsInt n = true) : (float x).isNumber = true ∧ (float x).rank = b.rank := by
  obtain ⟨_, hfraction, hreach⟩ := number_of_whole hb
  rw [Binary64.equalsInt, Bool.and_eq_true, beq_iff_eq] at h
  obtain ⟨hnumber, hzero⟩ := number_of_isFinite h.1
  refine ⟨hnumber, rank_eq_of_fraction hzero hreach ?_⟩
  rw [hfraction]
  exact (Int.mul_one _).trans h.2

/-- Floating-point numbers that are one key are the same, or zeros of two signs. -/
theorem eq_or_rank_of_floats {x y : Binary64} (h : (float x).same (float y) = true) :
    x = y ∨ (float x).isNumber = true ∧ (float y).isNumber = true ∧
      (float x).rank = (float y).rank := by
  have h : x = y ∨ x.magnitude = 0 ∧ y.magnitude = 0 := by simpa [same] using h
  rcases h with rfl | ⟨hx, hy⟩
  · exact .inl rfl
  refine .inr ?_
  have hfinite {z : Binary64} (hz : z.magnitude = 0) : z.isFinite = true := by
    rw [Binary64.isFinite, hz]
    decide
  obtain ⟨hxnumber, hxreach⟩ := number_of_isFinite (hfinite hx)
  obtain ⟨hynumber, hyreach⟩ := number_of_isFinite (hfinite hy)
  refine ⟨hxnumber, hynumber, rank_eq_of_fraction hxreach hyreach ?_⟩
  rw [fraction_of_magnitude hx, fraction_of_magnitude hy, Int.zero_mul, Int.zero_mul]

/-- Labels are one key if they are equal, or numbers of one rank. -/
theorem same_iff : a.same b = true ↔
    a = b ∨ a.isNumber = true ∧ b.isNumber = true ∧ a.rank = b.rank := by
  refine ⟨fun h => ?_, ?_⟩
  · rcases ha : a.whole? with _ | m <;> rcases hb : b.whole? with _ | n
    · cases a with
      | float x =>
        cases b with
        | float y => exact (eq_or_rank_of_floats h).imp_left (congrArg float)
        | _ => simp_all [same, whole?]
      | _ => cases b <;> simp_all [same, whole?]
    · cases a with
      | float x =>
        rw [same_float_whole hb] at h
        obtain ⟨hnumber, hrank⟩ := rank_eq_of_equalsInt hb h
        exact .inr ⟨hnumber, (number_of_whole hb).1, hrank⟩
      | _ => cases b <;> simp_all [same, whole?]
    · cases b with
      | float y =>
        rw [same_comm, same_float_whole ha] at h
        obtain ⟨hnumber, hrank⟩ := rank_eq_of_equalsInt ha h
        exact .inr ⟨(number_of_whole ha).1, hnumber, hrank.symm⟩
      | _ => cases a <;> simp_all [same, whole?]
    · obtain ⟨hanumber, hafraction, hareach⟩ := number_of_whole ha
      obtain ⟨hbnumber, hbfraction, hbreach⟩ := number_of_whole hb
      rw [same_whole ha hb, decide_eq_true_eq] at h
      refine .inr ⟨hanumber, hbnumber, rank_eq_of_fraction hareach hbreach ?_⟩
      rw [hafraction, hbfraction, h]
  · rintro (rfl | ⟨ha, hb, h⟩)
    · exact same_refl a
    · exact same_of_rank_eq ha hb h

theorem same_trans (h : a.same b = true) (h' : b.same c = true) : a.same c = true := by
  rcases same_iff.mp h with rfl | ⟨ha, hb, hrank⟩
  · exact h'
  · rcases same_iff.mp h' with rfl | ⟨_, hc, hrank'⟩
    · exact h
    · exact same_iff.mpr (.inr ⟨ha, hc, hrank.trans hrank'⟩)

/-- Labels that are one key are the same key as any other label, or none of them is. -/
theorem same_congr (h : a.same b = true) (c : Label) : a.same c = b.same c := by
  rw [Bool.eq_iff_iff]
  exact ⟨same_trans ((same_comm b a).trans h), same_trans h⟩

end Label

namespace Table

variable {α : Type} {table : Table α} {key label : Label} {a : α}

/-- An entry that is put is found under the labels that are its key. -/
theorem get?_put (key label : Label) (a : α) (table : Table α) :
    (Table.put key a table).get? label =
      if key.same label then some a else table.get? label := by
  induction table with
  | nil =>
    unfold put get?
    cases h : key.same label <;> simp [h]
  | cons entry rest ih =>
    obtain ⟨k, old⟩ := entry
    unfold put
    split
    · next hsame =>
      have hcongr := Label.same_congr hsame label
      unfold get?
      cases h : key.same label <;> simp [hcongr, h]
    · next hne =>
      unfold get? at ih ⊢
      rw [List.find?_cons, List.find?_cons]
      cases hk : k.same label with
      | true =>
        have h : key.same label = false := by
          rw [← Bool.not_eq_true]
          intro h
          exact hne (Label.same_trans hk ((Label.same_comm _ _).trans h))
        simp [h]
      | false => exact ih

/-- The table with some entries put, one after the other. -/
def puts (entries : List (Label × α)) (table : Table α) : Table α :=
  entries.foldl (fun table entry => put entry.1 entry.2 table) table

theorem get?_puts {entries : List (Label × α)} :
    (puts entries table).get? label = some a ↔
      LastOf (fun entry b => entry.1.same label = true ∧ entry.2 = b) entries a ∨
        (∀ entry ∈ entries, entry.1.same label = false) ∧ table.get? label = some a := by
  induction entries generalizing table with
  | nil => simp [puts, lastOf_nil]
  | cons entry rest ih =>
    change (puts rest (put entry.1 entry.2 table)).get? label = some a ↔ _
    rw [ih, get?_put, lastOf_cons_iff, List.forall_mem_cons, or_assoc]
    refine or_congr_right ?_
    have hrest : (∀ other ∈ rest, ∀ b, ¬ (other.1.same label = true ∧ other.2 = b)) ↔
        ∀ other ∈ rest, other.1.same label = false := by simp
    rw [hrest]
    cases h : entry.1.same label <;> simp

theorem apart_puts {entries : List (Label × α)} (h : Label.Apart (table.map Prod.fst)) :
    Label.Apart ((puts entries table).map Prod.fst) := by
  induction entries generalizing table with
  | nil => exact h
  | cons entry rest ih => exact ih (apart_put entry.1 entry.2 h)

/-- In a table whose keys differ, each entry is found. -/
theorem get?_of_mem (h : Label.Apart (table.map Prod.fst)) (hmem : (label, a) ∈ table) :
    table.get? label = some a := by
  unfold get?
  cases hfind : table.find? fun entry => entry.1.same label with
  | none => exact absurd (Label.same_refl label) (List.find?_eq_none.mp hfind _ hmem)
  | some entry =>
    have hsame := List.find?_some hfind
    have heq := h.eq_of_same (List.mem_of_find?_eq_some hfind) hmem hsame
    rw [heq]
    rfl

end Table

end Patchbay
