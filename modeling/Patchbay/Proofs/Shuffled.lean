import Mathlib.Data.List.Perm.Basic
import Patchbay.Proofs.Flat.LinkOrder
import Patchbay.Proofs.Keyed
import Patchbay.Proofs.Outcome

/-!
# Lists that correspond up to order

Two lists are `Shuffled` if the entries of one correspond to those of the other in some order. Where
keys tell the entries apart, what is found under a key corresponds (`find?`, `lookup`), and sorting
the lists by their keys puts corresponding entries at the same places (`Shuffled.mergeSort`).
-/

namespace Patchbay

variable {α β γ δ : Type} {R : α → β → Prop} {l : List α} {m : List β}

/-- The entries of one list correspond to those of another, in some order. -/
def Shuffled (R : α → β → Prop) (l : List α) (m : List β) : Prop :=
  ∃ between, List.Forall₂ R l between ∧ between.Perm m

namespace Found

variable {a? : Option α} {b? : Option β}

theorem of_eq {a? b? : Option α} (h : a? = b?) : Option.Rel Eq a? b? := by
  subst h
  cases a? with
  | none => exact .none
  | some a => exact .some rfl

theorem isSome_eq (h : Option.Rel R a? b?) : a?.isSome = b?.isSome := by
  cases h with
  | none => rfl
  | some _ => rfl

theorem map_eq (h : Option.Rel R a? b?) {f : α → γ} {g : β → γ}
    (hfg : ∀ a b, R a b → f a = g b) : a?.map f = b?.map g := by
  cases h with
  | none => rfl
  | some h => exact congrArg _ (hfg _ _ h)

end Found

theorem Matched.pairwise {S : α → α → Prop} {T : β → β → Prop} (h : List.Forall₂ R l m)
    (hl : l.Pairwise S) (hst : ∀ a b c d, S a b → R a c → R b d → T c d) : m.Pairwise T := by
  induction h with
  | nil => exact .nil
  | cons hr hmatch ih =>
    obtain ⟨hfirst, hrest⟩ := List.pairwise_cons.mp hl
    refine List.pairwise_cons.mpr ⟨fun d hd => ?_, ih hrest⟩
    obtain ⟨b, hb, hbd⟩ := Matched.exists_left hmatch hd
    exact hst _ _ _ _ (hfirst b hb) hr hbd

namespace Matched

theorem find? (h : List.Forall₂ R l m) {p : α → Bool} {q : β → Bool}
    (hpq : ∀ a b, R a b → p a = q b) : Option.Rel R (l.find? p) (m.find? q) := by
  induction h with
  | nil => exact .none
  | @cons a b l m hr _ ih =>
    rw [List.find?_cons, List.find?_cons, hpq a b hr]
    split
    · exact .some hr
    · exact ih

/-- Sorting by comparisons that agree keeps entries matched. -/
theorem mergeSort (h : List.Forall₂ R l m) {le : α → α → Bool} {le' : β → β → Bool}
    (hle : ∀ a b a' b', R a b → R a' b' → le a a' = le' b b') :
    List.Forall₂ R (l.mergeSort le) (m.mergeSort le') := by
  obtain ⟨pairs, hpairs, rfl, rfl⟩ : ∃ pairs : List (α × β), (∀ p ∈ pairs, R p.1 p.2) ∧
      pairs.map Prod.fst = l ∧ pairs.map Prod.snd = m := by
    induction h with
    | nil => exact ⟨[], by simp, rfl, rfl⟩
    | @cons a b l m hr _ ih =>
      obtain ⟨pairs, hpairs, rfl, rfl⟩ := ih
      exact ⟨(a, b) :: pairs, List.forall_mem_cons.mpr ⟨hr, hpairs⟩, rfl, rfl⟩
  have hleft := List.map_mergeSort (r := fun p q : α × β => le p.1 q.1) (s := le) (f := Prod.fst)
    (l := pairs) fun _ _ _ _ => rfl
  have hright := List.map_mergeSort (r := fun p q : α × β => le p.1 q.1) (s := le')
    (f := Prod.snd) (l := pairs) fun p hp q hq => hle _ _ _ _ (hpairs p hp) (hpairs q hq)
  rw [← hleft, ← hright, List.forall₂_map_left_iff, List.forall₂_map_right_iff,
    List.forall₂_same]
  exact fun p hp => hpairs p (List.mem_mergeSort.mp hp)

end Matched

/-- A list is sorted in one way by an order that tells its entries apart. -/
theorem mergeSort_eq_of_perm {le : α → α → Bool} {l m : List α} (hperm : l.Perm m)
    (htrans : ∀ a ∈ l, ∀ b ∈ l, ∀ c ∈ l, le a b = true → le b c = true → le a c = true)
    (htotal : ∀ a ∈ l, ∀ b ∈ l, le a b = true ∨ le b a = true)
    (hantisymm : ∀ a ∈ l, ∀ b ∈ l, le a b = true → le b a = true → a = b) :
    l.mergeSort le = m.mergeSort le := by
  -- The order is total on the entries only, so they are sorted as members of the list.
  let within (x y : {a // a ∈ l}) : Bool := le x.1 y.1
  have hsort : ∀ entries : List {a // a ∈ l},
      (entries.mergeSort within).map Subtype.val = (entries.map Subtype.val).mergeSort le :=
    fun entries => List.map_mergeSort fun _ _ _ _ => rfl
  have hpairwise : ∀ entries : List {a // a ∈ l}, (entries.mergeSort within).Pairwise
      fun x y => within x y = true :=
    List.pairwise_mergeSort (fun x y z => htrans x x.2 y y.2 z z.2)
      fun x y => by simpa using htotal x x.2 y y.2
  obtain ⟨entries, rfl⟩ : ∃ entries : List {a // a ∈ l}, entries.map Subtype.val = m :=
    ⟨m.attachWith _ fun a ha => hperm.mem_iff.mpr ha, List.attachWith_map_subtype_val _⟩
  have hattach : l.attach.Perm entries := by
    refine (List.map_perm_map_iff Subtype.val_injective).mp ?_
    rwa [List.attach_map_subtype_val]
  have heq : l.attach.mergeSort within = entries.mergeSort within := by
    refine List.Perm.eq_of_pairwise ?_ (hpairwise _) (hpairwise _)
      ((List.mergeSort_perm _ _).trans (hattach.trans (List.mergeSort_perm _ _).symm))
    exact fun x y _ _ hxy hyx => Subtype.ext (hantisymm x x.2 y y.2 hxy hyx)
  rw [← hsort, ← heq, hsort, List.attach_map_subtype_val]

/-- What is listed once each and sorted depends on the members only. -/
theorem mergeSort_eraseDups_eq [DecidableEq α] {le : α → α → Bool} {l m : List α}
    (htrans : ∀ a b c, le a b = true → le b c = true → le a c = true)
    (htotal : ∀ a b, le a b = true ∨ le b a = true)
    (hantisymm : ∀ a b, le a b = true → le b a = true → a = b) (h : ∀ a, a ∈ l ↔ a ∈ m) :
    l.eraseDups.mergeSort le = m.eraseDups.mergeSort le := by
  have hperm : l.eraseDups.Perm m.eraseDups := by
    rw [List.perm_ext_iff_of_nodup (nodup_eraseDups _) (nodup_eraseDups _)]
    simpa only [List.mem_eraseDups] using h
  exact mergeSort_eq_of_perm hperm (fun a _ b _ c _ => htrans a b c) (fun a _ b _ => htotal a b)
    fun a _ b _ => hantisymm a b

theorem ascendingTexts_eq {texts texts' : List String} (h : ∀ s, s ∈ texts ↔ s ∈ texts') :
    ascendingTexts texts = ascendingTexts texts' :=
  mergeSort_eraseDups_eq (fun _ _ _ => Text.le_trans) Text.le_total (fun _ _ => Text.le_antisymm) h

namespace Shuffled

theorem of_forall₂ (h : List.Forall₂ R l m) : Shuffled R l m := ⟨m, h, .refl m⟩

theorem of_perm {R : α → α → Prop} {l m : List α} (hr : ∀ a ∈ l, R a a) (h : l.Perm m) :
    Shuffled R l m :=
  ⟨l, List.forall₂_same.mpr hr, h⟩

/-- Entries are shuffled where what is made of them is the same up to order. -/
theorem of_map_perm {f : α → γ} {g : β → γ} (h : (l.map f).Perm (m.map g)) :
    Shuffled (fun a b => f a = g b) l m := by
  have hm : List.Forall₂ (fun c b => c = g b) (m.map g) m :=
    List.forall₂_map_left_iff.mpr (List.forall₂_same.mpr fun _ _ => rfl)
  obtain ⟨between, hmatch, hperm⟩ := List.perm_comp_forall₂ h hm
  exact ⟨between, List.forall₂_map_left_iff.mp hmatch, hperm⟩

theorem nil : Shuffled R [] [] := of_forall₂ .nil

theorem cons {a : α} {b : β} (hr : R a b) (h : Shuffled R l m) : Shuffled R (a :: l) (b :: m) := by
  obtain ⟨between, hmatch, hperm⟩ := h
  exact ⟨b :: between, .cons hr hmatch, hperm.cons b⟩

theorem perm {l m : List α} (h : Shuffled Eq l m) : l.Perm m := by
  obtain ⟨between, hmatch, hperm⟩ := h
  rw [List.forall₂_eq_eq_eq] at hmatch
  exact hmatch ▸ hperm

theorem perm_left {l' : List α} (h : Shuffled R l m) (hp : l'.Perm l) : Shuffled R l' m := by
  obtain ⟨between, hmatch, hperm⟩ := h
  obtain ⟨between', hmatch', hperm'⟩ := List.perm_comp_forall₂ hp hmatch
  exact ⟨between', hmatch', hperm'.trans hperm⟩

theorem perm_right {m' : List β} (h : Shuffled R l m) (hp : m.Perm m') : Shuffled R l m' := by
  obtain ⟨between, hmatch, hperm⟩ := h
  exact ⟨between, hmatch, hperm.trans hp⟩

theorem imp_of_mem {S : α → β → Prop} (h : Shuffled R l m)
    (hrs : ∀ a ∈ l, ∀ b ∈ m, R a b → S a b) : Shuffled S l m := by
  obtain ⟨between, hmatch, hperm⟩ := h
  refine ⟨between, ?_, hperm⟩
  have hmem : ∀ b ∈ between, b ∈ m := fun _ => hperm.mem_iff.mp
  clear hperm
  induction hmatch with
  | nil => exact .nil
  | cons hr _ ih =>
    refine .cons (hrs _ List.mem_cons_self _ (hmem _ List.mem_cons_self) hr) (ih ?_ ?_)
    · exact fun a ha => hrs a (List.mem_cons_of_mem _ ha)
    · exact fun b hb => hmem b (List.mem_cons_of_mem _ hb)

theorem exists_right (h : Shuffled R l m) {a : α} (ha : a ∈ l) : ∃ b ∈ m, R a b := by
  obtain ⟨between, hmatch, hperm⟩ := h
  obtain ⟨b, hb, hr⟩ := Matched.exists_right hmatch ha
  exact ⟨b, hperm.mem_iff.mp hb, hr⟩

theorem exists_left (h : Shuffled R l m) {b : β} (hb : b ∈ m) : ∃ a ∈ l, R a b := by
  obtain ⟨between, hmatch, hperm⟩ := h
  exact Matched.exists_left hmatch (hperm.mem_iff.mpr hb)

theorem map {S : γ → δ → Prop} (h : Shuffled R l m) {f : α → γ} {g : β → δ}
    (hfg : ∀ a b, R a b → S (f a) (g b)) : Shuffled S (l.map f) (m.map g) := by
  obtain ⟨between, hmatch, hperm⟩ := h
  refine ⟨between.map g, ?_, hperm.map g⟩
  rw [List.forall₂_map_left_iff, List.forall₂_map_right_iff]
  exact hmatch.imp fun a b => hfg a b

theorem map_perm (h : Shuffled R l m) {f : α → γ} {g : β → γ} (hfg : ∀ a b, R a b → f a = g b) :
    (l.map f).Perm (m.map g) := by
  obtain ⟨between, hmatch, hperm⟩ := h
  rw [Matched.map_eq hmatch hfg]
  exact hperm.map g

theorem filter (h : Shuffled R l m) {p : α → Bool} {q : β → Bool}
    (hpq : ∀ a b, R a b → p a = q b) : Shuffled R (l.filter p) (m.filter q) := by
  obtain ⟨between, hmatch, hperm⟩ := h
  exact ⟨_, List.rel_filter (fun a b hr => Bool.eq_iff_iff.mp (hpq a b hr)) hmatch,
    hperm.filter q⟩

theorem flatMap {S : γ → δ → Prop} (h : Shuffled R l m) {f : α → List γ} {g : β → List δ}
    (hfg : ∀ a b, R a b → List.Forall₂ S (f a) (g b)) :
    Shuffled S (l.flatMap f) (m.flatMap g) := by
  obtain ⟨between, hmatch, hperm⟩ := h
  exact ⟨between.flatMap g, List.rel_flatMap hmatch fun a b => hfg a b, hperm.flatMap_right g⟩

theorem flatMap_perm (h : Shuffled R l m) {f : α → List γ} {g : β → List γ}
    (hfg : ∀ a b, R a b → (f a).Perm (g b)) : (l.flatMap f).Perm (m.flatMap g) := by
  obtain ⟨between, hmatch, hperm⟩ := h
  refine List.Perm.trans ?_ (hperm.flatMap_right g)
  clear hperm
  induction hmatch with
  | nil => exact .refl _
  | cons hr _ ih =>
    rw [List.flatMap_cons, List.flatMap_cons]
    exact (hfg _ _ hr).append ih

theorem filterMap {S : γ → δ → Prop} (h : Shuffled R l m) {f : α → Option γ} {g : β → Option δ}
    (hfg : ∀ a b, R a b → Option.Rel S (f a) (g b)) :
    Shuffled S (l.filterMap f) (m.filterMap g) := by
  obtain ⟨between, hmatch, hperm⟩ := h
  exact ⟨between.filterMap g, List.rel_filterMap (fun a b => hfg a b) hmatch, hperm.filterMap g⟩

/-- What is made of shuffled entries one by one is shuffled. -/
theorem transfer {P : α → γ → Prop} {Q : β → δ → Prop} {S : γ → δ → Prop} {l' : List γ}
    {m' : List δ} (h : Shuffled R l m) (hl : List.Forall₂ P l l') (hm : List.Forall₂ Q m m')
    (hs : ∀ a b c d, R a b → P a c → Q b d → S c d) : Shuffled S l' m' := by
  obtain ⟨between, hmatch, hperm⟩ := h
  obtain ⟨between', hbetween, hperm'⟩ := List.perm_comp_forall₂ hperm hm
  refine ⟨between', ?_, hperm'⟩
  clear hm hperm hperm'
  induction hmatch generalizing l' between' with
  | nil =>
    cases hl with
    | nil =>
      cases hbetween with
      | nil => exact .nil
  | cons hr _ ih =>
    cases hl with
    | cons hp hl =>
      cases hbetween with
      | cons hq hbetween => exact .cons (hs _ _ _ _ hr hp hq) (ih hl _ hbetween)

/-- A search through entries that agree finds something in both, or in none. -/
theorem findSome?_isSome_eq (h : Shuffled R l m) {f : α → Option γ} {g : β → Option γ}
    (hfg : ∀ a b, R a b → f a = g b) : (l.findSome? f).isSome = (m.findSome? g).isSome := by
  rw [Bool.eq_iff_iff, List.findSome?_isSome_iff, List.findSome?_isSome_iff]
  constructor
  · rintro ⟨a, ha, hfound⟩
    obtain ⟨b, hb, hr⟩ := h.exists_right ha
    exact ⟨b, hb, hfg a b hr ▸ hfound⟩
  · rintro ⟨b, hb, hfound⟩
    obtain ⟨a, ha, hr⟩ := h.exists_left hb
    exact ⟨a, ha, hfg a b hr ▸ hfound⟩

theorem length_eq (h : Shuffled R l m) : l.length = m.length := by
  obtain ⟨between, hmatch, hperm⟩ := h
  exact hmatch.length_eq.trans hperm.length_eq

/-- What a list holds under a key corresponds to what the other holds, where keys tell the entries
apart. -/
theorem find? {κ : Type} [DecidableEq κ] {key : α → κ} {key' : β → κ} (h : Shuffled R l m)
    (hkey : ∀ a b, R a b → key a = key' b) (hn : (l.map key).Nodup) (k : κ) :
    Option.Rel R (l.find? (key · = k)) (m.find? (key' · = k)) := by
  have hn' : (m.map key').Nodup := (h.map_perm hkey).nodup_iff.mp hn
  cases hfound : l.find? (key · = k) with
  | none =>
    have hnone : m.find? (key' · = k) = Option.none := by
      rw [List.find?_eq_none] at hfound ⊢
      intro b hb
      obtain ⟨a, ha, hr⟩ := h.exists_left hb
      rw [← hkey a b hr]
      exact hfound a ha
    rw [hnone]
    exact .none
  | some a =>
    obtain ⟨ha, rfl⟩ := Keyed.mem_of_find? hfound
    obtain ⟨b, hb, hr⟩ := h.exists_right ha
    rw [(Keyed.find?_eq_some_iff (List.inj_on_of_nodup_map hn')).mpr ⟨hb, (hkey a b hr).symm⟩]
    exact .some hr

end Shuffled

/-! ## Tables -/

/-- Two entries have one key, and values that correspond. -/
def Keyed.Corresponds {κ : Type} (R : α → β → Prop) (a : κ × α) (b : κ × β) : Prop :=
  a.1 = b.1 ∧ R a.2 b.2

theorem Keyed.lookup_eq_find? {κ : Type} [DecidableEq κ] (table : List (κ × α)) (k : κ) :
    table.lookup k = (table.find? (·.1 = k)).map Prod.snd := by
  induction table with
  | nil => rfl
  | cons head rest ih =>
    rw [List.lookup_cons, List.find?_cons]
    by_cases h : head.1 = k
    · simp [h]
    · rw [beq_false_of_ne (Ne.symm h), decide_eq_false h]
      exact ih

theorem Shuffled.lookup {κ : Type} [DecidableEq κ] {table : List (κ × α)} {table' : List (κ × β)}
    (h : Shuffled (Keyed.Corresponds R) table table') (hn : (table.map Prod.fst).Nodup) (k : κ) :
    Option.Rel R (table.lookup k) (table'.lookup k) := by
  rw [Keyed.lookup_eq_find?, Keyed.lookup_eq_find?]
  have hfound := h.find? (fun _ _ hr => hr.1) hn k
  generalize table.find? (·.1 = k) = found at hfound
  generalize table'.find? (·.1 = k) = found' at hfound
  cases hfound with
  | none => exact .none
  | some hr => exact .some hr.2

/-! ## Steps on every entry -/

section Steps

variable {ε ε' : Type} {S : γ → δ → Prop} {f : α → Except ε γ} {g : β → Except ε' δ}

theorem Matched.mapM {E : ε → ε' → Prop} (h : List.Forall₂ R l m)
    (hfg : ∀ a b, R a b → Agree E S (f a) (g b)) :
    Agree E (List.Forall₂ S) (l.mapM f) (m.mapM g) := by
  induction h with
  | nil => exact .ok .nil
  | cons hr _ ih =>
    rw [List.mapM_cons, List.mapM_cons]
    refine (hfg _ _ hr).bind fun c d hcd => ih.bind fun cs ds hcds => ?_
    exact .ok (.cons hcd hcds)

theorem mapM_perm {l m : List α} (h : l.Perm m) (f : α → Except ε γ) :
    Together List.Perm (l.mapM f) (m.mapM f) := by
  induction h with
  | nil => exact .ok .nil
  | cons a _ ih =>
    rw [List.mapM_cons, List.mapM_cons]
    refine (Together.same (f a)).bind fun c d hcd => ih.bind fun cs ds hcds => ?_
    exact .ok (hcd ▸ hcds.cons c)
  | swap a b l =>
    simp only [List.mapM_cons, bind, Except.bind]
    cases f a with
    | error cause =>
      cases f b with
      | error cause' => exact .error
      | ok d => exact .error
    | ok c =>
      cases f b with
      | error cause => exact .error
      | ok d =>
        cases l.mapM f with
        | error cause => exact .error
        | ok rest => exact .ok (.swap _ _ _)
  | trans _ _ ih ih' => exact (ih.trans ih').mono fun _ _ ⟨_, h, h'⟩ => h.trans h'

theorem Matched.of_mapM {f : α → Except ε γ} {l : List α} {l' : List γ} (h : l.mapM f = .ok l') :
    List.Forall₂ (fun a c => f a = .ok c) l l' := by
  induction l generalizing l' with
  | nil =>
    obtain rfl := Except.ok.inj h
    exact .nil
  | cons a rest ih =>
    rw [List.mapM_cons] at h
    obtain ⟨c, hc, h⟩ := bind_eq_ok.mp h
    obtain ⟨others, hothers, h⟩ := bind_eq_ok.mp h
    obtain rfl := pure_eq_ok.mp h
    exact .cons hc (ih hothers)

theorem mapM_eq_ok_iff {f : α → Except ε γ} {P : α → γ → Prop} (hf : ∀ a c, f a = .ok c ↔ P a c)
    {l : List α} {l' : List γ} : l.mapM f = .ok l' ↔ List.Forall₂ P l l' := by
  refine ⟨fun h => (Matched.of_mapM h).imp fun a c => (hf a c).mp, fun h => ?_⟩
  induction h with
  | nil => rfl
  | cons hr _ ih => rw [List.mapM_cons, (hf _ _).mpr hr, ih]; rfl

theorem mapM_flatMap (l : List α) (f : α → List δ) (g : δ → Except ε γ) :
    (l.flatMap f).mapM g = (l.mapM fun a => (f a).mapM g).map List.flatten := by
  induction l with
  | nil => rfl
  | cons a rest ih =>
    rw [List.flatMap_cons, List.mapM_append, ih, List.mapM_cons]
    cases (f a).mapM g with
    | error cause => rfl
    | ok first =>
      cases rest.mapM fun a => (f a).mapM g with
      | error cause => rfl
      | ok others => rfl

/-- A step on every entry of shuffled lists gives shuffled results, or fails on both. -/
theorem Shuffled.mapM (h : Shuffled R l m) (hfg : ∀ a b, R a b → Together S (f a) (g b)) :
    Together (Shuffled S) (l.mapM f) (m.mapM g) := by
  obtain ⟨between, hmatch, hperm⟩ := h
  exact Together.trans (Matched.mapM hmatch hfg) (mapM_perm hperm g)

end Steps

end Patchbay
