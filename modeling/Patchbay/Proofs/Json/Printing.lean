import Mathlib.Data.Bool.AllAny
import Mathlib.Data.Set.Operations
import Patchbay.Proofs.Decimal.Layout
import Patchbay.Proofs.Json.Quoting
import Patchbay.Proofs.Keyed

/-!
# Values on one line

A value that is written on one line in ASCII can be told from every other and from what stands
behind it (`write_injective`), if the halves of surrogate pairs in its texts stand apart and the
texts of its numbers tell them apart. Whatever the value, it is written without a line feed.
-/

namespace Patchbay.Json

mutual

/-- The halves of surrogate pairs stand apart in all texts of the value, keys among them, and its
numbers that are not integers are among the given ones. -/
def Clear (numbers : Set Binary64) : Value → Prop
  | .float x => x ∈ numbers
  | .str s => HalvesApart (Text.codes s.toList)
  | .arr items => ClearItems numbers items
  | .obj members => ClearMembers numbers members
  | _ => True

/-- `Clear` for the items of an array. -/
def ClearItems (numbers : Set Binary64) : List Value → Prop
  | [] => True
  | v :: rest => Clear numbers v ∧ ClearItems numbers rest

/-- `Clear` for the members of an object. -/
def ClearMembers (numbers : Set Binary64) : Members → Prop
  | [] => True
  | (key, v) :: rest =>
    HalvesApart (Text.codes key.toList) ∧ Clear numbers v ∧ ClearMembers numbers rest

end

variable {numbers : Set Binary64} {depth : Nat} {key : String} {v w : Value} {items : List Value}
  {members : Members}

theorem clearItems_iff : ClearItems numbers items ↔ ∀ v ∈ items, Clear numbers v := by
  induction items with
  | nil => exact ⟨fun _ _ h => absurd h List.not_mem_nil, fun _ => trivial⟩
  | cons v rest ih =>
    rw [List.forall_mem_cons, ← ih]
    rfl

theorem clearMembers_iff : ClearMembers numbers members ↔
    ∀ member ∈ members, HalvesApart (Text.codes member.1.toList) ∧ Clear numbers member.2 := by
  induction members with
  | nil => exact ⟨fun _ _ h => absurd h List.not_mem_nil, fun _ => trivial⟩
  | cons member rest ih =>
    rw [List.forall_mem_cons, ← ih]
    exact and_assoc.symm

mutual

theorem clear_sortKeys : ∀ (v : Value), Clear numbers v → Clear numbers v.sortKeys
  | .null, h | .bool _, h | .int _, h | .float _, h | .str _, h => h
  | .arr items, h => clearItems_sortItems items h
  | .obj members, h => by
    refine clearMembers_iff.mpr fun member hmember => ?_
    have hmember := (List.mergeSort_perm _ _).mem_iff.mp hmember
    exact clearMembers_iff.mp (clearMembers_sortMembers members h) member hmember

theorem clearItems_sortItems :
    ∀ (items : List Value), ClearItems numbers items → ClearItems numbers (Value.sortItems items)
  | [], h => h
  | v :: rest, h => ⟨clear_sortKeys v h.1, clearItems_sortItems rest h.2⟩

theorem clearMembers_sortMembers : ∀ (members : Members), ClearMembers numbers members →
    ClearMembers numbers (Value.sortMembers members)
  | [], h => h
  | (_, v) :: rest, h => ⟨h.1, clear_sortKeys v h.2.1, clearMembers_sortMembers rest h.2.2⟩

end

/-- On one line, in ASCII. -/
abbrev Style.line : Style := .spaced none

/-! ## Equations -/

theorem write_arr_cons : write .line depth (.arr (v :: items)) =
    '[' :: (write .line (depth + 1) v ++ (writeItems .line (depth + 1) items ++ [']'])) := by
  simp [write, lineStart, Style.spaced]

theorem writeItems_cons : writeItems .line depth (v :: items) =
    ',' :: ' ' :: (write .line depth v ++ writeItems .line depth items) := by
  simp [writeItems, separator, Style.spaced]

theorem write_obj_cons : write .line depth (.obj ((key, v) :: members)) =
    '{' :: (quote .line key ++ (':' :: ' ' :: (write .line (depth + 1) v ++
      (writeMembers .line (depth + 1) members ++ ['}'])))) := by
  simp [write, lineStart, Style.spaced]

theorem writeMembers_cons : writeMembers .line depth ((key, v) :: members) =
    ',' :: ' ' :: (quote .line key ++ (':' :: ' ' :: (write .line depth v ++
      writeMembers .line depth members))) := by
  simp [writeMembers, separator, Style.spaced]

/-! ## Words -/

/-- The value is null, a truth value or a number. -/
inductive IsWord : Value → Prop
  | null : IsWord .null
  | bool (b : Bool) : IsWord (.bool b)
  | int (n : Int) : IsWord (.int n)
  | float (x : Binary64) : IsWord (.float x)

/-- A character with which a value starts that is no word, or with which what stands behind a value
starts. -/
def isStop (c : Char) : Bool := ['"', '[', '{', ']', '}', ',', ';'].contains c

theorem not_numeral : ∀ c ∈ ['"', '[', '{', ']', '}', ',', ';', 'l', 'u', '\n'], ¬ IsNumeral c :=
  List.all_iff_forall_prop.mp (by decide)

theorem isStop_of_numeral {c : Char} (h : IsNumeral c) : isStop c = false := by
  rw [isStop, ← Bool.not_eq_true, List.contains_iff_mem]
  exact fun hstop => not_numeral c (List.mem_append_left ['l', 'u', '\n'] hstop) h

theorem isStop_of_mem_word (hv : IsWord v) {c : Char} (h : c ∈ write .line depth v) :
    isStop c = false := by
  have hnames : ∀ c ∈ "null".toList ++ "true".toList ++ "false".toList, isStop c = false :=
    List.all_iff_forall_prop.mp (by decide)
  cases hv with
  | null => exact hnames c (List.mem_append_left _ (List.mem_append_left _ h))
  | bool b =>
    cases b with
    | true => exact hnames c (List.mem_append_left _ (List.mem_append_right _ h))
    | false => exact hnames c (List.mem_append_right _ h)
  | int n => exact isStop_of_numeral (numeral_of_mem_intText h)
  | float x => exact isStop_of_numeral (numeral_of_mem_text h)

/-- A word is one of three names, with a letter in it that no number has, or a number. -/
theorem word_cases (hv : IsWord v) :
    (v ∈ [.null, .bool true, .bool false] ∧ ∃ c ∈ write .line depth v, ¬ IsNumeral c) ∨
    (((∃ n, v = .int n) ∨ ∃ x, v = .float x) ∧ ∀ c ∈ write .line depth v, IsNumeral c) := by
  cases hv with
  | null => exact .inl ⟨by simp, 'l', by simp [write], by decide⟩
  | bool b =>
    cases b with
    | true => exact .inl ⟨by simp, 'u', by simp [write], by decide⟩
    | false => exact .inl ⟨by simp, 'l', by simp [write], by decide⟩
  | int n => exact .inr ⟨.inl ⟨n, rfl⟩, fun _ => numeral_of_mem_intText⟩
  | float x => exact .inr ⟨.inr ⟨x, rfl⟩, fun _ => numeral_of_mem_text⟩

theorem write_ne_nil_of_word (hv : IsWord v) : write .line depth v ≠ [] := by
  cases hv with
  | null => simp [write]
  | bool b => cases b <;> simp [write]
  | int n =>
    show (Text.Numeral.intText n).toList ≠ []
    rw [Text.Numeral.toList_intText]
    split
    · simp
    · exact Text.Numeral.digits_ne_nil _
  | float x => exact text_ne_nil x

/-! ## Starts of values -/

/-- What a value starts with that is no word. -/
def lead : Value → Option Char
  | .str _ => some '"'
  | .arr _ => some '['
  | .obj _ => some '{'
  | _ => none

theorem write_head (v : Value) : ∃ c rest, write .line depth v = c :: rest ∧
    (lead v = some c ∧ c ∈ ['"', '[', '{'] ∨ lead v = none ∧ isStop c = false) := by
  have hword : IsWord v → lead v = none → ∃ c rest, write .line depth v = c :: rest ∧
      (lead v = some c ∧ c ∈ ['"', '[', '{'] ∨ lead v = none ∧ isStop c = false) := by
    intro hv hlead
    obtain ⟨c, rest, heq⟩ := List.exists_cons_of_ne_nil (@write_ne_nil_of_word depth v hv)
    exact ⟨c, rest, heq, .inr ⟨hlead, @isStop_of_mem_word depth v hv c (heq ▸ List.mem_cons_self)⟩⟩
  cases v with
  | str s => exact ⟨_, _, rfl, .inl ⟨rfl, by decide⟩⟩
  | arr items =>
    cases items with
    | nil => exact ⟨_, _, rfl, .inl ⟨rfl, by decide⟩⟩
    | cons v items => exact ⟨_, _, write_arr_cons, .inl ⟨rfl, by decide⟩⟩
  | obj members =>
    cases members with
    | nil => exact ⟨_, _, rfl, .inl ⟨rfl, by decide⟩⟩
    | cons member members => exact ⟨_, _, write_obj_cons, .inl ⟨rfl, by decide⟩⟩
  | null => exact hword .null rfl
  | bool b => exact hword (.bool b) rfl
  | int n => exact hword (.int n) rfl
  | float x => exact hword (.float x) rfl

/-- What an array or an object goes on with behind a part of it, or a line ends with. -/
def Closes (rest : List Char) : Prop := ∃ c tail, rest = c :: tail ∧ c ∈ [']', '}', ',', ';']

theorem isStop_of_closes {c : Char} (h : c ∈ [']', '}', ',', ';']) : isStop c = true := by
  have hall : ∀ c ∈ [']', '}', ',', ';'], isStop c = true :=
    List.all_iff_forall_prop.mp (by decide)
  exact hall c h

variable {depth' : Nat} {r s : List Char}

theorem lead_eq (h : write .line depth v ++ r = write .line depth' w ++ s) : lead v = lead w := by
  have hstop : ∀ c ∈ ['"', '[', '{'], isStop c = true :=
    List.all_iff_forall_prop.mp (by decide)
  obtain ⟨c, rest, hc, hv⟩ := @write_head depth v
  obtain ⟨c', rest', hc', hw⟩ := @write_head depth' w
  rw [hc, hc'] at h
  obtain rfl := (List.cons.inj h).1
  rcases hv with ⟨hv, hmem⟩ | ⟨hv, hno⟩ <;> rcases hw with ⟨hw, hmem'⟩ | ⟨hw, hno'⟩
  · rw [hv, hw]
  · exact absurd ((hstop c hmem).symm.trans hno') (by decide)
  · exact absurd ((hstop c hmem').symm.trans hno) (by decide)
  · rw [hv, hw]

/-- A value does not start with the bracket that closes another. -/
theorem write_append_ne {c : Char} (hc : c ∈ [']', '}', ',', ';']) :
    write .line depth v ++ r ≠ c :: s := by
  intro heq
  have hopen : ∀ c ∈ [']', '}', ',', ';'], c ∉ ['"', '[', '{'] :=
    List.all_iff_forall_prop.mp (by decide)
  obtain ⟨c', rest, hc', hv⟩ := @write_head depth v
  rw [hc'] at heq
  obtain rfl := (List.cons.inj heq).1
  rcases hv with ⟨_, hmem⟩ | ⟨_, hno⟩
  · exact hopen c' hc hmem
  · exact absurd ((isStop_of_closes hc).symm.trans hno) (by decide)

theorem word_injective (hnumbers : Set.InjOn numberLayout.text numbers) (hv : IsWord v)
    (hw : IsWord w) (hcv : Clear numbers v) (hcw : Clear numbers w)
    (h : write .line depth v = write .line depth' w) : v = w := by
  rcases @word_cases depth v hv with ⟨hname, c, hc, hletter⟩ | ⟨hnumber, hnumeral⟩
  · rcases @word_cases depth' w hw with ⟨hname', _⟩ | ⟨_, hnumeral⟩
    · simp only [List.mem_cons, List.not_mem_nil, or_false] at hname hname'
      rcases hname with rfl | rfl | rfl <;> rcases hname' with rfl | rfl | rfl <;>
        first | rfl | exact absurd h (by simp [write])
    · exact absurd (hnumeral c (h ▸ hc)) hletter
  · rcases @word_cases depth' w hw with ⟨_, c, hc, hletter⟩ | ⟨hnumber', _⟩
    · exact absurd (hnumeral c (h ▸ hc)) hletter
    · rcases hnumber with ⟨n, rfl⟩ | ⟨x, rfl⟩ <;> rcases hnumber' with ⟨m, rfl⟩ | ⟨y, rfl⟩
      · rw [Text.Numeral.intText_injective (String.toList_inj.mp h)]
      · exact absurd (String.toList_inj.mp h).symm (text_ne_intText y n)
      · exact absurd (String.toList_inj.mp h) (text_ne_intText x m)
      · rw [hnumbers hcv hcw (String.toList_inj.mp h)]

/-! ## Values -/

theorem closes_items (items : List Value) (r : List Char) :
    Closes (writeItems .line depth items ++ ']' :: r) := by
  cases items with
  | nil => exact ⟨_, _, rfl, by decide⟩
  | cons v items => exact ⟨_, _, by rw [writeItems_cons]; rfl, by decide⟩

theorem closes_members (members : Members) (r : List Char) :
    Closes (writeMembers .line depth members ++ '}' :: r) := by
  cases members with
  | nil => exact ⟨_, _, rfl, by decide⟩
  | cons member members => exact ⟨_, _, by rw [writeMembers_cons]; rfl, by decide⟩

/-- The value can be told from every other, and from what closes it. -/
def Told (numbers : Set Binary64) (v : Value) : Prop :=
  ∀ {w : Value} {depth depth' : Nat} {r s : List Char}, Clear numbers w → Closes r → Closes s →
    write .line depth v ++ r = write .line depth' w ++ s → v = w ∧ r = s

/-- `Told` for the items that stand behind another in an array. -/
def ItemsTold (numbers : Set Binary64) (items : List Value) : Prop :=
  ∀ {others : List Value} {depth depth' : Nat} {r s : List Char}, ClearItems numbers others →
    writeItems .line depth items ++ ']' :: r = writeItems .line depth' others ++ ']' :: s →
      items = others ∧ r = s

/-- `Told` for the members that stand behind another in an object. -/
def MembersTold (numbers : Set Binary64) (members : Members) : Prop :=
  ∀ {others : Members} {depth depth' : Nat} {r s : List Char}, ClearMembers numbers others →
    writeMembers .line depth members ++ '}' :: r = writeMembers .line depth' others ++ '}' :: s →
      members = others ∧ r = s

theorem told_word (hnumbers : Set.InjOn numberLayout.text numbers) (hv : IsWord v)
    (hcv : Clear numbers v) : Told numbers v := by
  intro w depth depth' r s hcw hr hs h
  have hstop : ∀ {rest : List Char}, Closes rest → ∀ c ∈ rest.head?, isStop c = true := by
    rintro _ ⟨c, tail, rfl, hc⟩ c' hc'
    obtain rfl := Option.some.inj hc'
    exact isStop_of_closes hc
  have hlead : lead v = lead w := lead_eq h
  have hw : IsWord w := by
    have hnone : lead w = none := by
      rw [← hlead]
      cases hv with
      | _ => rfl
    cases w with
    | null => exact .null
    | bool b => exact .bool b
    | int n => exact .int n
    | float x => exact .float x
    | _ => exact absurd hnone (by simp [lead])
  obtain ⟨heq, hrest⟩ := append_stop_inj (fun _ => isStop_of_mem_word hv)
    (fun _ => isStop_of_mem_word hw) (hstop hr) (hstop hs) h
  exact ⟨word_injective hnumbers hv hw hcv hcw heq, hrest⟩

theorem told_str {t : String} (ht : HalvesApart (Text.codes t.toList)) :
    Told numbers (.str t) := by
  intro w depth depth' r s hw hr hs h
  have hlead := lead_eq h
  cases w with
  | str t' =>
    obtain ⟨rfl, rfl⟩ := quote_append_injective ht hw rfl h
    exact ⟨rfl, rfl⟩
  | _ => exact absurd hlead (by simp [lead])

/-! ### Arrays -/

/-- An item, and those behind it. -/
theorem items_told (hv : Told numbers v) (hitems : ItemsTold numbers items)
    {others : List Value} (hw : Clear numbers w) (hothers : ClearItems numbers others)
    (h : write .line depth v ++ (writeItems .line depth items ++ ']' :: r) =
      write .line depth' w ++ (writeItems .line depth' others ++ ']' :: s)) :
    v :: items = w :: others ∧ r = s := by
  obtain ⟨rfl, hbehind⟩ := hv hw (closes_items items r) (closes_items others s) h
  obtain ⟨rfl, hrest⟩ := hitems hothers hbehind
  exact ⟨rfl, hrest⟩

theorem told_arr_nil : Told numbers (.arr []) := by
  intro w depth depth' r s hw hr hs h
  have hlead := lead_eq h
  cases w with
  | arr others =>
    cases others with
    | nil => exact ⟨rfl, (List.cons.inj (List.cons.inj h).2).2⟩
    | cons w others =>
      rw [write_arr_cons] at h
      simp only [List.cons_append, List.append_assoc] at h
      exact absurd (List.cons.inj h).2.symm (write_append_ne (by decide))
  | _ => exact absurd hlead (by simp [lead])

theorem told_arr_cons (hv : Told numbers v) (hitems : ItemsTold numbers items) :
    Told numbers (.arr (v :: items)) := by
  intro w depth depth' r s hw hr hs h
  have hlead := lead_eq h
  cases w with
  | arr others =>
    rw [write_arr_cons] at h
    simp only [List.cons_append, List.append_assoc] at h
    cases others with
    | nil => exact absurd (List.cons.inj h).2 (write_append_ne (by decide))
    | cons w others =>
      rw [write_arr_cons] at h
      simp only [List.cons_append, List.append_assoc] at h
      obtain ⟨heq, hrest⟩ := items_told hv hitems hw.1 hw.2 (List.cons.inj h).2
      exact ⟨congrArg Value.arr heq, hrest⟩
  | _ => exact absurd hlead (by simp [lead])

theorem itemsTold_nil : ItemsTold numbers [] := by
  intro others depth depth' r s hothers h
  cases others with
  | nil => exact ⟨rfl, (List.cons.inj h).2⟩
  | cons w others =>
    rw [writeItems_cons] at h
    exact absurd (List.cons.inj h).1 (by decide)

theorem itemsTold_cons (hv : Told numbers v) (hitems : ItemsTold numbers items) :
    ItemsTold numbers (v :: items) := by
  intro others depth depth' r s hothers h
  rw [writeItems_cons] at h
  cases others with
  | nil => exact absurd (List.cons.inj h).1 (by decide)
  | cons w others =>
    rw [writeItems_cons] at h
    simp only [List.cons_append, List.append_assoc] at h
    exact items_told hv hitems hothers.1 hothers.2 (List.cons.inj (List.cons.inj h).2).2

/-! ### Objects -/

/-- A member, and those behind it. -/
theorem members_told (hkey : HalvesApart (Text.codes key.toList)) (hv : Told numbers v)
    (hmembers : MembersTold numbers members) {other : String × Value} {others : Members}
    (hothers : ClearMembers numbers (other :: others))
    (h : quote .line key ++ (':' :: ' ' :: (write .line depth v ++
        (writeMembers .line depth members ++ '}' :: r))) =
      quote .line other.1 ++ (':' :: ' ' :: (write .line depth' other.2 ++
        (writeMembers .line depth' others ++ '}' :: s)))) :
    (key, v) :: members = other :: others ∧ r = s := by
  obtain ⟨rfl, hvalue⟩ := quote_append_injective hkey hothers.1 rfl h
  obtain ⟨rfl, hbehind⟩ := hv hothers.2.1 (closes_members members r) (closes_members others s)
    (List.cons.inj (List.cons.inj hvalue).2).2
  obtain ⟨rfl, hrest⟩ := hmembers hothers.2.2 hbehind
  exact ⟨rfl, hrest⟩

theorem told_obj_nil : Told numbers (.obj []) := by
  intro w depth depth' r s hw hr hs h
  have hlead := lead_eq h
  cases w with
  | obj others =>
    cases others with
    | nil => exact ⟨rfl, (List.cons.inj (List.cons.inj h).2).2⟩
    | cons other others =>
      rw [write_obj_cons] at h
      simp only [List.cons_append, List.append_assoc] at h
      exact absurd (List.cons.inj (List.cons.inj h).2).1 (by decide)
  | _ => exact absurd hlead (by simp [lead])

theorem told_obj_cons (hkey : HalvesApart (Text.codes key.toList)) (hv : Told numbers v)
    (hmembers : MembersTold numbers members) : Told numbers (.obj ((key, v) :: members)) := by
  intro w depth depth' r s hw hr hs h
  have hlead := lead_eq h
  cases w with
  | obj others =>
    rw [write_obj_cons] at h
    simp only [List.cons_append, List.append_assoc] at h
    cases others with
    | nil => exact absurd (List.cons.inj (List.cons.inj h).2).1 (by decide)
    | cons other others =>
      rw [write_obj_cons] at h
      simp only [List.cons_append, List.append_assoc] at h
      obtain ⟨heq, hrest⟩ := members_told hkey hv hmembers hw (List.cons.inj h).2
      exact ⟨congrArg Value.obj heq, hrest⟩
  | _ => exact absurd hlead (by simp [lead])

theorem membersTold_nil : MembersTold numbers [] := by
  intro others depth depth' r s hothers h
  cases others with
  | nil => exact ⟨rfl, (List.cons.inj h).2⟩
  | cons other others =>
    rw [writeMembers_cons] at h
    exact absurd (List.cons.inj h).1 (by decide)

theorem membersTold_cons (hkey : HalvesApart (Text.codes key.toList)) (hv : Told numbers v)
    (hmembers : MembersTold numbers members) : MembersTold numbers ((key, v) :: members) := by
  intro others depth depth' r s hothers h
  rw [writeMembers_cons] at h
  cases others with
  | nil => exact absurd (List.cons.inj h).1 (by decide)
  | cons other others =>
    rw [writeMembers_cons] at h
    simp only [List.cons_append, List.append_assoc] at h
    exact members_told hkey hv hmembers hothers (List.cons.inj (List.cons.inj h).2).2

/-! ### All values -/

mutual

theorem told (hnumbers : Set.InjOn numberLayout.text numbers) :
    ∀ v : Value, Clear numbers v → Told numbers v
  | .null, h => told_word hnumbers .null h
  | .bool b, h => told_word hnumbers (.bool b) h
  | .int n, h => told_word hnumbers (.int n) h
  | .float x, h => told_word hnumbers (.float x) h
  | .str _, h => told_str h
  | .arr [], _ => told_arr_nil
  | .arr (v :: items), h => told_arr_cons (told hnumbers v h.1) (itemsTold hnumbers items h.2)
  | .obj [], _ => told_obj_nil
  | .obj ((_, v) :: members), h =>
    told_obj_cons h.1 (told hnumbers v h.2.1) (membersTold hnumbers members h.2.2)

theorem itemsTold (hnumbers : Set.InjOn numberLayout.text numbers) :
    ∀ items : List Value, ClearItems numbers items → ItemsTold numbers items
  | [], _ => itemsTold_nil
  | v :: items, h => itemsTold_cons (told hnumbers v h.1) (itemsTold hnumbers items h.2)

theorem membersTold (hnumbers : Set.InjOn numberLayout.text numbers) :
    ∀ members : Members, ClearMembers numbers members → MembersTold numbers members
  | [], _ => membersTold_nil
  | (_, v) :: members, h =>
    membersTold_cons h.1 (told hnumbers v h.2.1) (membersTold hnumbers members h.2.2)

end

/-- A value on one line can be told from every other, and from what closes it. -/
theorem write_injective (hnumbers : Set.InjOn numberLayout.text numbers) (hv : Clear numbers v)
    (hw : Clear numbers w) (hr : Closes r) (hs : Closes s)
    (h : write .line depth v ++ r = write .line depth' w ++ s) : v = w ∧ r = s :=
  told hnumbers v hv hw hr hs h

/-! ## One line -/

theorem feed_not_mem_word (hv : IsWord v) : '\n' ∉ write .line depth v := by
  intro hmem
  rcases @word_cases depth v hv with ⟨hnames, _⟩ | ⟨_, hnumeral⟩
  · simp only [List.mem_cons, List.not_mem_nil, or_false] at hnames
    rcases hnames with rfl | rfl | rfl
    · exact absurd hmem (by simp [write])
    · exact absurd hmem (by simp [write])
    · exact absurd hmem (by simp [write])
  · exact absurd (hnumeral _ hmem) (by decide)

mutual

/-- A value is written without a line feed. -/
theorem feed_not_mem_write : ∀ (v : Value) (depth : Nat), '\n' ∉ write .line depth v
  | .null, _ => feed_not_mem_word .null
  | .bool b, _ => feed_not_mem_word (.bool b)
  | .int n, _ => feed_not_mem_word (.int n)
  | .float x, _ => feed_not_mem_word (.float x)
  | .str s, _ => feed_not_mem_quote s rfl
  | .arr [], _ => by simp [write]
  | .arr (v :: items), depth => by
    rw [write_arr_cons]
    simp [feed_not_mem_write v (depth + 1), feed_not_mem_items items (depth + 1)]
  | .obj [], _ => by simp [write]
  | .obj ((key, v) :: members), depth => by
    rw [write_obj_cons]
    simp [feed_not_mem_quote key (show Style.line.asciiOnly = true from rfl),
      feed_not_mem_write v (depth + 1), feed_not_mem_members members (depth + 1)]

theorem feed_not_mem_items :
    ∀ (items : List Value) (depth : Nat), '\n' ∉ writeItems .line depth items
  | [], _ => by simp [writeItems]
  | v :: items, depth => by
    rw [writeItems_cons]
    simp [feed_not_mem_write v depth, feed_not_mem_items items depth]

theorem feed_not_mem_members :
    ∀ (members : Members) (depth : Nat), '\n' ∉ writeMembers .line depth members
  | [], _ => by simp [writeMembers]
  | (key, v) :: members, depth => by
    rw [writeMembers_cons]
    simp [feed_not_mem_quote key (show Style.line.asciiOnly = true from rfl),
      feed_not_mem_write v depth, feed_not_mem_members members depth]

end

end Patchbay.Json
