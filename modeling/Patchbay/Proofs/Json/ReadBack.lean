import Patchbay.Proofs.Json.Printing
import Patchbay.Proofs.Json.Regular

/-!
# Values read back

A JSON text is read back as the value that it was written of, at any indentation (`read_render`):
the value is regular, and the halves of surrogate pairs stand apart in its texts. The blanks between
its parts do not matter, an empty array or object takes none, and what is read of a part ends where
the part does. A text of so many characters is read in twice as many steps.
-/

namespace Patchbay

theorem Members.put_eq_append {key : String} {v : Value} {members : Members}
    (h : key ∉ members.map Prod.fst) : members.put key v = members ++ [(key, v)] := by
  induction members with
  | nil => rfl
  | cons member rest ih =>
    rw [List.map_cons, List.mem_cons, not_or] at h
    rw [put, if_neg (Ne.symm h.1), ih h.2, List.cons_append]

namespace Json

variable {indent : Option Nat} {depth : Nat} {v : Value} {items : List Value} {members : Members}
  {key : String} {rest tail : Rest}

/-! ## Blanks -/

theorem skip_append {blanks : List Char} (h : ∀ c ∈ blanks, isBlank c = true) (rest : Rest) :
    skip (blanks ++ rest) = skip rest :=
  List.dropWhile_append_of_pos h

theorem skip_cons {c : Char} (h : isBlank c = false) (rest : Rest) :
    skip (c :: rest) = c :: rest := by
  rw [skip, List.dropWhile_cons, h]
  rfl

theorem blank_of_mem_lineStart {c : Char} (h : c ∈ lineStart (.spaced indent) depth) :
    isBlank c = true := by
  cases indent with
  | none => exact absurd h List.not_mem_nil
  | some width =>
    rcases List.mem_cons.mp h with rfl | h
    · decide
    · rw [List.eq_of_mem_replicate h]
      decide

theorem skip_lineStart (indent : Option Nat) (depth : Nat) (rest : Rest) :
    skip (lineStart (.spaced indent) depth ++ rest) = skip rest :=
  skip_append (fun _ => blank_of_mem_lineStart) rest

/-- Items are separated by a comma and blanks. -/
theorem exists_separator (indent : Option Nat) (depth : Nat) :
    ∃ blanks, separator (.spaced indent) depth = ',' :: blanks ∧
      ∀ c ∈ blanks, isBlank c = true := by
  cases indent with
  | none => exact ⟨[' '], rfl, by simp [isBlank]⟩
  | some width => exact ⟨_, rfl, fun _ => blank_of_mem_lineStart⟩

/-! ## Starts and ends -/

theorem ends_close {c : Char} (hc : c ∈ [']', '}']) (indent : Option Nat) (depth : Nat) :
    Ends (lineStart (.spaced indent) depth ++ c :: rest) := by
  have hclose : ∀ c ∈ [']', '}'], c ∈ [',', ']', '}', '\n'] :=
    List.all_iff_forall_prop.mp (by decide)
  intro d hd
  cases indent with
  | none =>
    obtain rfl : c = d := Option.some.inj hd
    exact hclose c hc
  | some width =>
    obtain rfl : '\n' = d := Option.some.inj hd
    decide

theorem ends_separator (indent : Option Nat) (depth : Nat) :
    Ends (separator (.spaced indent) depth ++ rest) := by
  obtain ⟨blanks, heq, _⟩ := exists_separator indent depth
  rw [heq]
  intro d hd
  obtain rfl : ',' = d := Option.some.inj hd
  decide

theorem ends_items (indent : Option Nat) (depth : Nat) (items : List Value) (rest : Rest) :
    Ends (writeItems (.spaced indent) (depth + 1) items
      ++ (lineStart (.spaced indent) depth ++ ']' :: rest)) := by
  cases items with
  | nil => exact ends_close (by decide) indent depth
  | cons v items =>
    rw [writeItems, List.append_assoc, List.append_assoc]
    exact ends_separator indent (depth + 1)

theorem ends_members (indent : Option Nat) (depth : Nat) (members : Members) (rest : Rest) :
    Ends (writeMembers (.spaced indent) (depth + 1) members
      ++ (lineStart (.spaced indent) depth ++ '}' :: rest)) := by
  cases members with
  | nil => exact ends_close (by decide) indent depth
  | cons member members =>
    rw [writeMembers]
    simp only [List.append_assoc]
    exact ends_separator indent (depth + 1)

theorem write_word (hv : IsWord v) : write (.spaced indent) depth v = write .line 0 v := by
  cases hv with
  | bool b => cases b <;> rfl
  | _ => rfl

theorem word_start (hv : IsWord v) : ∃ c tail, write (.spaced indent) depth v = c :: tail ∧
    isBlank c = false ∧ isStop c = false := by
  obtain ⟨c, tail, heq⟩ := List.exists_cons_of_ne_nil (@write_ne_nil_of_word 0 v hv)
  have hmem : c ∈ write .line 0 v := heq ▸ List.mem_cons_self
  refine ⟨c, tail, (write_word hv).trans heq, ?_, isStop_of_mem_word hv hmem⟩
  rcases @word_cases 0 v hv with ⟨hname, _⟩ | ⟨_, hnumeral⟩
  · simp only [List.mem_cons, List.not_mem_nil, or_false] at hname
    rcases hname with rfl | rfl | rfl
    · obtain rfl := (List.cons.inj heq).1
      decide
    · obtain rfl := (List.cons.inj heq).1
      decide
    · obtain rfl := (List.cons.inj heq).1
      decide
  · have hblank : ∀ c ∈ [' ', '\t', '\n', '\r'], ¬ IsNumeral c :=
      List.all_iff_forall_prop.mp (by decide)
    rw [← Bool.not_eq_true]
    intro hc
    refine hblank c ?_ (hnumeral c hmem)
    simpa [isBlank, or_assoc] using hc

/-- A value starts with no blank, and not with a closing bracket. -/
theorem write_start (indent : Option Nat) (depth : Nat) (v : Value) :
    ∃ c tail, write (.spaced indent) depth v = c :: tail ∧ isBlank c = false ∧ c ≠ ']' := by
  have hword : IsWord v → ∃ c tail, write (.spaced indent) depth v = c :: tail ∧
      isBlank c = false ∧ c ≠ ']' := by
    intro hv
    obtain ⟨c, tail, heq, hblank, hstop⟩ := @word_start indent depth v hv
    refine ⟨c, tail, heq, hblank, ?_⟩
    rintro rfl
    exact absurd hstop (by decide)
  cases v with
  | str s => exact ⟨_, _, rfl, by decide, by decide⟩
  | arr items =>
    cases items with
    | nil => exact ⟨_, _, rfl, by decide, by decide⟩
    | cons v items => exact ⟨'[', _, by rw [write]; rfl, by decide, by decide⟩
  | obj members =>
    cases members with
    | nil => exact ⟨_, _, rfl, by decide, by decide⟩
    | cons member members => exact ⟨'{', _, by rw [write]; rfl, by decide, by decide⟩
  | null => exact hword .null
  | bool b => exact hword (.bool b)
  | int n => exact hword (.int n)
  | float x => exact hword (.float x)

theorem skip_write (indent : Option Nat) (depth : Nat) (v : Value) (rest : Rest) :
    skip (write (.spaced indent) depth v ++ rest) = write (.spaced indent) depth v ++ rest := by
  obtain ⟨c, tail, heq, hblank, _⟩ := write_start indent depth v
  rw [heq, List.cons_append, skip_cons hblank]

theorem skip_quote (style : Style) (s : String) (rest : Rest) :
    skip (quote style s ++ rest) = quote style s ++ rest :=
  skip_cons (by decide) _

/-! ## Steps of a reader -/

section Steps

variable {fuel : Nat} {done : List Value} {earlier : Members}

theorem value_array (hskip : skip tail = rest) (hrest : ∀ r, rest ≠ ']' :: r) :
    value .none (fuel + 1) ('[' :: tail) = Json.items .none fuel [] rest := by
  unfold value
  simp only [Limits.inside?_none, hskip]

theorem value_object (hskip : skip tail = rest) (hrest : ∀ r, rest ≠ '}' :: r) :
    value .none (fuel + 1) ('{' :: tail) = Json.members .none fuel [] rest := by
  unfold value
  simp only [Limits.inside?_none, hskip]

theorem items_close (hv : value .none fuel rest = .ok (v, tail)) {after : Rest}
    (hskip : skip tail = ']' :: after) :
    Json.items .none (fuel + 1) done rest = .ok (.arr (done.reverse ++ [v]), after) := by
  unfold Json.items
  simp only [hv, hskip, List.reverse_cons]

theorem items_comma (hv : value .none fuel rest = .ok (v, tail)) {after : Rest}
    (hskip : skip tail = ',' :: after) :
    Json.items .none (fuel + 1) done rest = Json.items .none fuel (v :: done) (skip after) := by
  conv_lhs => unfold Json.items
  simp only [hv, hskip]

theorem skip_colon (hrest : skip rest = rest) :
    skip (':' :: ' ' :: rest) = ':' :: ' ' :: rest ∧ skip (' ' :: rest) = rest :=
  ⟨skip_cons (by decide) _, hrest⟩

theorem members_close (hkey : HalvesApart (Text.codes key.toList)) (hrest : skip rest = rest)
    (hv : value .none fuel rest = .ok (v, tail)) {after : Rest} (hskip : skip tail = '}' :: after) :
    Json.members .none (fuel + 1) earlier (quote (.spaced indent) key ++ (':' :: ' ' :: rest)) =
      .ok (.obj (earlier.put key v), after) := by
  obtain ⟨body, hbody, hread⟩ :=
    @textFrom_quote (quote (.spaced indent) key ++ (':' :: ' ' :: rest)) key hkey (.spaced indent)
      rfl (':' :: ' ' :: rest)
  rw [hbody] at hread ⊢
  unfold Json.members
  simp only [hread, skip_colon hrest, hv, hskip]

theorem members_comma (hkey : HalvesApart (Text.codes key.toList)) (hrest : skip rest = rest)
    (hv : value .none fuel rest = .ok (v, tail)) {after : Rest} (hskip : skip tail = ',' :: after) :
    Json.members .none (fuel + 1) earlier (quote (.spaced indent) key ++ (':' :: ' ' :: rest)) =
      Json.members .none fuel (earlier.put key v) (skip after) := by
  obtain ⟨body, hbody, hread⟩ :=
    @textFrom_quote (quote (.spaced indent) key ++ (':' :: ' ' :: rest)) key hkey (.spaced indent)
      rfl (':' :: ' ' :: rest)
  rw [hbody] at hread ⊢
  conv_lhs => unfold Json.members
  simp only [hread, skip_colon hrest, hv, hskip]

end Steps

/-! ## Values -/

/-- The value is read back, in twice as many steps as it has characters. -/
def ReadsBack (indent : Option Nat) (v : Value) : Prop :=
  ∀ {depth fuel : Nat} {rest : Rest}, Ends rest →
    2 * (write (.spaced indent) depth v).length ≤ fuel →
    value .none fuel (write (.spaced indent) depth v ++ rest) = .ok (v, rest)

/-- `ReadsBack` for the items that stand behind another in an array. -/
def ItemsReadBack (indent : Option Nat) (items : List Value) : Prop :=
  ∀ {v : Value} {depth fuel : Nat} {done : List Value} {rest : Rest}, ReadsBack indent v →
    2 * ((write (.spaced indent) (depth + 1) v).length
      + (writeItems (.spaced indent) (depth + 1) items).length) < fuel →
    Json.items .none fuel done (write (.spaced indent) (depth + 1) v
        ++ (writeItems (.spaced indent) (depth + 1) items
          ++ (lineStart (.spaced indent) depth ++ ']' :: rest))) =
      .ok (.arr (done.reverse ++ v :: items), rest)

/-- `ReadsBack` for the members that stand behind another in an object. -/
def MembersReadBack (indent : Option Nat) (members : Members) : Prop :=
  ∀ {key : String} {v : Value} {depth fuel : Nat} {done : Members} {rest : Rest},
    HalvesApart (Text.codes key.toList) → ReadsBack indent v →
    ((done ++ (key, v) :: members).map Prod.fst).Nodup →
    2 * ((write (.spaced indent) (depth + 1) v).length
      + (writeMembers (.spaced indent) (depth + 1) members).length) < fuel →
    Json.members .none fuel done (quote (.spaced indent) key
        ++ (':' :: ' ' :: (write (.spaced indent) (depth + 1) v
          ++ (writeMembers (.spaced indent) (depth + 1) members
            ++ (lineStart (.spaced indent) depth ++ '}' :: rest))))) =
      .ok (.obj (done ++ (key, v) :: members), rest)

theorem readsBack_word (hv : IsWord v) (hregular : v.Regular) : ReadsBack indent v := by
  intro depth fuel rest hrest hfuel
  obtain ⟨c, tail, heq, _, hstop⟩ := @word_start indent depth v hv
  have hscalar : scalar .none (write (.spaced indent) depth v ++ rest) = .ok (v, rest) := by
    cases hv with
    | null => rfl
    | bool b => cases b <;> rfl
    | int n => exact scalar_intText n hrest
    | float x => exact scalar_text (hregular.canonical x .whole) hrest
  obtain ⟨fuel, rfl⟩ : ∃ n, fuel = n + 1 :=
    Nat.exists_eq_succ_of_ne_zero (by rw [heq, List.length_cons] at hfuel; omega)
  rw [← hscalar, heq, List.cons_append]
  have hopen : ∀ c ∈ ['"', '[', '{'], isStop c = true :=
    List.all_iff_forall_prop.mp (by decide)
  unfold value
  split
  · exact absurd (hopen '"' (by decide)) (by simp_all)
  · exact absurd (hopen '[' (by decide)) (by simp_all)
  · exact absurd (hopen '{' (by decide)) (by simp_all)
  · rfl

theorem readsBack_str {t : String} (ht : HalvesApart (Text.codes t.toList)) :
    ReadsBack indent (.str t) := by
  intro depth fuel rest _ hfuel
  obtain ⟨body, hbody, hread⟩ :=
    @textFrom_quote (quote (.spaced indent) t ++ rest) t ht (.spaced indent) rfl rest
  obtain ⟨fuel, rfl⟩ : ∃ n, fuel = n + 1 := Nat.exists_eq_succ_of_ne_zero (by
    rw [write, quote, List.length_append, List.length_cons] at hfuel
    omega)
  rw [write, hbody] at *
  unfold value
  simp only [hread]
  rfl

/-! ### Arrays -/

theorem readsBack_arr_nil : ReadsBack indent (.arr []) := by
  intro depth fuel rest _ hfuel
  obtain ⟨fuel, rfl⟩ : ∃ n, fuel = n + 1 :=
    Nat.exists_eq_succ_of_ne_zero (by rw [write, List.length_cons] at hfuel; omega)
  unfold value
  rfl

theorem readsBack_arr_cons (hv : ReadsBack indent v) (hitems : ItemsReadBack indent items) :
    ReadsBack indent (.arr (v :: items)) := by
  intro depth fuel rest _ hfuel
  obtain ⟨c, tail, heq, _, hclose⟩ := write_start indent (depth + 1) v
  simp only [write, List.length_cons, List.length_append] at hfuel
  obtain ⟨fuel, rfl⟩ : ∃ n, fuel = n + 1 := Nat.exists_eq_succ_of_ne_zero (by omega)
  have hstart : ∀ (behind r : Rest),
      write (.spaced indent) (depth + 1) v ++ behind ≠ ']' :: r := by
    intro behind r hbracket
    rw [heq] at hbracket
    exact hclose (List.cons.inj hbracket).1
  simp only [write, List.cons_append, List.append_assoc, List.nil_append]
  rw [value_array ((skip_lineStart _ _ _).trans (skip_write _ _ _ _)) (hstart _)]
  exact hitems hv (by omega)

theorem itemsReadBack_nil : ItemsReadBack indent [] := by
  intro v depth fuel done rest hv hfuel
  obtain ⟨fuel, rfl⟩ : ∃ n, fuel = n + 1 := Nat.exists_eq_succ_of_ne_zero (by omega)
  have hread := @hv (depth + 1) fuel _ (ends_items indent depth [] rest) (by omega)
  exact items_close hread ((skip_lineStart _ _ _).trans (skip_cons (by decide) _))

theorem itemsReadBack_cons (hv : ReadsBack indent v) (hitems : ItemsReadBack indent items) :
    ItemsReadBack indent (v :: items) := by
  intro u depth fuel done rest hu hfuel
  obtain ⟨fuel, rfl⟩ : ∃ n, fuel = n + 1 := Nat.exists_eq_succ_of_ne_zero (by omega)
  have hread := @hu (depth + 1) fuel _ (ends_items indent depth (v :: items) rest) (by omega)
  obtain ⟨blanks, hcomma, hblank⟩ := exists_separator indent (depth + 1)
  simp only [writeItems, hcomma, List.length_append, List.length_cons] at hfuel
  simp only [writeItems, hcomma, List.cons_append, List.append_assoc] at hread ⊢
  rw [items_comma hread (skip_cons (by decide) _), skip_append hblank, skip_write,
    hitems hv (by omega), List.reverse_cons, List.append_assoc]
  rfl

/-! ### Objects -/

theorem readsBack_obj_nil : ReadsBack indent (.obj []) := by
  intro depth fuel rest _ hfuel
  obtain ⟨fuel, rfl⟩ : ∃ n, fuel = n + 1 :=
    Nat.exists_eq_succ_of_ne_zero (by rw [write, List.length_cons] at hfuel; omega)
  unfold value
  rfl

theorem readsBack_obj_cons (hkey : HalvesApart (Text.codes key.toList)) (hv : ReadsBack indent v)
    (hn : (((key, v) :: members).map Prod.fst).Nodup) (hmembers : MembersReadBack indent members) :
    ReadsBack indent (.obj ((key, v) :: members)) := by
  intro depth fuel rest _ hfuel
  simp only [write, List.length_cons, List.length_append] at hfuel
  obtain ⟨fuel, rfl⟩ : ∃ n, fuel = n + 1 := Nat.exists_eq_succ_of_ne_zero (by omega)
  have hcolon : (Style.spaced indent).colon = [':', ' '] := rfl
  have hstart : ∀ (behind r : Rest), quote (.spaced indent) key ++ behind ≠ '}' :: r :=
    fun _ _ hbrace => absurd (List.cons.inj hbrace).1 (by decide)
  simp only [write, hcolon, List.cons_append, List.append_assoc, List.nil_append]
  rw [value_object ((skip_lineStart _ _ _).trans (skip_quote _ _ _)) (hstart _)]
  exact hmembers hkey hv hn (by omega)

theorem membersReadBack_nil : MembersReadBack indent [] := by
  intro key v depth fuel done rest hkey hv hn hfuel
  obtain ⟨fuel, rfl⟩ : ∃ n, fuel = n + 1 := Nat.exists_eq_succ_of_ne_zero (by omega)
  have hread := @hv (depth + 1) fuel _ (ends_members indent depth [] rest) (by omega)
  have hfresh : key ∉ done.map Prod.fst := by
    rw [List.map_append, List.nodup_append] at hn
    exact fun hmem => hn.2.2 _ hmem _ List.mem_cons_self rfl
  rw [← Members.put_eq_append hfresh]
  exact members_close hkey (skip_write _ _ _ _) hread
    ((skip_lineStart _ _ _).trans (skip_cons (by decide) _))

theorem membersReadBack_cons (hkey : HalvesApart (Text.codes key.toList)) (hv : ReadsBack indent v)
    (hmembers : MembersReadBack indent members) : MembersReadBack indent ((key, v) :: members) := by
  intro first u depth fuel done rest hfirst hu hn hfuel
  obtain ⟨fuel, rfl⟩ : ∃ n, fuel = n + 1 := Nat.exists_eq_succ_of_ne_zero (by omega)
  have hread :=
    @hu (depth + 1) fuel _ (ends_members indent depth ((key, v) :: members) rest) (by omega)
  have hfresh : first ∉ done.map Prod.fst := by
    rw [List.map_append, List.nodup_append] at hn
    exact fun hmem => hn.2.2 _ hmem _ List.mem_cons_self rfl
  have hcolon : (Style.spaced indent).colon = [':', ' '] := rfl
  obtain ⟨blanks, hcomma, hblank⟩ := exists_separator indent (depth + 1)
  simp only [writeMembers, hcomma, List.length_append, List.length_cons] at hfuel
  simp only [writeMembers, hcomma, hcolon, List.cons_append, List.append_assoc,
    List.nil_append] at hread ⊢
  rw [members_comma hfirst (skip_write _ _ _ _) hread (skip_cons (by decide) _),
    skip_append hblank, skip_quote, Members.put_eq_append hfresh,
    hmembers hkey hv (by simpa using hn) (by omega), List.append_assoc]
  rfl

/-! ### All values -/

mutual

theorem readsBack : ∀ v : Value, v.Regular → Clear Set.univ v → ReadsBack indent v
  | .null, h, _ => readsBack_word .null h
  | .bool b, h, _ => readsBack_word (.bool b) h
  | .int n, h, _ => readsBack_word (.int n) h
  | .float x, h, _ => readsBack_word (.float x) h
  | .str _, _, hc => readsBack_str hc
  | .arr [], _, _ => readsBack_arr_nil
  | .arr (v :: items), h, hc =>
    readsBack_arr_cons (readsBack v (h.item List.mem_cons_self) hc.1)
      (itemsReadBack items (fun _ hw => h.item (List.mem_cons_of_mem _ hw)) hc.2)
  | .obj [], _, _ => readsBack_obj_nil
  | .obj ((_, v) :: members), h, hc =>
    readsBack_obj_cons hc.1 (readsBack v (h.member List.mem_cons_self) hc.2.1) h.keys
      (membersReadBack members (fun _ hm => h.member (List.mem_cons_of_mem _ hm)) hc.2.2)

theorem itemsReadBack : ∀ items : List Value, (∀ v ∈ items, v.Regular) →
    ClearItems Set.univ items → ItemsReadBack indent items
  | [], _, _ => itemsReadBack_nil
  | v :: items, h, hc =>
    itemsReadBack_cons (readsBack v (h v List.mem_cons_self) hc.1)
      (itemsReadBack items (fun w hw => h w (List.mem_cons_of_mem _ hw)) hc.2)

theorem membersReadBack : ∀ members : Members, (∀ m ∈ members, m.2.Regular) →
    ClearMembers Set.univ members → MembersReadBack indent members
  | [], _, _ => membersReadBack_nil
  | (_, v) :: members, h, hc =>
    membersReadBack_cons hc.1 (readsBack v (h _ List.mem_cons_self) hc.2.1)
      (membersReadBack members (fun m hm => h m (List.mem_cons_of_mem _ hm)) hc.2.2)

end

/-- The JSON text of a regular value is read back, if the halves of surrogate pairs stand apart in
its texts. -/
theorem read_render (hv : v.Regular) (hclear : Clear Set.univ v) (indent : Option Nat) :
    read .none (render indent v) = .ok v := by
  have hends : Ends [] := fun _ hc => absurd hc (by simp)
  have hread := @readsBack indent v hv hclear 0 (2 * (write (.spaced indent) 0 v).length + 1) []
    hends (Nat.le_succ _)
  have hskip := skip_write indent 0 v []
  rw [List.append_nil] at hread hskip
  unfold read readChars
  rw [render, renderIn, String.toList_ofList, hskip, hread]
  rfl

end Json

end Patchbay
