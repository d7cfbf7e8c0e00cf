import Patchbay.Program.Globals
import Patchbay.Proofs.Program.Names

/-!
# Constants put in by one scan

A scan cuts a text, from left to right, into placeholders and single characters (`Globals.Scans`): a
placeholder wherever one starts, and elsewhere one character. Each text has one scan, and no two
placeholders overlap, so that every placeholder of the text is a piece of its scan. Splicing writes
the pieces one after the other, the known placeholders as their constants and all others as they
are (`splice_scan`).
-/

namespace Patchbay.Globals

open Text (isBlank IsIdentifier forall_ascii)

/-- A placeholder of the name: it stands between two braces on each side, with blanks around it. -/
def IsPlaceholder (name : String) (text : List Char) : Prop :=
  IsIdentifier name ∧ ∃ before after : List Char,
    (∀ c ∈ before, isBlank c = true) ∧ (∀ c ∈ after, isBlank c = true) ∧
      text = '{' :: '{' :: (before ++ (name.toList ++ (after ++ ['}', '}'])))

/-- A part of a text: one character, or a placeholder. -/
inductive Piece
  | char (c : Char)
  | placeholder (name : String) (text : List Char)

namespace Piece

/-- The part itself. -/
def source : Piece → List Char
  | char c => [c]
  | placeholder _ text => text

/-- What is written for the part: the constant, if it is a placeholder of a known name. -/
def written (globals : Table Value) : Piece → List Char
  | char c => [c]
  | placeholder name text =>
    match globals.get? (.text name) with
    | some value => value.display.toList
    | none => text

end Piece

/-- The scan of a text from left to right. -/
inductive Scans : List Char → List Piece → Prop
  | done : Scans [] []
  | placeholder {name : String} {text rest : List Char} {pieces : List Piece}
      (h : IsPlaceholder name text) (hrest : Scans rest pieces) :
      Scans (text ++ rest) (.placeholder name text :: pieces)
  | char {c : Char} {rest : List Char} {pieces : List Piece}
      (hnone : ∀ name text later, IsPlaceholder name text → c :: rest ≠ text ++ later)
      (hrest : Scans rest pieces) : Scans (c :: rest) (.char c :: pieces)

/-! ## Characters -/

theorem ascii_of_isNameChar {c : Char} (h : isNameChar c = true) : c.toNat < 128 := by
  rcases Bool.or_eq_true_iff.mp h with h | h
  · exact Text.ascii_of_isAlphanum h
  · rw [of_decide_eq_true h]
    decide

theorem isBlank_of_isNameChar {c : Char} (h : isNameChar c = true) : isBlank c = false :=
  forall_ascii (P := fun c => isNameChar c = true → isBlank c = false) (by decide)
    (ascii_of_isNameChar h) h

theorem isNameChar_of_isBlank {c : Char} (h : isBlank c = true) : isNameChar c = false := by
  cases hc : isNameChar c with
  | false => rfl
  | true => exact absurd h (by simp [isBlank_of_isNameChar hc])

/-- What a name starts with: a name character that is no digit. -/
theorem isStart_iff {c : Char} :
    (c.isAlpha = true ∨ c = '_') ↔ c.isDigit = false ∧ isNameChar c = true := by
  have hascii : c.toNat < 128 →
      ((c.isAlpha = true ∨ c = '_') ↔ c.isDigit = false ∧ isNameChar c = true) :=
    forall_ascii (P := fun c => (c.isAlpha = true ∨ c = '_') ↔
      c.isDigit = false ∧ isNameChar c = true) (by decide)
  constructor
  · intro h
    have hname : isNameChar c = true := by
      simpa [isNameChar, Char.isAlphanum, or_right_comm] using Or.inl h
    exact (hascii (ascii_of_isNameChar hname)).mp h
  · exact fun h => (hascii (ascii_of_isNameChar h.2)).mpr h

theorem isIdentifier_iff {name : String} : IsIdentifier name ↔ ∃ c rest,
    name.toList = c :: rest ∧ c.isDigit = false ∧ ∀ d ∈ c :: rest, isNameChar d = true := by
  refine exists_congr fun c => exists_congr fun rest => and_congr_right fun _ => ?_
  rw [List.forall_mem_cons, ← and_assoc, ← isStart_iff]
  simp [isNameChar]

/-! ## Placeholders -/

variable {name : String} {text cs rest : List Char}

/-- A placeholder is found where one starts. -/
theorem placeholder?_append (h : IsPlaceholder name text) (rest : List Char) :
    placeholder? (text ++ rest) = some (name.toList, rest) := by
  obtain ⟨hname, before, after, hbefore, hafter, rfl⟩ := h
  obtain ⟨c, tail, hcs, hdigit, hchars⟩ := isIdentifier_iff.mp hname
  have htext : '{' :: '{' :: (before ++ (name.toList ++ (after ++ ['}', '}']))) ++ rest =
      '{' :: '{' :: (before ++ ((c :: tail) ++ (after ++ '}' :: '}' :: rest))) := by
    simp [hcs]
  have hstart : (before ++ ((c :: tail) ++ (after ++ '}' :: '}' :: rest))).dropWhile isBlank =
      (c :: tail) ++ (after ++ '}' :: '}' :: rest) := by
    refine Text.dropWhile_append_stop hbefore ?_
    rintro _ ⟨⟩
    exact isBlank_of_isNameChar (hchars c List.mem_cons_self)
  have hend : ∀ d ∈ (after ++ '}' :: '}' :: rest).head?, isNameChar d = false := by
    intro d hd
    cases after with
    | nil =>
      obtain rfl := Option.some.inj hd
      decide
    | cons e after =>
      obtain rfl := Option.some.inj hd
      exact isNameChar_of_isBlank (hafter e List.mem_cons_self)
  have hclose : (after ++ '}' :: '}' :: rest).dropWhile isBlank = '}' :: '}' :: rest := by
    refine Text.dropWhile_append_stop hafter ?_
    rintro _ ⟨⟩
    decide
  rw [htext, placeholder?]
  simp only [hstart, Text.takeWhile_append_stop hchars hend,
    Text.dropWhile_append_stop hchars hend, hclose, hdigit, Bool.false_eq_true, if_false, hcs]

/-- Where a placeholder is found, one starts. -/
theorem exists_of_placeholder? {found : List Char} (h : placeholder? cs = some (found, rest)) :
    ∃ text, IsPlaceholder (String.ofList found) text ∧ cs = text ++ rest := by
  unfold placeholder? at h
  split at h
  · next body =>
    dsimp only at h
    split at h
    · next c tail later hname hlater =>
      split at h
      · exact absurd h (by simp)
      · next hdigit =>
        obtain ⟨rfl, rfl⟩ := Prod.mk.inj (Option.some.inj h)
        have hchars : ∀ d ∈ c :: tail, isNameChar d = true := by
          rw [← hname]
          exact fun d hd => List.mem_takeWhile_imp hd
        have hname' : IsIdentifier (String.ofList (c :: tail)) := isIdentifier_iff.mpr
          ⟨c, tail, String.toList_ofList, Bool.eq_false_iff.mpr hdigit, hchars⟩
        refine ⟨_, ⟨hname', body.takeWhile isBlank,
          ((body.dropWhile isBlank).dropWhile isNameChar).takeWhile isBlank,
          fun d hd => List.mem_takeWhile_imp hd, fun d hd => List.mem_takeWhile_imp hd, rfl⟩, ?_⟩
        calc '{' :: '{' :: body
          _ = '{' :: '{' :: (body.takeWhile isBlank ++ ((body.dropWhile isBlank).takeWhile isNameChar ++
                (((body.dropWhile isBlank).dropWhile isNameChar).takeWhile isBlank ++
                  ((body.dropWhile isBlank).dropWhile isNameChar).dropWhile isBlank))) := by
            rw [List.takeWhile_append_dropWhile, List.takeWhile_append_dropWhile,
              List.takeWhile_append_dropWhile]
          _ = _ := by
            rw [hname, hlater, String.toList_ofList]
            simp
    · exact absurd h (by simp)
  · exact absurd h (by simp)

theorem placeholder?_eq_none_iff : placeholder? cs = none ↔
    ∀ name text later, IsPlaceholder name text → cs ≠ text ++ later := by
  constructor
  · rintro hnone name text later h rfl
    rw [placeholder?_append h] at hnone
    exact absurd hnone (by simp)
  · intro h
    cases hfound : placeholder? cs with
    | none => rfl
    | some found =>
      obtain ⟨text, hplaceholder, heq⟩ := exists_of_placeholder? hfound
      exact absurd heq (h _ text _ hplaceholder)

/-- Two placeholders that start at the same place are the same. -/
theorem IsPlaceholder.unique {other : String} {text' rest' : List Char} (h : IsPlaceholder name text)
    (h' : IsPlaceholder other text') (heq : text ++ rest = text' ++ rest') :
    name = other ∧ text = text' ∧ rest = rest' := by
  have hfound := placeholder?_append h rest
  rw [heq, placeholder?_append h'] at hfound
  obtain ⟨hname, rfl⟩ := Prod.mk.inj (Option.some.inj hfound)
  exact ⟨(String.toList_injective hname).symm, List.append_cancel_right heq, rfl⟩

/-- Two braces open a placeholder, and no other one follows them in it. -/
theorem IsPlaceholder.opens (h : IsPlaceholder name text) :
    ∃ c inner, text = '{' :: '{' :: c :: inner ∧ '{' ∉ c :: inner := by
  obtain ⟨hname, before, after, hbefore, hafter, rfl⟩ := h
  have hbody : '{' ∉ before ++ (name.toList ++ (after ++ ['}', '}'])) := by
    have hblank : ∀ blanks : List Char, (∀ c ∈ blanks, isBlank c = true) → '{' ∉ blanks :=
      fun blanks hblanks hc => absurd (hblanks _ hc) (by decide)
    obtain ⟨c, tail, hcs, -, hall⟩ := isIdentifier_iff.mp hname
    have hchars : '{' ∉ name.toList := by
      rw [hcs]
      exact fun hc => absurd (hall _ hc) (by decide)
    simp [hblank before hbefore, hblank after hafter, hchars]
  cases hinner : before ++ (name.toList ++ (after ++ ['}', '}'])) with
  | nil => exact absurd hinner (by simp)
  | cons c inner =>
    rw [hinner] at hbody
    exact ⟨c, inner, rfl, hbody⟩

theorem IsPlaceholder.ne_nil (h : IsPlaceholder name text) : text ≠ [] := by
  obtain ⟨c, inner, rfl, -⟩ := h.opens
  exact List.cons_ne_nil _ _

/-- A placeholder that starts behind the start of another one starts behind its end. -/
theorem IsPlaceholder.apart {other : String} {text' before after : List Char}
    (h : IsPlaceholder name text) (h' : IsPlaceholder other text') (hbefore : before ≠ [])
    (heq : text ++ rest = before ++ (text' ++ after)) :
    ∃ between, before = text ++ between ∧ rest = between ++ (text' ++ after) := by
  rcases List.append_eq_append_iff.mp heq with hbehind | ⟨overlap, htext, hoverlap⟩
  · exact hbehind
  · obtain ⟨c, inner, rfl, hinner⟩ := h.opens
    obtain ⟨c', inner', rfl, -⟩ := h'.opens
    obtain ⟨first, before, rfl⟩ := List.exists_cons_of_ne_nil hbefore
    cases overlap with
    | nil => exact ⟨[], by simpa using htext.symm, by simpa using hoverlap.symm⟩
    | cons d overlap =>
      -- The overlap starts with two braces, and no place behind the start has two braces.
      simp only [List.cons_append, List.cons.injEq] at hoverlap htext
      obtain ⟨rfl, hoverlap⟩ := hoverlap
      have hbody := htext.2
      cases before with
      | nil =>
        obtain rfl := (List.cons.inj hbody).2
        obtain ⟨rfl, -⟩ := List.cons.inj hoverlap
        exact absurd List.mem_cons_self hinner
      | cons second before =>
        rw [(List.cons.inj hbody).2] at hinner
        simp at hinner

/-! ## Scans -/

variable {pieces others : List Piece}

theorem Scans.source (h : Scans cs pieces) : pieces.flatMap Piece.source = cs := by
  induction h with
  | done => rfl
  | placeholder h hrest ih => rw [List.flatMap_cons, ih, Piece.source]
  | char hnone hrest ih => rw [List.flatMap_cons, ih, Piece.source, List.singleton_append]

theorem Scans.unique (h : Scans cs pieces) (h' : Scans cs others) : others = pieces := by
  induction h generalizing others with
  | done =>
    generalize hcs : [] = cs at h'
    cases h' with
    | done => rfl
    | placeholder hother => exact absurd (List.append_eq_nil_iff.mp hcs.symm).1 hother.ne_nil
    | char => exact absurd hcs.symm (List.cons_ne_nil _ _)
  | @placeholder _ text rest _ h _ ih =>
    generalize hcs : text ++ rest = cs at h'
    cases h' with
    | done => exact absurd (List.append_eq_nil_iff.mp hcs).1 h.ne_nil
    | placeholder hother hrest =>
      obtain ⟨rfl, rfl, rfl⟩ := h.unique hother hcs
      rw [ih hrest]
    | char hnone => exact absurd hcs.symm (hnone _ _ _ h)
  | @char c rest _ hnone _ ih =>
    generalize hcs : c :: rest = cs at h'
    cases h' with
    | done => exact absurd hcs (List.cons_ne_nil _ _)
    | placeholder hother => exact absurd hcs (hnone _ _ _ hother)
    | char _ hrest =>
      obtain ⟨rfl, rfl⟩ := List.cons.inj hcs
      rw [ih hrest]

theorem exists_scans (cs : List Char) : ∃ pieces, Scans cs pieces := by
  cases hfound : placeholder? cs with
  | some found =>
    obtain ⟨name, rest⟩ := found
    obtain ⟨text, hplaceholder, heq⟩ := exists_of_placeholder? hfound
    have hshorter := length_of_placeholder? hfound
    obtain ⟨pieces, hpieces⟩ := exists_scans rest
    rw [heq]
    exact ⟨_, .placeholder hplaceholder hpieces⟩
  | none =>
    cases cs with
    | nil => exact ⟨[], .done⟩
    | cons c rest =>
      obtain ⟨pieces, hpieces⟩ := exists_scans rest
      exact ⟨_, .char (placeholder?_eq_none_iff.mp hfound) hpieces⟩
termination_by cs.length

theorem Scans.isPlaceholder (h : Scans cs pieces) (hmem : .placeholder name text ∈ pieces) :
    IsPlaceholder name text := by
  induction h with
  | done => exact absurd hmem List.not_mem_nil
  | placeholder h _ ih =>
    rcases List.mem_cons.mp hmem with heq | hmem
    · cases heq
      exact h
    · exact ih hmem
  | char _ _ ih =>
    rcases List.mem_cons.mp hmem with heq | hmem
    · cases heq
    · exact ih hmem

/-- Each placeholder of the text is a piece of its scan, at its place. -/
theorem Scans.placeholder_mem (h : Scans cs pieces) {before after : List Char}
    (hplaceholder : IsPlaceholder name text) (heq : cs = before ++ (text ++ after)) :
    ∃ earlier later, pieces = earlier ++ .placeholder name text :: later ∧
      earlier.flatMap Piece.source = before := by
  induction h generalizing before with
  | done => exact absurd heq.symm (by simp [hplaceholder.ne_nil])
  | @placeholder other text' rest pieces h _ ih =>
    cases hbefore : before with
    | nil =>
      rw [hbefore, List.nil_append] at heq
      obtain ⟨rfl, rfl, rfl⟩ := h.unique hplaceholder heq
      exact ⟨[], pieces, rfl, rfl⟩
    | cons d tail =>
      obtain ⟨between, hbetween, hrest⟩ := h.apart hplaceholder (by simp [hbefore]) heq
      obtain ⟨earlier, later, rfl, hearlier⟩ := ih hrest
      refine ⟨.placeholder other text' :: earlier, later, rfl, ?_⟩
      rw [List.flatMap_cons, hearlier, ← hbefore, hbetween, Piece.source]
  | @char c rest pieces hnone _ ih =>
    cases before with
    | nil => exact absurd heq (hnone name text after hplaceholder)
    | cons d before =>
      obtain ⟨rfl, hrest⟩ := List.cons.inj heq
      obtain ⟨earlier, later, rfl, hearlier⟩ := ih hrest
      refine ⟨.char c :: earlier, later, rfl, ?_⟩
      rw [List.flatMap_cons, hearlier, Piece.source, List.singleton_append]

/-- What is spliced is written piece by piece. -/
theorem Scans.spliceChars_eq (h : Scans cs pieces) (globals : Table Value) :
    spliceChars globals cs = pieces.flatMap (Piece.written globals) := by
  induction h with
  | done =>
    rw [spliceChars]
    rfl
  | placeholder h _ ih =>
    rw [List.flatMap_cons, ← ih, spliceChars]
    split
    · next name rest hfound =>
      rw [placeholder?_append h] at hfound
      obtain ⟨rfl, rfl⟩ := Prod.mk.inj (Option.some.inj hfound)
      simp only [String.ofList_toList, List.length_append, Nat.add_sub_cancel, List.take_left']
      rfl
    · next hfound =>
      rw [placeholder?_append h] at hfound
      exact absurd hfound (by simp)
  | char hnone _ ih =>
    rw [List.flatMap_cons, ← ih, spliceChars]
    split
    · next hfound =>
      rw [placeholder?_eq_none_iff.mpr hnone] at hfound
      exact absurd hfound (by simp)
    · rfl

/-- Splicing is one scan from left to right. Each text has one scan: its pieces make up the text, and
all placeholders in it are among them. The spliced text is what is written for the pieces, one after
the other, and so it is the text itself if no placeholder in it names a constant. -/
theorem splice_scan (source : String) : ∃ pieces, Scans source.toList pieces ∧
    (∀ others, Scans source.toList others → others = pieces) ∧
    pieces.flatMap Piece.source = source.toList ∧
    (∀ before name text after, IsPlaceholder name text →
      source.toList = before ++ (text ++ after) →
        ∃ earlier later, pieces = earlier ++ .placeholder name text :: later ∧
          earlier.flatMap Piece.source = before) ∧
    ∀ globals, (splice globals source).toList = pieces.flatMap (Piece.written globals) ∧
      ((∀ before name text after, IsPlaceholder name text →
          source.toList = before ++ (text ++ after) → globals.get? (.text name) = none) →
        splice globals source = source) := by
  obtain ⟨pieces, h⟩ := exists_scans source.toList
  have hsplice : ∀ globals, (splice globals source).toList =
      pieces.flatMap (Piece.written globals) := by
    intro globals
    rw [splice, String.toList_ofList, h.spliceChars_eq]
  refine ⟨pieces, h, fun others => h.unique, h.source,
    fun before name text after hplaceholder heq => h.placeholder_mem hplaceholder heq,
    fun globals => ⟨hsplice globals, fun hunknown => String.toList_injective ?_⟩⟩
  have hwritten : ∀ piece ∈ pieces, piece.written globals = piece.source := by
    intro piece hmem
    cases piece with
    | char c => rfl
    | placeholder name text =>
      obtain ⟨earlier, later, rfl⟩ := List.append_of_mem hmem
      have heq := h.source.symm
      rw [List.flatMap_append, List.flatMap_cons] at heq
      rw [Piece.written, hunknown _ _ _ _ (h.isPlaceholder hmem) heq, Piece.source]
  rw [hsplice globals, ← h.source]
  exact List.flatMap_congr hwritten

end Patchbay.Globals
