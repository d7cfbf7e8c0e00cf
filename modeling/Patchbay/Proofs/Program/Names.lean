import Mathlib
import Patchbay.Proofs.CompiledUnit
import Patchbay.Proofs.Project.Parts
import Patchbay.Proofs.Text.Character
import Patchbay.Proofs.Text.Numeral
import Patchbay.Program.Backend

/-!
# Names in C++ programs

The name of a type is written code point by code point (`nameChars_eq`), so it is an identifier
wherever the type is not empty (`isIdentifier_programName`). What the name does not keep is which
separators the type has: two types share a name just where they read alike
(`programName_eq_iff`), which types of words with one kind of separator never do
(`eq_of_programName_eq`).
-/

namespace Patchbay

namespace Text

/-- A name of ASCII letters, digits and underscores that does not start with a digit. -/
def IsIdentifier (name : String) : Prop :=
  ∃ first rest, name.toList = first :: rest ∧ (first.isAlpha = true ∨ first = '_') ∧
    ∀ c ∈ rest, c.isAlphanum = true ∨ c = '_'

/-- How a code point of a type is written in a name. -/
def inName (code : Nat) : List Char :=
  if code = '/'.toNat then ['_', '_'] else [nameChar code]

/-- A type as it is written in a name. -/
def asName (type : List Char) : List Char := (codes type).flatMap inName

/-- What starts with a digit gets an underscore in front. -/
def guardDigit (name : List Char) : List Char :=
  match name with
  | c :: _ => if c.isDigit then '_' :: name else name
  | [] => []

/-! ## The name of a type -/

theorem codes_append {c : Char} (hc : ¬ isReserved c = true) (before rest : List Char) :
    codes (before ++ c :: rest) = codes before ++ codes (c :: rest) := by
  fun_induction codes before with
  | case1 => rfl
  | case2 d =>
    show codes (d :: c :: rest) = _
    rw [codes, if_neg (by simp [hc])]
    rfl
  | case3 d e before h ih =>
    show codes (d :: e :: (before ++ c :: rest)) = _
    rw [codes, if_pos h, ih]
    rfl
  | case4 d e before h ih =>
    show codes (d :: e :: (before ++ c :: rest)) = _
    rw [codes, if_neg h]
    exact congrArg (loneCode d :: ·) ih

theorem slash_of_mem_codes {part : List Char} (h : '/'.toNat ∈ codes part) : '/' ∈ part := by
  rw [← ofCodes_codes part]
  exact List.mem_flatMap.mpr ⟨_, h, by decide⟩

theorem asName_of_no_slash {part : List Char} (h : '/' ∉ part) :
    asName part = (codes part).map nameChar := by
  unfold asName
  rw [List.map_eq_flatMap]
  refine List.flatMap_congr fun code hcode => ?_
  have hne : code ≠ '/'.toNat := by
    rintro rfl
    exact h (slash_of_mem_codes hcode)
  rw [inName, if_neg hne]

theorem joinName_eq {parts : List (List Char)} (h : ∀ part ∈ parts, '/' ∉ part) :
    joinName (parts.map fun part => (codes part).map nameChar) = asName (joinWith '/' parts) := by
  induction parts with
  | nil => rfl
  | cons part parts ih =>
    have hpart := asName_of_no_slash (h part List.mem_cons_self)
    cases parts with
    | nil => exact hpart.symm
    | cons next parts =>
      have hrest := ih fun p hp => h p (List.mem_cons_of_mem _ hp)
      show (codes part).map nameChar ++ '_' :: '_' :: joinName _ = asName (part ++ '/' :: _)
      have hsplit : asName (part ++ '/' :: joinWith '/' (next :: parts)) =
          asName part ++ asName ('/' :: joinWith '/' (next :: parts)) := by
        unfold asName
        rw [codes_append (by decide), List.flatMap_append]
      have hslash : asName ('/' :: joinWith '/' (next :: parts)) =
          '_' :: '_' :: asName (joinWith '/' (next :: parts)) := by
        unfold asName
        rw [codes_cons_of_ne_mark (by decide)]
        rfl
      rw [hrest, hsplit, hslash, hpart]

/-- A name is written code point by code point. -/
theorem nameChars_eq (type : List Char) : nameChars type = guardDigit (asName type) := by
  have hname := joinName_eq fun part => @not_mem_of_mem_splitAtChar '/' type part
  rw [join_splitAtChar] at hname
  unfold nameChars
  rw [hname]
  rfl

/-! ## Identifiers -/

theorem mem_inName {code : Nat} {c : Char} (h : c ∈ inName code) :
    c.isAlphanum = true ∨ c = '_' := by
  unfold inName at h
  split at h
  · simp only [List.mem_cons, List.not_mem_nil, or_false, or_self] at h
    exact .inr h
  · obtain rfl := List.mem_singleton.mp h
    unfold nameChar
    dsimp only
    split
    · next hkept => simpa using hkept
    · exact .inr rfl

theorem asName_ne_nil {type : List Char} (h : type ≠ []) : asName type ≠ [] := by
  intro hname
  refine h ?_
  rw [← ofCodes_codes type]
  cases hcodes : codes type with
  | nil => rfl
  | cons code rest =>
    rw [asName, hcodes, List.flatMap_cons] at hname
    refine absurd (List.append_eq_nil_iff.mp hname).1 ?_
    unfold inName
    split
    · exact List.cons_ne_nil _ _
    · exact List.cons_ne_nil _ _

/-- The name of a type is an identifier. -/
theorem isIdentifier_programName {type : String} (h : type ≠ "") :
    IsIdentifier (programName type) := by
  have hchars : ∀ c ∈ asName type.toList, c.isAlphanum = true ∨ c = '_' := fun c hc => by
    obtain ⟨code, _, hc⟩ := List.mem_flatMap.mp hc
    exact mem_inName hc
  have hne : asName type.toList ≠ [] :=
    asName_ne_nil fun hnil => h (String.toList_eq_nil_iff.mp hnil)
  obtain ⟨first, rest, hname⟩ := List.exists_cons_of_ne_nil hne
  rw [hname] at hchars
  obtain ⟨hfirst, hrest⟩ := List.forall_mem_cons.mp hchars
  unfold IsIdentifier programName
  rw [String.toList_ofList, nameChars_eq, hname, guardDigit]
  split
  · exact ⟨'_', first :: rest, rfl, .inr rfl, hchars⟩
  · next hdigit =>
    refine ⟨first, rest, rfl, hfirst.imp_left fun halnum => ?_, hrest⟩
    simpa [Char.isAlphanum, hdigit] using halnum

/-! ## Types that share a name -/

/-- Two types that read alike: up to what stands between their letters and digits, where a slash
counts as two characters, and up to one such character before a leading digit. -/
def ReadAlike (type type' : List Char) : Prop :=
  asName type = asName type' ∨
    (∃ c rest, c.isDigit = true ∧ asName type = c :: rest ∧ asName type' = '_' :: c :: rest) ∨
    (∃ c rest, c.isDigit = true ∧ asName type' = c :: rest ∧ asName type = '_' :: c :: rest)

theorem guardDigit_cases (name : List Char) :
    (∃ c rest, c.isDigit = true ∧ name = c :: rest ∧ guardDigit name = '_' :: c :: rest) ∨
      (guardDigit name = name ∧ ∀ c rest, name = c :: rest → c.isDigit = false) := by
  unfold guardDigit
  split
  · next c rest =>
    split
    · next h => exact .inl ⟨c, rest, h, rfl, rfl⟩
    · next h => exact .inr ⟨rfl, fun d ds heq => by
        obtain ⟨rfl, _⟩ := List.cons.inj heq
        simpa using h⟩
  · exact .inr ⟨rfl, fun c rest heq => absurd heq (by simp)⟩

theorem guardDigit_of_digit {c : Char} (h : c.isDigit = true) (rest : List Char) :
    guardDigit (c :: rest) = '_' :: c :: rest := if_pos h

/-- Types share a name just where they read alike. -/
theorem programName_eq_iff (type type' : String) :
    programName type = programName type' ↔ ReadAlike type.toList type'.toList := by
  have hchars : programName type = programName type' ↔
      guardDigit (asName type.toList) = guardDigit (asName type'.toList) := by
    rw [← nameChars_eq, ← nameChars_eq, programName, programName, String.ofList_inj]
  rw [hchars]
  constructor
  · intro h
    rcases guardDigit_cases (asName type.toList) with ⟨c, rest, hc, hname, hguard⟩ | ⟨hguard, _⟩
    · rcases guardDigit_cases (asName type'.toList) with
        ⟨d, rest', _, hname', hguard'⟩ | ⟨hguard', _⟩
      · rw [hguard, hguard'] at h
        exact .inl (by rw [hname, hname', (List.cons.inj h).2])
      · exact .inr (.inl ⟨c, rest, hc, hname, by rw [← hguard', ← h, hguard]⟩)
    · rcases guardDigit_cases (asName type'.toList) with
        ⟨d, rest', hd, hname', hguard'⟩ | ⟨hguard', _⟩
      · exact .inr (.inr ⟨d, rest', hd, hname', by rw [← hguard, h, hguard']⟩)
      · exact .inl (by rw [← hguard, h, hguard'])
  · rintro (h | ⟨c, rest, hc, h, h'⟩ | ⟨c, rest, hc, h', h⟩)
    · rw [h]
    · rw [h, h', guardDigit_of_digit hc]
      rfl
    · rw [h, h', guardDigit_of_digit hc]
      rfl

/-- A character that may stand between words: ASCII, and neither a letter, a digit nor a slash. -/
structure IsSeparator (sep : Char) : Prop where
  ascii : sep.toNat < 128
  not_alphanum : sep.isAlphanum = false
  not_slash : sep ≠ '/'

/-- Words of ASCII letters and digits, with one separator or one slash between any two. -/
inductive Tidy (sep : Char) : List Char → Prop
  | last {c : Char} : c.isAlphanum = true → Tidy sep [c]
  | next {c : Char} {rest : List Char} : c.isAlphanum = true → Tidy sep rest →
      Tidy sep (c :: rest)
  | gap {c d : Char} {rest : List Char} : c.isAlphanum = true → d = sep ∨ d = '/' →
      Tidy sep rest → Tidy sep (c :: d :: rest)

theorem asName_cons_ascii {c : Char} (h : c.toNat < 128) (rest : List Char) :
    asName (c :: rest) = inName c.toNat ++ asName rest := by
  have hmark : c ≠ mark := by
    rintro rfl
    exact absurd h (by decide)
  have hreserved : ¬ isReserved c = true := by
    rw [isReserved_iff]
    omega
  unfold asName
  rw [codes_cons_of_ne_mark hmark, loneCode, if_neg hmark, if_neg hreserved, List.flatMap_cons]

theorem ascii_of_isAlphanum {c : Char} (h : c.isAlphanum = true) : c.toNat < 128 := by
  have hle : c.val ≤ 'z'.val := by
    simp only [Char.isAlphanum, Char.isAlpha, Char.isUpper, Char.isLower, Char.isDigit,
      Bool.or_eq_true, Bool.and_eq_true, decide_eq_true_eq] at h
    rcases h with (⟨_, h⟩ | ⟨_, h⟩) | ⟨_, h⟩
    · exact UInt32.le_trans h (by decide)
    · exact h
    · exact UInt32.le_trans h (by decide)
  exact lt_of_le_of_lt (UInt32.le_iff_toNat_le.mp hle) (by decide)

theorem asName_cons_alphanum {c : Char} (h : c.isAlphanum = true) (rest : List Char) :
    asName (c :: rest) = c :: asName rest := by
  have hne : c.toNat ≠ '/'.toNat := by
    intro heq
    rw [Char.toNat_inj.mp heq] at h
    exact absurd h (by decide)
  rw [asName_cons_ascii (ascii_of_isAlphanum h), inName, if_neg hne, nameChar]
  simp [h, Char.ofNat_toNat]

theorem asName_cons_slash (rest : List Char) : asName ('/' :: rest) = '_' :: '_' :: asName rest :=
  asName_cons_ascii (by decide) rest

theorem asName_cons_separator {sep : Char} (h : IsSeparator sep) (rest : List Char) :
    asName (sep :: rest) = '_' :: asName rest := by
  have hne : sep.toNat ≠ '/'.toNat := fun heq => h.not_slash (Char.toNat_inj.mp heq)
  rw [asName_cons_ascii h.ascii, inName, if_neg hne, nameChar]
  simp [h.not_alphanum, Char.ofNat_toNat]

theorem Tidy.head {sep : Char} {type : List Char} (h : Tidy sep type) :
    ∃ c rest, asName type = c :: rest ∧ c.isAlphanum = true := by
  cases h with
  | last hc => exact ⟨_, _, asName_cons_alphanum hc _, hc⟩
  | next hc _ => exact ⟨_, _, asName_cons_alphanum hc _, hc⟩
  | gap hc _ _ => exact ⟨_, _, asName_cons_alphanum hc _, hc⟩

/-- What a tidy type reads like does not start with an underscore. -/
theorem Tidy.asName_ne {sep : Char} {type : List Char} (h : Tidy sep type) (rest : List Char) :
    asName type ≠ '_' :: rest := by
  obtain ⟨c, rest', hname, hc⟩ := h.head
  rw [hname]
  rintro heq
  rw [(List.cons.inj heq).1] at hc
  exact absurd hc (by decide)

theorem Tidy.asName_ne_nil {sep : Char} {type : List Char} (h : Tidy sep type) :
    asName type ≠ [] := by
  obtain ⟨c, rest, hname, _⟩ := h.head
  rw [hname]
  exact List.cons_ne_nil _ _

theorem asName_gap {sep d : Char} (hsep : IsSeparator sep) (hd : d = sep ∨ d = '/')
    (rest : List Char) : ∃ more, asName (d :: rest) = '_' :: more := by
  rcases hd with rfl | rfl
  · exact ⟨_, asName_cons_separator hsep rest⟩
  · exact ⟨_, asName_cons_slash rest⟩

/-- A separator and a slash do not read alike, for a word follows. -/
theorem eq_of_gap {sep d d' : Char} (hsep : IsSeparator sep) (hd : d = sep ∨ d = '/')
    (hd' : d' = sep ∨ d' = '/') {rest rest' : List Char} (h : Tidy sep rest)
    (h' : Tidy sep rest') (hname : asName (d :: rest) = asName (d' :: rest')) :
    d = d' ∧ asName rest = asName rest' := by
  rcases hd with rfl | rfl
  · rcases hd' with rfl | rfl
    · rw [asName_cons_separator hsep, asName_cons_separator hsep] at hname
      exact ⟨rfl, (List.cons.inj hname).2⟩
    · rw [asName_cons_separator hsep, asName_cons_slash] at hname
      exact absurd (List.cons.inj hname).2 (h.asName_ne _)
  · rcases hd' with rfl | rfl
    · rw [asName_cons_slash, asName_cons_separator hsep] at hname
      exact absurd (List.cons.inj hname).2.symm (h'.asName_ne _)
    · rw [asName_cons_slash, asName_cons_slash] at hname
      exact ⟨rfl, (List.cons.inj (List.cons.inj hname).2).2⟩

/-- Tidy types that read the same are the same. -/
theorem Tidy.eq_of_asName_eq {sep : Char} (hsep : IsSeparator sep) {type type' : List Char}
    (h : Tidy sep type) (h' : Tidy sep type') (hname : asName type = asName type') :
    type = type' := by
  induction h generalizing type' with
  | last hc =>
    cases h' with
    | last hd =>
      rw [asName_cons_alphanum hc, asName_cons_alphanum hd] at hname
      rw [(List.cons.inj hname).1]
    | next hd hrest =>
      rw [asName_cons_alphanum hc, asName_cons_alphanum hd] at hname
      exact absurd (List.cons.inj hname).2.symm hrest.asName_ne_nil
    | gap hd hgap _ =>
      obtain ⟨more, hmore⟩ := asName_gap hsep hgap _
      rw [asName_cons_alphanum hc, asName_cons_alphanum hd, hmore] at hname
      exact absurd (List.cons.inj hname).2.symm (List.cons_ne_nil _ _)
  | next hc hrest ih =>
    cases h' with
    | last hd =>
      rw [asName_cons_alphanum hc, asName_cons_alphanum hd] at hname
      exact absurd (List.cons.inj hname).2 hrest.asName_ne_nil
    | next hd hrest' =>
      rw [asName_cons_alphanum hc, asName_cons_alphanum hd] at hname
      obtain ⟨rfl, hrests⟩ := List.cons.inj hname
      rw [ih hrest' hrests]
    | gap hd hgap _ =>
      obtain ⟨more, hmore⟩ := asName_gap hsep hgap _
      rw [asName_cons_alphanum hc, asName_cons_alphanum hd, hmore] at hname
      exact absurd (List.cons.inj hname).2 (hrest.asName_ne _)
  | gap hc hgap hrest ih =>
    cases h' with
    | last hd =>
      obtain ⟨more, hmore⟩ := asName_gap hsep hgap _
      rw [asName_cons_alphanum hc, asName_cons_alphanum hd, hmore] at hname
      exact absurd (List.cons.inj hname).2 (List.cons_ne_nil _ _)
    | next hd hrest' =>
      obtain ⟨more, hmore⟩ := asName_gap hsep hgap _
      rw [asName_cons_alphanum hc, asName_cons_alphanum hd, hmore] at hname
      exact absurd (List.cons.inj hname).2.symm (hrest'.asName_ne _)
    | gap hd hgap' hrest' =>
      rw [asName_cons_alphanum hc, asName_cons_alphanum hd] at hname
      obtain ⟨rfl, hgaps⟩ := List.cons.inj hname
      obtain ⟨rfl, hrests⟩ := eq_of_gap hsep hgap hgap' hrest hrest' hgaps
      rw [ih hrest' hrests]

/-- Tidy types do not share a name. -/
theorem eq_of_programName_eq {sep : Char} (hsep : IsSeparator sep) {type type' : String}
    (h : Tidy sep type.toList) (h' : Tidy sep type'.toList)
    (hname : programName type = programName type') : type = type' := by
  rcases (programName_eq_iff type type').mp hname with
    halike | ⟨c, rest, _, _, halike⟩ | ⟨c, rest, _, _, halike⟩
  · exact String.toList_inj.mp (h.eq_of_asName_eq hsep h' halike)
  · exact absurd halike (h'.asName_ne _)
  · exact absurd halike (h.asName_ne _)

end Text

/-! ## Names of a unit -/

namespace Backend

open Text (IsIdentifier)

theorem isAlphanum_of_isAsciiDigit {c : Char} (h : Text.Numeral.isAsciiDigit c = true) :
    c.isAlphanum = true := by
  have hrange : '0' ≤ c ∧ c ≤ '9' := by simpa [Text.Numeral.isAsciiDigit] using h
  have hdigit : c.isDigit = true := Bool.and_eq_true_iff.mpr
    ⟨decide_eq_true hrange.1, decide_eq_true hrange.2⟩
  rw [Char.isAlphanum, hdigit, Bool.or_true]

/-- The variable of a node has an identifier as its name just where the id is not negative. -/
theorem isIdentifier_instanceName_iff (node : BoundNode) :
    IsIdentifier (instanceName node) ↔ 0 ≤ node.id := by
  have hname : (instanceName node).toList =
      'n' :: ("ode_".toList ++ (Text.Numeral.intText node.id).toList) := by
    rw [instanceName, String.toList_append]
    rfl
  constructor
  · rintro ⟨first, rest, heq, _, hrest⟩
    obtain ⟨_, rfl⟩ := List.cons.inj (heq.symm.trans hname)
    by_contra hneg
    have hminus : '-' ∈ (Text.Numeral.intText node.id).toList := by
      rw [Text.Numeral.toList_intText, if_pos (not_le.mp hneg)]
      exact List.mem_cons_self
    have := hrest '-' (List.mem_append_right _ hminus)
    exact absurd this (by decide)
  · intro hid
    refine ⟨'n', _, hname, .inl (by decide), fun c hc => ?_⟩
    rcases List.mem_append.mp hc with hc | hc
    · have hkept : (['o', 'd', 'e', '_'].all fun c => c.isAlphanum || c == '_') = true := by decide
      simpa using List.all_eq_true.mp hkept c hc
    · rw [Text.Numeral.toList_intText, if_neg (not_lt.mpr hid)] at hc
      exact .inl (isAlphanum_of_isAsciiDigit (Text.Numeral.mem_digits hc))

theorem id_eq_of_instanceName_eq {m n : BoundNode} (h : instanceName m = instanceName n) :
    m.id = n.id := by
  have hlists := congrArg String.toList h
  rw [instanceName, instanceName, String.toList_append, String.toList_append] at hlists
  exact Text.Numeral.intText_injective (String.toList_inj.mp (List.append_cancel_left hlists))

end Backend

/-- The names of a unit in a C++ program: those of types and those of the variables of nodes. -/
structure CompiledUnit.WellNamed (unit : CompiledUnit) : Prop where
  type_names : ∀ node ∈ unit.nodes, Text.IsIdentifier (Text.programName node.type)
  template_names : ∀ type ∈ unit.templates.map Prod.fst,
    Text.IsIdentifier (Text.programName type)
  /-- A negative id makes a name with a minus sign in it. -/
  variable_names : ∀ node ∈ unit.nodes,
    Text.IsIdentifier (Backend.instanceName node) ↔ 0 ≤ node.id
  variables_apart : ∀ m ∈ unit.nodes, ∀ n ∈ unit.nodes,
    Backend.instanceName m = Backend.instanceName n → m = n
  /-- Types share a name just where they read alike. -/
  shared_names : ∀ m ∈ unit.nodes, ∀ n ∈ unit.nodes,
    Text.programName m.type = Text.programName n.type ↔
      Text.ReadAlike m.type.toList n.type.toList
  /-- Types of words with one kind of separator have a name each. -/
  types_apart : ∀ sep, Text.IsSeparator sep →
    (∀ node ∈ unit.nodes, Text.Tidy sep node.type.toList) →
    ∀ m ∈ unit.nodes, ∀ n ∈ unit.nodes,
      Text.programName m.type = Text.programName n.type → m.type = n.type

/-! ### Two types that read alike -/

namespace Strips

/-- Two node types whose names differ in a separator, each with an implementation. -/
def document : Value :=
  .obj [
    ("patches", .obj [("@/main", .obj [("nodes", .obj [("1", .obj [("type", .str "led-strip")]),
      ("2", .obj [("type", .str "led_strip")])])])]),
    ("nodeTypes", .obj [
      ("led-strip", .obj [("impl", .obj [("cpp", .str "struct Node;")])]),
      ("led_strip", .obj [("impl", .obj [("cpp", .str "class Node;")])])])]

def request : Request := ⟨.str "@/main", .str "none", .obj [], false⟩

def unit : CompiledUnit where
  nodes := [⟨1, "led-strip", false, [], [], []⟩, ⟨2, "led_strip", false, [], [], []⟩]
  topology := [1, 2]
  templates := [("led-strip", "struct Node;"), ("led_strip", "class Node;")]
  debugIds := [(1, "1"), (2, "2")]
  affected := []
  liveness := "none"
  globals := []

theorem compileDocument_document :
    request.compileDocument (.arr [.str "cpp"]) document = .ok unit := by
  cbv

end Strips

/-- Every compiled unit is well named. -/
theorem Request.compileDocument_wellNamed {request : Request} {backends document : Value}
    {unit : CompiledUnit} (h : request.compileDocument backends document = .ok unit) :
    unit.WellNamed := by
  obtain ⟨project, closure, graph, mode, names, hproject, hclosure, hgraph, _, hassembled⟩ :=
    Request.assembled_of_compileDocument h
  obtain ⟨path, hc⟩ := Request.ofEntry_of_closure hclosure
  have hs := Closure.sound_of_ofEntry hproject hc
  have hg := hs.sound_of_flatten hgraph
  have hn := hs.nodup_of_flatten hgraph
  have htypes : ∀ node ∈ unit.nodes, node.type ≠ "" := by
    intro node hnode
    obtain ⟨p, hp⟩ := hassembled.exists_primitive hg hn hnode
    exact Closure.ne_empty_of_primitive hproject hc hp
  refine ⟨fun node hnode => Text.isIdentifier_programName (htypes node hnode), fun type htype => ?_,
    fun node _ => Backend.isIdentifier_instanceName_iff node, fun m hm n hn' heq => ?_,
    fun m _ n _ => Text.programName_eq_iff m.type n.type, fun sep hsep htidy m hm n hn' heq => ?_⟩
  · obtain ⟨node, hnode, rfl⟩ := hassembled.exists_type htype
    exact Text.isIdentifier_programName (htypes node hnode)
  · have hnodup := (hassembled.binds hg hn).1.nodup_iff.mpr hn
    exact List.inj_on_of_nodup_map hnodup hm hn' (Backend.id_eq_of_instanceName_eq heq)
  · exact Text.eq_of_programName_eq hsep (htidy m hm) (htidy n hn') heq

theorem Request.compileDocument_wellNamed_strips :
    Strips.request.compileDocument (.arr [.str "cpp"]) Strips.document = .ok Strips.unit ∧
      Strips.unit.WellNamed :=
  ⟨Strips.compileDocument_document, compileDocument_wellNamed Strips.compileDocument_document⟩

/-- Two types of a unit share a name, so their implementations share a namespace. -/
theorem Request.compileDocument_shares_name :
    Strips.request.compileDocument (.arr [.str "cpp"]) Strips.document = .ok Strips.unit ∧
      ∃ m ∈ Strips.unit.nodes, ∃ n ∈ Strips.unit.nodes, m.type ≠ n.type ∧
        m.type ∈ Strips.unit.templates.map Prod.fst ∧ n.type ∈ Strips.unit.templates.map Prod.fst ∧
        Text.programName m.type = Text.programName n.type := by
  refine ⟨Strips.compileDocument_document, _, List.mem_cons_self, _,
    List.mem_cons_of_mem _ List.mem_cons_self, ?_, ?_, ?_, ?_⟩
  · decide
  · decide
  · decide
  · exact (Text.programName_eq_iff "led-strip" "led_strip").mpr (.inl (by decide))

end Patchbay
