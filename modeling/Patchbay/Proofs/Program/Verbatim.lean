import Patchbay.Proofs.Program.Confinement

/-!
# Implementation texts in a program

An implementation text is written line by line, and the lines of a program are joined by line feeds.
Read back without the indentation, the lines of a text are the text with one line feed for each of
its line breaks, and without one at its end (`Program.emit_templates`). So the text is there
unchanged just where no other character of it breaks a line; a text may have such a one between
quotes (`Request.compileDocument_breaks_text`).
-/

namespace Patchbay

/-! ## Lines joined again -/

namespace Text

/-- The characters with one line feed for each line break. -/
def feeds : List Char → List Char
  | [] => []
  | '\r' :: '\n' :: rest => '\n' :: feeds rest
  | c :: rest => (if isBreak c then '\n' else c) :: feeds rest

/-- Nothing of the characters is changed or lost, a line feed at their end aside. -/
def Verbatim (cs written : List Char) : Prop := cs = written ∨ cs = written ++ ['\n']

variable {cs line : List Char}

theorem dropFinalFeed_append (before : List Char) (h : cs ≠ []) :
    dropFinalFeed (before ++ cs) = before ++ dropFinalFeed cs := by
  unfold dropFinalFeed
  rw [List.getLast?_append_of_ne_nil _ h]
  split
  · exact List.dropLast_append_of_ne_nil h
  · rfl

theorem feeds_ne_nil (h : cs ≠ []) : feeds cs ≠ [] := by
  fun_cases feeds cs with
  | case1 => exact absurd rfl h
  | case2 => simp
  | case3 => simp

theorem linesFrom_eq_nil_iff : linesFrom line cs = [] ↔ line = [] ∧ cs = [] := by
  fun_induction linesFrom line cs with
  | case1 line hempty => simpa using hempty
  | case2 line hempty => simpa using hempty
  | case3 => simp
  | case4 => simp
  | case5 _ _ _ _ _ ih => simp [ih]

/-- A line, and the lines behind its break. -/
theorem intercalate_cons_linesFrom (line : List Char)
    (hrest : ['\n'].intercalate (linesFrom [] cs) = dropFinalFeed (feeds cs)) :
    ['\n'].intercalate (line :: linesFrom [] cs) = dropFinalFeed (line ++ '\n' :: feeds cs) := by
  by_cases hcs : cs = []
  · subst hcs
    rw [linesFrom_eq_nil_iff.mpr ⟨rfl, rfl⟩]
    simp [dropFinalFeed, feeds]
  · have hlines : linesFrom [] cs ≠ [] := fun h => hcs (linesFrom_eq_nil_iff.mp h).2
    calc ['\n'].intercalate (line :: linesFrom [] cs)
      _ = line ++ ['\n'] ++ ['\n'].intercalate (linesFrom [] cs) :=
        List.intercalate_cons_of_ne_nil hlines
      _ = dropFinalFeed (line ++ '\n' :: feeds cs) := by
        rw [hrest, ← dropFinalFeed_append _ (feeds_ne_nil hcs)]
        simp

/-- The lines of some characters, joined by line feeds. -/
theorem intercalate_linesFrom (hline : '\n' ∉ line) :
    ['\n'].intercalate (linesFrom line cs) = dropFinalFeed (line.reverse ++ feeds cs) := by
  fun_induction linesFrom line cs with
  | case1 line hempty =>
    obtain rfl := List.isEmpty_iff.mp hempty
    rfl
  | case2 line hempty =>
    have hreverse : '\n' ∉ line.reverse := fun hmem => hline (List.mem_reverse.mp hmem)
    rw [feeds, List.append_nil, dropFinalFeed_of_not_mem hreverse]
    exact List.append_nil _
  | case3 line rest ih =>
    rw [feeds]
    exact intercalate_cons_linesFrom line.reverse (ih List.not_mem_nil)
  | case4 line c rest hpair hbreak ih =>
    rw [feeds, if_pos hbreak]
    · exact intercalate_cons_linesFrom line.reverse (ih List.not_mem_nil)
    · exact hpair
  | case5 line c rest hpair hbreak ih =>
    have hc : '\n' ∉ c :: line := by
      refine List.not_mem_cons_of_ne_of_not_mem ?_ hline
      rintro rfl
      exact hbreak (by decide)
    rw [feeds, if_neg hbreak, ih hc]
    · simp
    · exact hpair

/-- The lines of a text, joined by line feeds, are the text with one line feed for each line break
and none at its end. -/
theorem intercalate_lines (s : String) :
    ("\n".intercalate (lines s)).toList = dropFinalFeed (feeds s.toList) := by
  have hlines : (lines s).map String.toList = linesFrom [] s.toList := by
    rw [lines, List.map_map]
    exact List.map_id'' (fun _ => String.toList_ofList) _
  rw [String.toList_intercalate, hlines]
  exact intercalate_linesFrom List.not_mem_nil

theorem eq_feed_of_mem_feeds {c : Char} (hc : c ∈ feeds cs) (hbreak : isBreak c = true) :
    c = '\n' := by
  fun_induction feeds cs with
  | case1 => exact absurd hc List.not_mem_nil
  | case2 rest ih =>
    rcases List.mem_cons.mp hc with rfl | hc
    · rfl
    · exact ih hc
  | case3 d rest hpair ih =>
    rcases List.mem_cons.mp hc with rfl | hc
    · split at hbreak
      · next h => rw [if_pos h]
      · next h => exact absurd hbreak h
    · exact ih hc

theorem feeds_eq_self (h : ∀ c ∈ cs, isBreak c = true → c = '\n') : feeds cs = cs := by
  fun_induction feeds cs with
  | case1 => rfl
  | case2 rest ih => exact absurd (h '\r' List.mem_cons_self (by decide)) (by decide)
  | case3 c rest hpair ih =>
    obtain ⟨hc, hrest⟩ := List.forall_mem_cons.mp h
    rw [ih hrest]
    split
    · next hbreak => rw [hc hbreak]
    · rfl

theorem verbatim_dropFinalFeed (cs : List Char) : Verbatim cs (dropFinalFeed cs) := by
  unfold Verbatim dropFinalFeed
  split
  · next hlast => exact .inr (List.dropLast_append_getLast? '\n' hlast).symm
  · exact .inl rfl

theorem mem_of_mem_dropFinalFeed {c : Char} (h : c ∈ dropFinalFeed cs) : c ∈ cs := by
  unfold dropFinalFeed at h
  split at h
  · exact List.mem_of_mem_dropLast h
  · exact h

/-- The joined lines are the text itself just where no other character of it than line feeds breaks a
line. -/
theorem verbatim_iff :
    Verbatim cs (dropFinalFeed (feeds cs)) ↔ ∀ c ∈ cs, isBreak c = true → c = '\n' := by
  constructor
  · intro h c hc hbreak
    rcases h with heq | heq
    · rw [heq] at hc
      exact eq_feed_of_mem_feeds (mem_of_mem_dropFinalFeed hc) hbreak
    · rw [heq] at hc
      rcases List.mem_append.mp hc with hc | hc
      · exact eq_feed_of_mem_feeds (mem_of_mem_dropFinalFeed hc) hbreak
      · exact List.mem_singleton.mp hc
  · intro h
    rw [feeds_eq_self h]
    exact verbatim_dropFinalFeed cs

end Text

/-! ## Texts in a block of lines -/

namespace Writer

/-- A line without its indentation. -/
def unindented (depth : Int) (line : String) : String :=
  String.ofList (line.toList.drop (stepWidth * depth.toNat))

theorem unindented_indented (depth : Int) (line : String) :
    unindented depth (indented depth line) = line := by
  unfold unindented indented
  split
  · next hempty =>
    obtain rfl := String.isEmpty_iff.mp hempty
    simp
  · simp

theorem map_unindented_indented (depth : Int) (lines : List String) :
    (lines.map (indented depth)).map (unindented depth) = lines := by
  rw [List.map_map]
  exact List.map_id'' (unindented_indented depth) lines

end Writer

/-- The block of lines holds these characters as the text of a type: its lines between those around
the text, without their indentation, joined by line feeds. -/
def Backend.HoldsText (backend : Backend) (type : String) (block : List String)
    (written : List Char) : Prop :=
  ∃ body, block = backend.opening type ++ body ++ backend.closing type ∧
    ("\n".intercalate (body.map (Writer.unindented backend.textDepth))).toList = written

theorem Backend.holdsText_iff {backend : Backend} {type source : String} {written : List Char} :
    backend.HoldsText type (implementation backend type source backend.writer).lines written ↔
      written = Text.dropFinalFeed (Text.feeds source.toList) := by
  have hbody : ("\n".intercalate (((Text.lines source).map (Writer.indented backend.textDepth)).map
      (Writer.unindented backend.textDepth))).toList =
        Text.dropFinalFeed (Text.feeds source.toList) := by
    rw [Writer.map_unindented_indented]
    exact Text.intercalate_lines source
  constructor
  · rintro ⟨body, hblock, rfl⟩
    rw [implementation_lines, List.append_left_inj, List.append_right_inj] at hblock
    rw [← hblock, hbody]
  · rintro rfl
    exact ⟨_, implementation_lines backend type source, hbody⟩

/-- The characters of an implementation text of a unit, with the constants put in. -/
def Program.templateText (unit : CompiledUnit) (entry : String × String) : List Char :=
  (Globals.splice unit.globals entry.2).toList

/-- The block of lines of an implementation text holds it with one line feed for each of its line
breaks and none at its end. That is the text itself, a line feed at its end aside, just where no
other character of it breaks a line. A program has these blocks, one behind the other, after its
banner. -/
theorem Program.emit_templates (unit : CompiledUnit) (backend : Backend) :
    (∀ entry ∈ unit.templates, ∃ written,
      (∀ others,
        backend.HoldsText entry.1 (templateLines backend unit entry) others ↔ others = written) ∧
      written = Text.dropFinalFeed (Text.feeds (templateText unit entry)) ∧
      (Text.Verbatim (templateText unit entry) written ↔
        ∀ c ∈ templateText unit entry, Text.isBreak c = true → c = '\n')) ∧
    ∀ name program, Backend.ofValue name = .ok backend → emit unit name = .ok program →
      (∀ entry ∈ unit.templates,
        templateLines backend unit entry <:+: implementationLines backend unit) ∧
      ∃ after, program.source.toList = Writer.chars (Backend.bannerLines unit backend ++
        backend.prelude ++ [""] ++ implementationLines backend unit ++ after) := by
  refine ⟨fun entry _ => ⟨_, fun _ => Backend.holdsText_iff, rfl, Text.verbatim_iff⟩,
    fun name program hname hemit => ⟨fun entry => templateLines_within backend, ?_⟩⟩
  obtain ⟨w, hw, hsource⟩ := written_of_emitted hname hemit
  obtain ⟨more, hmore⟩ := exists_of_written hw
  have hlines : w.lines ≠ [] := by
    rw [hmore, headLines]
    simp
  refine ⟨("// " ++ sectionTitle "Nodes" 50) :: more, ?_⟩
  rw [hsource, Writer.toList_text hlines, hmore, headLines, List.append_assoc _ _ more]
  rfl

/-! ### A line separator in a literal -/

namespace Ruler

/-- A type whose text has a line separator between quotes. -/
def entry : String × String := ("ruler", "const end = '\u2028';\n")

def document : Value :=
  .obj [
    ("patches", .obj [("@/main", .obj [("nodes", .obj [
      ("1", .obj [("type", .str entry.1)])])])]),
    ("nodeTypes", .obj [(entry.1, .obj [("impl", .obj [("js", .str entry.2)])])])]

def request : Request := ⟨.str "@/main", .str "none", .obj [], false⟩

def node : BoundNode := ⟨1, entry.1, false, [], [], []⟩

def unit : CompiledUnit where
  nodes := [node]
  topology := [1]
  templates := [entry]
  debugIds := [(1, "1")]
  affected := []
  liveness := "none"
  globals := []

theorem compileDocument_document :
    request.compileDocument (.arr [.str "js"]) document = .ok unit := by
  cbv

theorem emit_unit : ∃ program, Program.emit unit (.str "js") = .ok program := by
  have hpins : ∀ pin ∈ Document.declaredPins document, Document.GivesTextKey pin :=
    fun pin hpin => absurd hpin List.not_mem_nil
  have hjs : Backend.ofValue (.str "js") = .ok .js := rfl
  exact Program.emit_eq_ok
    (CompiledUnit.reliable_of_compileDocument hpins compileDocument_document).1 hjs

theorem splice_entry : Globals.splice unit.globals entry.2 = entry.2 := by
  cbv

/-- The lines of the text, and those around it. -/
def block : List String :=
  ["// impl: ruler", "impl[\"ruler\"] = (function () \x7b",
    "    const module = \x7b exports: \x7b\x7d \x7d;", "    const end = '", "    ';",
    "    return module.exports;", "\x7d)();"]

theorem templateLines_entry : Program.templateLines .js unit entry = block := by
  have hlines : Text.lines entry.2 = ["const end = '", "';"] := by cbv
  rw [Program.templateLines, splice_entry, Backend.implementation_lines, hlines]
  cbv

end Ruler

theorem Program.emit_templates_ruler :
    Backend.ofValue (.str "js") = .ok .js ∧ Ruler.entry ∈ Ruler.unit.templates ∧
    (∃ written, (∀ others,
        Backend.js.HoldsText Ruler.entry.1 (templateLines .js Ruler.unit Ruler.entry) others ↔
          others = written) ∧
      written = Text.dropFinalFeed (Text.feeds (templateText Ruler.unit Ruler.entry)) ∧
      (Text.Verbatim (templateText Ruler.unit Ruler.entry) written ↔
        ∀ c ∈ templateText Ruler.unit Ruler.entry, Text.isBreak c = true → c = '\n')) ∧
    ∃ program, emit Ruler.unit (.str "js") = .ok program ∧
      ∃ after, program.source.toList = Writer.chars (Backend.bannerLines Ruler.unit .js ++
        Backend.js.prelude ++ [""] ++ implementationLines .js Ruler.unit ++ after) := by
  obtain ⟨program, hemit⟩ := Ruler.emit_unit
  have hjs : Backend.ofValue (.str "js") = .ok .js := rfl
  have hentry : Ruler.entry ∈ Ruler.unit.templates := List.mem_cons_self
  obtain ⟨htexts, hprogram⟩ := emit_templates Ruler.unit .js
  exact ⟨hjs, hentry, htexts _ hentry, program, hemit, (hprogram _ _ hjs hemit).2⟩

/-- A line separator between quotes is lost, and the literal is broken in two: no carriage return is
in the text, and still the block does not hold it. -/
theorem Request.compileDocument_breaks_text :
    Ruler.request.compileDocument (.arr [.str "js"]) Ruler.document = .ok Ruler.unit ∧
    (∃ program, Program.emit Ruler.unit (.str "js") = .ok program) ∧
    Ruler.entry ∈ Ruler.unit.templates ∧ '\r' ∉ Program.templateText Ruler.unit Ruler.entry ∧
    Program.templateLines .js Ruler.unit Ruler.entry = Ruler.block ∧
    ∀ written, Backend.js.HoldsText Ruler.entry.1
        (Program.templateLines .js Ruler.unit Ruler.entry) written →
      ¬ Text.Verbatim (Program.templateText Ruler.unit Ruler.entry) written := by
  have htext : Program.templateText Ruler.unit Ruler.entry = Ruler.entry.2.toList :=
    congrArg String.toList Ruler.splice_entry
  refine ⟨Ruler.compileDocument_document, Ruler.emit_unit, List.mem_cons_self, ?_,
    Ruler.templateLines_entry, ?_⟩
  · rw [htext]
    decide
  · intro written hwritten hverbatim
    rw [Backend.holdsText_iff.mp hwritten] at hverbatim
    have hfeeds := Text.verbatim_iff.mp hverbatim '\u2028'
    rw [htext] at hfeeds
    exact absurd (hfeeds (by decide) (by decide)) (by decide)

end Patchbay
