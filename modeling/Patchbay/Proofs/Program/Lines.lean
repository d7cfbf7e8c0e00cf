import Mathlib.Data.List.Induction
import Patchbay.Program.Emission
import Patchbay.Proofs.Keyed
import Patchbay.Proofs.Outcome

/-!
# Lines of a program

The text of a program is that of its lines, each with a line feed behind it (`toList_text`). A line
may have line feeds in it; those that have none are determined from the end of the text
(`chars_inj`). The last lines of a JavaScript program are one for each node, in their order, and the
exports (`source_eq`), and none of them is indented.
-/

namespace Patchbay

/-! ## Lines -/

namespace Writer

variable {w : Writer}

/-- The step writes these lines, and leaves the writer as deep as it was. -/
def Adds (w w' : Writer) (more : List String) : Prop := w' = { w with lines := w.lines ++ more }

/-- The next line stands at the margin. -/
structure AtMargin (w : Writer) : Prop where
  depth_eq : w.depth = 0
  mark_eq : w.mark = "//"

namespace Adds

variable {w' w'' : Writer} {more more' : List String}

theorem lines_eq (h : w.Adds w' more) : w'.lines = w.lines ++ more := by
  rw [Adds.eq_def] at h
  rw [h]

theorem depth_eq (h : w.Adds w' more) : w'.depth = w.depth := by
  rw [Adds.eq_def] at h
  rw [h]

theorem atMargin (h : w.Adds w' more) (hw : w.AtMargin) : w'.AtMargin := by
  rw [Adds.eq_def] at h
  rw [h]
  exact ⟨hw.depth_eq, hw.mark_eq⟩

theorem refl (w : Writer) : w.Adds w [] := by
  unfold Adds
  rw [List.append_nil]

theorem trans (h : w.Adds w' more) (h' : w'.Adds w'' more') : w.Adds w'' (more ++ more') := by
  unfold Adds at *
  subst h
  rw [h', List.append_assoc]

theorem line (h : w.Adds w' more) (text : String) :
    w.Adds (w'.line text) (more ++ [indented w.depth text]) :=
  h.trans (h.depth_eq ▸ rfl)

theorem extend (h : w.Adds w' more) (texts : List String) :
    w.Adds (w'.extend texts) (more ++ texts.map (indented w.depth)) :=
  h.trans (h.depth_eq ▸ extend_eq w' texts)

end Adds

/-- Steps that write at the margin write one after the other. -/
theorem adds_foldl {α : Type} {f : Writer → α → Writer} {more : α → List String}
    (hf : ∀ (w : Writer) (a : α), w.AtMargin → w.Adds (f w a) (more a)) (hw : w.AtMargin) (entries : List α) :
    w.Adds (entries.foldl f w) (entries.flatMap more) := by
  induction entries generalizing w with
  | nil => exact .refl w
  | cons a rest ih =>
    have hstep := hf w a hw
    exact hstep.trans (ih (hstep.atMargin hw))

theorem indented_zero (line : String) : indented 0 line = line := by
  unfold indented
  split
  · next h => exact (String.isEmpty_iff.mp h).symm
  · simp

theorem map_indented_zero (lines : List String) : lines.map (indented 0) = lines :=
  List.map_id'' indented_zero lines

theorem comment_eq (hw : w.AtMargin) (text : String) : w.comment text = w.line ("// " ++ text) := by
  unfold comment
  rw [hw.mark_eq]
  rfl

theorem adds_comment (hw : w.AtMargin) (text : String) : w.Adds (w.comment text) ["// " ++ text] := by
  have hline := (Adds.refl w).line ("// " ++ text)
  rwa [hw.depth_eq, indented_zero, ← comment_eq hw] at hline

/-- The characters of some lines, each with a line feed behind it. -/
def chars (lines : List String) : List Char := lines.flatMap fun line => line.toList ++ ['\n']

theorem chars_append (lines more : List String) : chars (lines ++ more) = chars lines ++ chars more :=
  List.flatMap_append

theorem toList_text (hw : w.lines ≠ []) : (w.text ++ "\n").toList = chars w.lines := by
  unfold text
  generalize w.lines = lines at hw
  rw [String.toList_append]
  induction lines with
  | nil => exact absurd rfl hw
  | cons line rest ih =>
    cases rest with
    | nil => simp [chars]
    | cons next rest =>
      have hrest := ih (List.cons_ne_nil _ _)
      rw [String.intercalate_cons_cons, String.toList_append, String.toList_append, List.append_assoc,
        hrest]
      simp [chars]

theorem exists_chars {lines : List String} (h : lines ≠ []) : ∃ body, chars lines = body ++ ['\n'] := by
  obtain ⟨init, last, rfl⟩ := (List.eq_nil_or_concat' lines).resolve_left h
  exact ⟨chars init ++ last.toList, by simp [chars]⟩

/-- The last line is what stands behind the last line feed but one. -/
theorem last_inj {lines lines' : List String} {last last' : String} (hlines : lines ≠ [])
    (hlines' : lines' ≠ []) (hlast : '\n' ∉ last.toList) (hlast' : '\n' ∉ last'.toList)
    (h : chars (lines ++ [last]) = chars (lines' ++ [last'])) :
    last = last' ∧ chars lines = chars lines' := by
  obtain ⟨body, hbody⟩ := exists_chars hlines
  obtain ⟨body', hbody'⟩ := exists_chars hlines'
  have hsingle : ∀ line, chars [line] = line.toList ++ ['\n'] := fun line => by simp [chars]
  have hreversed : ∀ {line : String}, '\n' ∉ line.toList → '\n' ∉ line.toList.reverse :=
    fun hline hmem => hline (List.mem_reverse.mp hmem)
  rw [chars_append, chars_append, hbody, hbody', hsingle, hsingle, ← List.append_assoc,
    ← List.append_assoc, List.append_left_inj] at h
  have hreverse := congrArg List.reverse h
  simp only [List.reverse_append, List.reverse_cons, List.reverse_nil, List.nil_append,
    List.singleton_append] at hreverse
  obtain ⟨hlast, hrest⟩ := append_separator_inj (hreversed hlast) (hreversed hlast') hreverse
  refine ⟨String.toList_inj.mp (List.reverse_inj.mp hlast), ?_⟩
  rw [hbody, hbody', List.reverse_inj.mp hrest]

/-- Lines without line feeds in them are read from the end. -/
theorem chars_inj {head head' lines lines' : List String} (hhead : head ≠ []) (hhead' : head' ≠ [])
    (hlines : ∀ line ∈ lines, '\n' ∉ line.toList) (hlines' : ∀ line ∈ lines', '\n' ∉ line.toList)
    (hlength : lines.length = lines'.length)
    (h : chars (head ++ lines) = chars (head' ++ lines')) :
    lines = lines' ∧ chars head = chars head' := by
  induction lines using List.reverseRecOn generalizing lines' with
  | nil =>
    obtain rfl := List.eq_nil_of_length_eq_zero hlength.symm
    rw [List.append_nil, List.append_nil] at h
    exact ⟨rfl, h⟩
  | append_singleton lines line ih =>
    obtain rfl | ⟨lines', line', rfl⟩ := List.eq_nil_or_concat' lines'
    · exact absurd hlength (by simp)
    rw [List.length_append, List.length_append] at hlength
    rw [← List.append_assoc, ← List.append_assoc] at h
    obtain ⟨rfl, hrest⟩ := last_inj (List.append_ne_nil_of_left_ne_nil hhead _)
      (List.append_ne_nil_of_left_ne_nil hhead' _) (hlines line (by simp))
      (hlines' line' (by simp)) h
    obtain ⟨rfl, hheads⟩ := ih (fun l hl => hlines l (List.mem_append_left _ hl))
      (fun l hl => hlines' l (List.mem_append_left _ hl)) (Nat.add_right_cancel hlength) hrest
    exact ⟨rfl, hheads⟩

end Writer

/-! ## Parts of a program -/

namespace Backend

variable {unit : CompiledUnit} {w : Writer}

theorem atMargin_writer (backend : Backend) : backend.writer.AtMargin := ⟨rfl, rfl⟩

/-- The lines of the banner. -/
def bannerLines (unit : CompiledUnit) (backend : Backend) : List String :=
  (banner unit backend).map ("// " ++ ·)

theorem adds_banner (unit : CompiledUnit) (backend : Backend) :
    backend.writer.Adds ((banner unit backend).foldl Writer.comment backend.writer)
      (bannerLines unit backend) := by
  have hlines := Writer.adds_foldl (f := Writer.comment) (fun _ text hw => Writer.adds_comment hw text)
    (atMargin_writer backend) (banner unit backend)
  rwa [← List.map_eq_flatMap] at hlines

theorem adds_header (unit : CompiledUnit) (backend : Backend) :
    backend.writer.Adds (header backend unit backend.writer)
      (bannerLines unit backend ++ backend.prelude) := by
  have hlines := (adds_banner unit backend).extend backend.prelude
  rwa [(atMargin_writer backend).depth_eq, Writer.map_indented_zero] at hlines

/-- An implementation text is written behind what is there. -/
theorem adds_implementation (backend : Backend) (type source : String) (hw : w.AtMargin) :
    w.Adds (implementation backend type source w)
      (implementation backend type source backend.writer).lines := by
  obtain ⟨lines, depth, mark⟩ := w
  obtain ⟨rfl, rfl⟩ := hw
  cases backend with
  | base => simp [Writer.Adds, implementation, Writer.comment, Writer.extend_eq, writer, Writer.start]
  | js =>
    simp [Writer.Adds, implementation, Writer.comment, Writer.extend_eq, writer, Writer.start,
      Writer.push, Writer.pop, Writer.line]
  | cpp =>
    simp [Writer.Adds, implementation, Writer.comment, Writer.extend_eq, writer, Writer.start,
      Writer.line]

/-- What stands before an implementation text. -/
def opening (backend : Backend) (type : String) : List String :=
  ("// " ++ ("impl: " ++ type)) ::
    match backend with
    | base => []
    | js => ["impl[" ++ Json.render none (.str type) ++ "] = (function () \x7b",
        "    const module = \x7b exports: \x7b\x7d \x7d;"]
    | cpp => ["namespace " ++ Text.programName type ++ " \x7b"]

/-- How deep an implementation text stands. -/
def textDepth : Backend → Int
  | base => 0
  | js => 1
  | cpp => 0

/-- What stands behind an implementation text. -/
def closing (backend : Backend) (type : String) : List String :=
  match backend with
  | base => []
  | js => ["    return module.exports;", "\x7d)();"]
  | cpp => ["\x7d // namespace " ++ Text.programName type]

/-- The lines of an implementation text, between those before and behind it. -/
theorem implementation_lines (backend : Backend) (type source : String) :
    (implementation backend type source backend.writer).lines = backend.opening type ++
      (Text.lines source).map (Writer.indented backend.textDepth) ++ backend.closing type := by
  have hcomment := (Writer.adds_comment (atMargin_writer backend) ("impl: " ++ type)).lines_eq
  have hdepth := (Writer.adds_comment (atMargin_writer backend) ("impl: " ++ type)).depth_eq
  have hstart : backend.writer.lines = [] := rfl
  have hmargin : backend.writer.depth = 0 := rfl
  rw [hstart, List.nil_append] at hcomment
  rw [hmargin] at hdepth
  unfold implementation
  generalize backend.writer.comment ("impl: " ++ type) = w at hcomment hdepth ⊢
  cases backend with
  | base => simp [Writer.extend_eq, hcomment, hdepth, opening, closing, textDepth]
  | js =>
    have hmodule : Writer.indented 1 "const module = \x7b exports: \x7b\x7d \x7d;" =
        "    const module = \x7b exports: \x7b\x7d \x7d;" := rfl
    have hreturn : Writer.indented 1 "return module.exports;" = "    return module.exports;" := rfl
    simp [Writer.extend_eq, Writer.push, Writer.pop, hcomment, hdepth, opening, closing, textDepth,
      Writer.indented_zero, hmodule, hreturn]
  | cpp =>
    simp [Writer.extend_eq, hcomment, hdepth, opening, closing, textDepth, Writer.indented_zero]

end Backend

namespace Program

open Backend

variable {unit : CompiledUnit} {w : Writer}

/-- The lines of an implementation text of a unit. -/
def templateLines (backend : Backend) (unit : CompiledUnit) (entry : String × String) :
    List String :=
  (backend.implementation entry.1 (Globals.splice unit.globals entry.2) backend.writer).lines

/-- The lines of the section of the implementation texts. -/
def implementationLines (backend : Backend) (unit : CompiledUnit) : List String :=
  if unit.templates.isEmpty then []
  else ("// " ++ sectionTitle "Implementations" 40) ::
    (sortedTemplates unit).flatMap fun entry => templateLines backend unit entry ++ [""]

theorem adds_implementations (backend : Backend) (unit : CompiledUnit) (hw : w.AtMargin) :
    w.Adds (implementations backend unit w) (implementationLines backend unit) := by
  unfold implementations implementationLines
  split
  · exact .refl w
  · have htitle := Writer.adds_comment hw (sectionTitle "Implementations" 40)
    refine htitle.trans (Writer.adds_foldl (fun w entry hw => ?_) (htitle.atMargin hw) _)
    exact (adds_implementation backend entry.1 _ hw).line ""

/-- The lines of a program up to the nodes. -/
def headLines (backend : Backend) (unit : CompiledUnit) : List String :=
  bannerLines unit backend ++ backend.prelude ++ [""] ++ implementationLines backend unit ++
    ["// " ++ sectionTitle "Nodes" 50]

theorem adds_head (backend : Backend) (unit : CompiledUnit) :
    backend.writer.Adds ((implementations backend unit
      (header backend unit backend.writer).blank).comment (sectionTitle "Nodes" 50))
      (headLines backend unit) := by
  have hheader := (adds_header unit backend).line ""
  have himplementations := hheader.trans
    (adds_implementations backend unit (hheader.atMargin (atMargin_writer backend)))
  exact himplementations.trans
    (Writer.adds_comment (himplementations.atMargin (atMargin_writer backend)) _)

/-- The line of a node. -/
def nodeLine (node : BoundNode) (text : String) : String :=
  "nodes[" ++ Text.Numeral.intText node.id ++ "] = " ++ text ++ ";"

/-- The line shows the node as a record. -/
def ShowsRecord (unit : CompiledUnit) (node : BoundNode) (line : String) : Prop :=
  ∃ text, record unit node = .ok text ∧ line = nodeLine node text

theorem lines_of_nodes {nodes : List BoundNode} {w' : Writer} (hw : w.depth = 0)
    (h : Program.nodes .js unit w nodes = .ok w') :
    ∃ lines, List.Forall₂ (ShowsRecord unit) nodes lines ∧
      w'.lines = w.lines ++ lines ∧ w'.depth = 0 := by
  induction nodes generalizing w with
  | nil =>
    obtain rfl := Except.ok.inj h
    exact ⟨[], .nil, (List.append_nil _).symm, hw⟩
  | cons node rest ih =>
    obtain ⟨next, hnext, h⟩ := bind_eq_ok.mp h
    simp only [Backend.node] at hnext
    split at hnext
    · exact absurd hnext (by simp)
    · next text htext =>
      obtain rfl := Except.ok.inj hnext
      obtain ⟨lines, hlines, heq, hdepth⟩ := @ih (w.line _) hw h
      refine ⟨_ :: lines, .cons ⟨text, htext, rfl⟩ hlines, ?_, hdepth⟩
      rw [heq, Writer.lines_line, hw, Writer.indented_zero, List.append_assoc]
      rfl

/-- The last lines of a JavaScript program: one for each node, and the exports. -/
theorem lines_of_written (h : written .js unit = .ok w) :
    ∃ head ordered lines, unit.orderedNodes = .ok ordered ∧
      List.Forall₂ (ShowsRecord unit) ordered lines ∧ head ≠ [] ∧
      w.lines = head ++ lines ++ exports unit := by
  unfold written at h
  dsimp only at h
  have hdepth := (adds_head .js unit).depth_eq
  split at h
  · exact absurd h (by simp)
  · next ordered hordered =>
    obtain ⟨w', hw', h⟩ := bind_eq_ok.mp h
    obtain ⟨lines, hlines, heq, hdepth'⟩ := lines_of_nodes hdepth hw'
    obtain rfl := Except.ok.inj h
    refine ⟨((implementations .js unit (header .js unit (writer .js)).blank).comment
      (sectionTitle "Nodes" 50)).lines, ordered, lines, hordered, hlines,
      List.append_ne_nil_of_right_ne_nil _ (List.cons_ne_nil _ _), ?_⟩
    rw [Writer.extend_eq, hdepth', heq, Writer.map_indented_zero]

theorem written_of_emitted {name : Value} {backend : Backend}
    (hname : Backend.ofValue name = .ok backend) {program : Program}
    (h : emit unit name = .ok program) :
    ∃ w, written backend unit = .ok w ∧ program.source = w.text ++ "\n" := by
  simp only [emit, hname, bind, Except.bind] at h
  split at h
  · exact absurd h (by simp)
  · next w hw =>
    obtain rfl := Except.ok.inj h
    exact ⟨w, hw, rfl⟩

theorem written_of_emit {program : Program} (h : emit unit (.str "js") = .ok program) :
    ∃ w, written .js unit = .ok w ∧ program.source = w.text ++ "\n" :=
  written_of_emitted rfl h

/-- How the text of a JavaScript program ends: with a line for each node, and the exports. -/
theorem source_eq {program : Program} (h : emit unit (.str "js") = .ok program) :
    ∃ head ordered lines, unit.orderedNodes = .ok ordered ∧
      List.Forall₂ (ShowsRecord unit) ordered lines ∧ head ≠ [] ∧
      program.source.toList = Writer.chars (head ++ lines ++ exports unit) := by
  obtain ⟨w, hw, hsource⟩ := written_of_emit h
  obtain ⟨head, ordered, lines, hordered, hlines, hhead, heq⟩ := lines_of_written hw
  refine ⟨head, ordered, lines, hordered, hlines, hhead, ?_⟩
  rw [hsource, ← heq]
  refine Writer.toList_text ?_
  rw [heq]
  exact List.append_ne_nil_of_left_ne_nil (List.append_ne_nil_of_left_ne_nil hhead _) _

end Program

end Patchbay
