import Mathlib
import Patchbay.Proofs.Label.Order
import Patchbay.Proofs.Program.Decoding
import Patchbay.Proofs.Program.Literal

/-!
# Texts inside comments and literals

A program takes three texts from the document that are not written as JSON: the name of the project,
the types with an implementation text, and the keys of error pins. The first two stand in comments
of one line, and the keys between quotes (`compileDocument_confined`). They are written as they
are. So a comment is one on all of its lines just where the text starts each of its own further
lines with the mark of a comment (`commented_append_iff`), and the literal denotes the key just
where no character of the key has a meaning of its own between quotes (`tracked_iff`). There are
documents for which the program leaves a comment and a literal (`compileDocument_unconfined`).
-/

namespace Patchbay

/-! ## Physical lines -/

namespace Text

/-- A character that ends a physical line. -/
def isLineEnd (c : Char) : Bool := c = '\n' || c = '\r'

/-- The physical lines of a text. -/
def physicalLines (text : String) : List (List Char) := text.toList.splitOnP isLineEnd

/-- A text without the end of a line in it. -/
def IsOneLine (text : String) : Prop := text.toList.any isLineEnd = false

instance (text : String) : Decidable (IsOneLine text) :=
  inferInstanceAs (Decidable (text.toList.any isLineEnd = false))

/-- Every physical line starts with the mark of a comment. -/
def Commented (text : String) : Prop := ∀ line ∈ physicalLines text, ['/', '/'] <+: line

/-- Every physical line but the first one starts with the mark of a comment. -/
def ContinuesComment (text : String) : Prop :=
  ∀ line ∈ (physicalLines text).tail, ['/', '/'] <+: line

variable {start text : String}

theorem isOneLine_iff_forall : IsOneLine text ↔ ∀ c ∈ text.toList, isLineEnd c = false := by
  simp [IsOneLine]

theorem IsOneLine.append (h : IsOneLine start) (h' : IsOneLine text) :
    IsOneLine (start ++ text) := by
  unfold IsOneLine at *
  rw [String.toList_append, List.any_append, h, h', Bool.or_false]

theorem physicalLines_of_isOneLine (h : IsOneLine text) : physicalLines text = [text.toList] :=
  List.splitOnP_eq_singleton (isOneLine_iff_forall.mp h)

/-- A text is one physical line just where no character of it ends a line. -/
theorem isOneLine_iff : IsOneLine text ↔ (physicalLines text).length = 1 := by
  refine ⟨fun h => congrArg List.length (physicalLines_of_isOneLine h), fun h => ?_⟩
  by_contra hend
  rw [IsOneLine, Bool.not_eq_false, List.any_eq_true] at hend
  obtain ⟨c, hc, hend⟩ := hend
  obtain ⟨before, after, hsplit⟩ := List.append_of_mem hc
  have hbefore := List.length_pos_of_ne_nil (List.splitOnP_ne_nil isLineEnd before)
  have hafter := List.length_pos_of_ne_nil (List.splitOnP_ne_nil isLineEnd after)
  rw [physicalLines, hsplit, List.splitOnP_append_cons _ _ hend, List.length_append] at h
  omega

/-- What stands on one line belongs to the first line of the text behind it. -/
theorem physicalLines_append (h : IsOneLine start) (text : String) :
    physicalLines (start ++ text) = (physicalLines text).modifyHead (start.toList ++ ·) := by
  have hchars := isOneLine_iff_forall.mp h
  unfold physicalLines
  rw [String.toList_append]
  generalize start.toList = before at hchars ⊢
  induction before with
  | nil => exact (congrFun List.modifyHead_id _).symm
  | cons c rest ih =>
    rw [List.cons_append, List.splitOnP_cons_eq_if_modifyHead, hchars c List.mem_cons_self,
      ih fun d hd => hchars d (List.mem_cons_of_mem _ hd), if_neg (by decide),
      List.modifyHead_modifyHead]
    rfl

theorem physicalLines_feed (text rest : String) :
    physicalLines (text ++ "\n" ++ rest) = physicalLines text ++ physicalLines rest := by
  unfold physicalLines
  rw [String.toList_append, String.toList_append, List.append_assoc]
  exact List.splitOnP_append_cons _ _ (by decide)

/-! ## Comments -/

theorem continuesComment_of_isOneLine (h : IsOneLine text) : ContinuesComment text := by
  unfold ContinuesComment
  rw [physicalLines_of_isOneLine h]
  exact fun line hline => absurd hline List.not_mem_nil

theorem continuesComment_append_iff (h : IsOneLine start) (text : String) :
    ContinuesComment (start ++ text) ↔ ContinuesComment text := by
  unfold ContinuesComment
  rw [physicalLines_append h, List.tail_modifyHead]

/-- A comment goes on as one just where the text in it does. -/
theorem commented_append_iff (h : IsOneLine start) (hmark : ['/', '/'] <+: start.toList)
    (text : String) : Commented (start ++ text) ↔ ContinuesComment text := by
  unfold Commented ContinuesComment
  rw [physicalLines_append h]
  obtain ⟨first, rest, hlines⟩ :=
    List.exists_cons_of_ne_nil (List.splitOnP_ne_nil isLineEnd text.toList)
  have hfirst : ['/', '/'] <+: start.toList ++ first := hmark.trans (List.prefix_append _ _)
  rw [show physicalLines text = first :: rest from hlines, List.modifyHead_cons, List.tail_cons,
    List.forall_mem_cons]
  exact and_iff_right hfirst

theorem commented_intercalate_iff {texts : List String} (h : texts ≠ []) :
    Commented ("\n".intercalate texts) ↔ ∀ text ∈ texts, Commented text := by
  induction texts with
  | nil => exact absurd rfl h
  | cons text rest ih =>
    cases rest with
    | nil => simp
    | cons next rest =>
      rw [String.intercalate_cons_cons, List.forall_mem_cons, ← ih (List.cons_ne_nil _ _)]
      unfold Commented
      rw [physicalLines_feed]
      exact List.forall_mem_append

end Text

namespace Backend

open Text

variable {unit : CompiledUnit} {backend : Backend} {w w' : Writer} {node : BoundNode}

theorem isLineEnd_of_isAsciiDigit {c : Char} (h : Numeral.isAsciiDigit c = true) :
    isLineEnd c = false := by
  by_contra hend
  rw [Bool.not_eq_false, isLineEnd, Bool.or_eq_true, decide_eq_true_eq, decide_eq_true_eq] at hend
  rcases hend with rfl | rfl
  · exact absurd h (by decide)
  · exact absurd h (by decide)

theorem isOneLine_natText (n : Nat) : IsOneLine (Numeral.natText n) := by
  refine isOneLine_iff_forall.mpr fun c hc => ?_
  rw [Numeral.natText, String.toList_ofList] at hc
  exact isLineEnd_of_isAsciiDigit (Numeral.mem_digits hc)

theorem isOneLine_intText (n : Int) : IsOneLine (Numeral.intText n) := by
  refine isOneLine_iff_forall.mpr fun c hc => ?_
  rcases Numeral.mem_intText hc with rfl | hc
  · decide
  · exact isLineEnd_of_isAsciiDigit hc

/-! ## The banner -/

/-- The name of the project, if the banner has it, keeps to the comment. -/
def NameContinues (unit : CompiledUnit) : Prop :=
  ∀ name, Table.get? unit.globals projectName = some name → name.isGiven = true →
    ContinuesComment name.display

/-- A comment is one on all of its lines just where the text in it keeps to it. -/
theorem commented_iff (text : String) : Commented ("// " ++ text) ↔ ContinuesComment text :=
  commented_append_iff (by decide) (by decide) text

theorem continuesComment_generated (backend : Backend) :
    ContinuesComment ("Generated by patchflow (" ++ backend.name ++ " backend).") := by
  refine continuesComment_of_isOneLine ?_
  cases backend with
  | base | js | cpp => decide +kernel

/-- The banner is a comment on all of its lines just where the name of the project keeps to it. -/
theorem commented_banner_iff (backend : Backend) (hliveness : IsOneLine unit.liveness) :
    Commented ("\n".intercalate (bannerLines unit backend)) ↔ NameContinues unit := by
  have hadvice : ContinuesComment "Do not edit by hand; re-run the compiler to regenerate." :=
    continuesComment_of_isOneLine (by decide +kernel)
  have hmode : ContinuesComment ("Liveness: " ++ unit.liveness) :=
    continuesComment_of_isOneLine (IsOneLine.append (by decide) hliveness)
  have hcount : ContinuesComment ("Nodes: " ++ Numeral.natText unit.topology.length) :=
    continuesComment_of_isOneLine (IsOneLine.append (by decide) (isOneLine_natText _))
  have hname : ∀ text, ContinuesComment ("Project: " ++ text) ↔ ContinuesComment text :=
    continuesComment_append_iff (by decide)
  rw [commented_intercalate_iff (by simp [bannerLines, banner])]
  simp only [bannerLines, List.forall_mem_map, commented_iff, banner, List.forall_mem_append,
    List.forall_mem_cons, continuesComment_generated, hadvice, hmode, hcount, NameContinues]
  cases Table.get? unit.globals projectName with
  | none => simp
  | some name => by_cases hgiven : name.isGiven = true <;> simp [hgiven, hname]

/-! ## Implementation texts -/

/-- The first line of an implementation text is the comment with its type. -/
theorem implementation_eq_cons (backend : Backend) (type source : String) :
    ∃ more, (implementation backend type source backend.writer).lines =
      ("// " ++ ("impl: " ++ type)) :: more :=
  ⟨_, implementation_lines backend type source⟩

theorem commented_type_iff (type : String) :
    Commented ("// " ++ ("impl: " ++ type)) ↔ ContinuesComment type :=
  (commented_iff _).trans (continuesComment_append_iff (by decide) type)

/-! ## Error pins -/

/-- The line tracks the pin: it is one line, and its literal denotes the key. -/
def Tracks (node : BoundNode) (pin : Label) (line : String) : Prop :=
  IsOneLine line ∧ ∃ body, line.toList =
      ("detail::trackError(&" ++ instanceName node ++ ", \"").toList ++ body ++ "\");".toList ∧
    Literal.Denotes body (Literal.bytes pin.display.toList)

theorem isLineEnd_of_isPlain {c : Char} (h : Literal.IsPlain c) : isLineEnd c = false := by
  simp [isLineEnd, h.not_feed, h.not_return]

/-- The statement for a pin tracks it just where every character of the key stands for itself
between quotes. -/
theorem tracks_iff (node : BoundNode) (pin : Label) :
    Tracks node pin (trackStatement node pin) ↔ ∀ c ∈ pin.display.toList, Literal.IsPlain c := by
  have hstatement : (trackStatement node pin).toList =
      ("detail::trackError(&" ++ instanceName node ++ ", \"").toList ++ pin.display.toList ++
        "\");".toList := by
    unfold trackStatement
    rw [String.toList_append, String.toList_append]
  rw [← Literal.denotes_self_iff]
  constructor
  · rintro ⟨_, body, hbody, hdenotes⟩
    rw [hstatement, List.append_left_inj, List.append_right_inj] at hbody
    rwa [← hbody] at hdenotes
  · intro hdenotes
    refine ⟨?_, _, hstatement, hdenotes⟩
    have hkey : IsOneLine pin.display := isOneLine_iff_forall.mpr fun c hc =>
      isLineEnd_of_isPlain ((Literal.denotes_self_iff _).mp hdenotes c hc)
    have hname : IsOneLine (instanceName node) := .append (by decide) (isOneLine_intText _)
    exact ((((IsOneLine.append (by decide) hname).append (by decide)).append hkey).append
      (by decide))

/-- The lines that track the error pins of a node, in the debugging and the simulating build. -/
def trackingLines (node : BoundNode) (pins : List Label) : List String :=
  if pins.isEmpty then []
  else "#if defined(PATCHFLOW_DEBUG) || defined(PATCHFLOW_SIMULATION)" ::
    (pins.map (trackStatement node) ++ ["#endif"])

/-- The call that evaluates a node. -/
def evaluation (node : BoundNode) : String :=
  programName node.type ++ "::evaluate(&" ++ instanceName node ++ ");"

/-- The lines that evaluate a node: they track each of its error pins, and call it. -/
def Evaluates (unit : CompiledUnit) (node : BoundNode) (lines : List String) : Prop :=
  ∃ pins, pins.Perm (unit.errorPins node.id) ∧
    lines = trackingLines node pins ++ [evaluation node]

theorem adds_evaluations {nodes : List BoundNode} (h : evaluations unit w nodes = .ok w') :
    ∃ blocks, List.Forall₂ (Evaluates unit) nodes blocks ∧
      w.Adds w' (blocks.flatten.map (Writer.indented w.depth)) := by
  induction nodes generalizing w with
  | nil =>
    obtain rfl := Except.ok.inj h
    exact ⟨[], .nil, .refl w⟩
  | cons node rest ih =>
    have hnode : ∃ pins w₁, pins.Perm (unit.errorPins node.id) ∧
        w.Adds w₁ ((trackingLines node pins).map (Writer.indented w.depth)) ∧
        evaluations unit (w₁.line (evaluation node)) rest = .ok w' := by
      unfold evaluations at h
      dsimp only at h
      split at h
      · next hempty => exact ⟨[], w, .of_eq (List.isEmpty_iff.mp hempty).symm, .refl w, h⟩
      · next hsome =>
        split at h
        · exact absurd h (by simp)
        · next pins hpins =>
          have hperm := Label.perm_of_sortOn hpins
          have hne : pins.isEmpty = false := by
            rw [hperm.isEmpty_eq]
            simpa using hsome
          refine ⟨pins, _, hperm, ?_, h⟩
          rw [trackingLines, hne, if_neg (by decide), List.map_cons, List.map_append]
          exact (((Writer.Adds.refl w).line _).extend _).line _
    obtain ⟨pins, w₁, hperm, hpins, h⟩ := hnode
    obtain ⟨blocks, hblocks, hrest⟩ := ih h
    have hall := (hpins.line (evaluation node)).trans hrest
    rw [(hpins.line (evaluation node)).depth_eq] at hall
    refine ⟨(trackingLines node pins ++ [evaluation node]) :: blocks,
      .cons ⟨pins, hperm, rfl⟩ hblocks, ?_⟩
    rwa [List.flatten_cons, List.map_append, List.map_append]

/-- The foot of a C++ program, with a block of lines for each node. -/
def footLines (blocks : List (List String)) : List String :=
  ["", "void runTransaction() \x7b"] ++ blocks.flatten.map (Writer.indented 1) ++
    ["\x7d", "", "\x7d // namespace patchflow"]

theorem lines_of_footer (hw : w.AtMargin) (h : footer .cpp unit w = .ok w') :
    ∃ ordered blocks, unit.orderedNodes = .ok ordered ∧
      List.Forall₂ (Evaluates unit) ordered blocks ∧ w'.lines = w.lines ++ footLines blocks := by
  simp only [footer] at h
  split at h
  · exact absurd h (by simp)
  · next ordered hordered =>
    obtain ⟨last, hlast, rfl⟩ := map_eq_ok.mp h
    obtain ⟨blocks, hblocks, hadds⟩ := adds_evaluations hlast
    obtain ⟨lines, depth, mark⟩ := w
    obtain ⟨rfl, rfl⟩ := hw
    refine ⟨ordered, blocks, hordered, hblocks, ?_⟩
    rw [Writer.Adds.eq_def] at hadds
    rw [hadds]
    simp [footLines, Writer.extend_eq, Writer.push, Writer.pop, Writer.blank, Writer.indented_zero]

theorem exists_of_footer (h : footer backend unit w = .ok w') (hw : w.AtMargin) :
    ∃ more, w'.lines = w.lines ++ more := by
  cases backend with
  | base =>
    obtain rfl := Except.ok.inj h
    exact ⟨[], (List.append_nil _).symm⟩
  | js =>
    obtain rfl := Except.ok.inj h
    exact ⟨_, ((Writer.Adds.refl w).extend _).lines_eq⟩
  | cpp =>
    obtain ⟨_, blocks, _, _, hlines⟩ := lines_of_footer hw h
    exact ⟨_, hlines⟩

theorem adds_node (h : Backend.node backend unit node w = .ok w') : ∃ more, w.Adds w' more := by
  cases backend with
  | base | cpp =>
    obtain rfl := Except.ok.inj h
    exact ⟨_, (Writer.Adds.refl w).line _⟩
  | js =>
    simp only [Backend.node] at h
    split at h
    · exact absurd h (by simp)
    · obtain rfl := Except.ok.inj h
      exact ⟨_, (Writer.Adds.refl w).line _⟩

end Backend

namespace Program

open Backend Text

variable {unit : CompiledUnit} {backend : Backend} {w w' : Writer}

theorem adds_nodes {nodes : List BoundNode} (h : Program.nodes backend unit w nodes = .ok w') :
    ∃ more, w.Adds w' more := by
  induction nodes generalizing w with
  | nil =>
    obtain rfl := Except.ok.inj h
    exact ⟨[], .refl w⟩
  | cons node rest ih =>
    obtain ⟨next, hnext, h⟩ := bind_eq_ok.mp h
    obtain ⟨line, hline⟩ := adds_node hnext
    obtain ⟨more, hmore⟩ := ih h
    exact ⟨_, hline.trans hmore⟩

/-- The lines of an implementation text stand together. -/
theorem templateLines_within (backend : Backend) {entry : String × String}
    (h : entry ∈ unit.templates) :
    templateLines backend unit entry <:+: implementationLines backend unit := by
  have hentry : entry ∈ sortedTemplates unit := (List.mergeSort_perm _ _).mem_iff.mpr h
  have hsome : unit.templates.isEmpty = false :=
    List.isEmpty_eq_false_iff.mpr (List.ne_nil_of_mem h)
  obtain ⟨before, after, hsplit⟩ := List.append_of_mem hentry
  rw [implementationLines, hsome, if_neg (by decide), hsplit, List.flatMap_append,
    List.flatMap_cons]
  refine List.IsInfix.trans ?_ (List.suffix_cons _ _).isInfix
  rw [List.append_assoc]
  exact List.infix_append' _ _ _

/-- The comment with the type of an implementation text is a line of its own. -/
theorem comment_mem_headLines (backend : Backend) {entry : String × String}
    (h : entry ∈ unit.templates) : "// " ++ ("impl: " ++ entry.1) ∈ headLines backend unit := by
  obtain ⟨more, hmore⟩ :=
    implementation_eq_cons backend entry.1 (Globals.splice unit.globals entry.2)
  have hline : "// " ++ ("impl: " ++ entry.1) ∈ templateLines backend unit entry := by
    rw [templateLines, hmore]
    exact List.mem_cons_self
  exact List.mem_append_left _
    (List.mem_append_right _ ((templateLines_within backend h).subset hline))

/-- A program is its head, what the nodes add, and what the foot adds. -/
theorem footer_of_written (h : written backend unit = .ok w) :
    ∃ w' middle, w'.AtMargin ∧ w'.lines = headLines backend unit ++ middle ∧
      footer backend unit w' = .ok w := by
  unfold written at h
  dsimp only at h
  split at h
  · exact absurd h (by simp)
  · obtain ⟨w', hw', h⟩ := bind_eq_ok.mp h
    obtain ⟨middle, hmiddle⟩ := adds_nodes hw'
    have hadds := (adds_head backend unit).trans hmiddle
    exact ⟨w', middle, hadds.atMargin (atMargin_writer backend), hadds.lines_eq, h⟩

theorem exists_of_written (h : written backend unit = .ok w) :
    ∃ more, w.lines = headLines backend unit ++ more := by
  obtain ⟨w', middle, hmargin, hlines, h⟩ := footer_of_written h
  obtain ⟨more, hmore⟩ := exists_of_footer h hmargin
  exact ⟨middle ++ more, by rw [hmore, hlines, List.append_assoc]⟩

end Program

/-! ## Texts of a program -/

/-- Where the texts of the document stand in the lines of a program, and which of them keep to their
places. -/
structure CompiledUnit.Confined (unit : CompiledUnit) (backend : Backend) (lines : List String) :
    Prop where
  banner_lines : Backend.bannerLines unit backend <+: lines
  /-- The banner is a comment just where the name of the project goes on as one. -/
  banner : Text.Commented ("\n".intercalate (Backend.bannerLines unit backend)) ↔
    Backend.NameContinues unit
  type_lines : ∀ entry ∈ unit.templates, "// " ++ ("impl: " ++ entry.1) ∈ lines
  /-- So is the line with a type just where the type goes on as a comment. -/
  types : ∀ entry ∈ unit.templates,
    Text.Commented ("// " ++ ("impl: " ++ entry.1)) ↔ Text.ContinuesComment entry.1
  pin_lines : backend = .cpp → ∃ ordered blocks, unit.orderedNodes = .ok ordered ∧
    List.Forall₂ (Backend.Evaluates unit) ordered blocks ∧ Backend.footLines blocks <:+ lines
  /-- A pin is tracked just where each character of the key stands for itself between quotes. -/
  pins : ∀ node ∈ unit.nodes, ∀ pin ∈ unit.errorPins node.id,
    Backend.Tracks node pin (Backend.trackStatement node pin) ↔
      ∀ c ∈ pin.display.toList, Literal.IsPlain c

theorem Program.confined_of_written {unit : CompiledUnit} {backend : Backend} {w : Writer}
    (hliveness : Text.IsOneLine unit.liveness) (h : written backend unit = .ok w) :
    unit.Confined backend w.lines := by
  obtain ⟨more, hmore⟩ := exists_of_written h
  refine ⟨?_, Backend.commented_banner_iff backend hliveness, fun entry hentry => ?_,
    fun entry _ => Backend.commented_type_iff entry.1, ?_,
    fun node _ pin _ => Backend.tracks_iff node pin⟩
  · rw [hmore]
    unfold headLines
    simp only [List.append_assoc]
    exact List.prefix_append _ _
  · rw [hmore]
    exact List.mem_append_left _ (comment_mem_headLines backend hentry)
  · rintro rfl
    obtain ⟨w', middle, hmargin, _, h⟩ := footer_of_written h
    obtain ⟨ordered, blocks, hordered, hblocks, hfoot⟩ := Backend.lines_of_footer hmargin h
    exact ⟨ordered, blocks, hordered, hblocks, w'.lines, hfoot.symm⟩

theorem Liveness.isOneLine_name (mode : Liveness) : Text.IsOneLine mode.name := by
  cases mode <;> decide

/-! ### A key with a quote in it, and names with a line feed -/

namespace Bell

/-- A node of a type that raises errors, with the pin of the key. -/
def document : Value :=
  .obj [
    ("patches", .obj [("@/main", .obj [("nodes", .obj [
      ("1", .obj [("type", .str "siren\nbell")])])])]),
    ("nodeTypes", .obj [("siren\nbell", .obj [("raises", .bool true),
      ("pins", .obj [("a\"b", .obj [("direction", .str "output")])]),
      ("impl", .obj [("cpp", .str "struct Node;")])])])]

def request : Request :=
  ⟨.str "@/main", .str "debug", .obj [("PROJECT_NAME", .str "two\nlines")], false⟩

def node : BoundNode := ⟨1, "siren\nbell", false, [], [], []⟩

def unit : CompiledUnit where
  nodes := [node]
  topology := [1]
  templates := [("siren\nbell", "struct Node;")]
  debugIds := [(1, "1")]
  affected := [(1, [.text "a\"b"])]
  liveness := "debug"
  globals := [(.text "PROJECT_NAME", .str "two\nlines")]

theorem compileDocument_document :
    request.compileDocument (.arr [.str "cpp"]) document = .ok unit := by
  cbv

theorem emit_unit : ∃ program, Program.emit unit (.str "cpp") = .ok program := by
  have hpins : ∀ pin ∈ Document.declaredPins document, Document.GivesTextKey pin := by
    intro pin hpin
    obtain rfl := List.mem_singleton.mp hpin
    exact fun key hkey => absurd (show none = some key from hkey) (by simp)
  have hcpp : Backend.ofValue (.str "cpp") = .ok .cpp := rfl
  exact Program.emit_eq_ok
    (CompiledUnit.reliable_of_compileDocument hpins compileDocument_document).1 hcpp

end Bell

/-- The texts of the document that stand in comments and literals of a program: each of them is one
of its lines, and keeps to its place just where its characters allow that. -/
theorem Request.compileDocument_confined {request : Request} {backends document name : Value}
    {unit : CompiledUnit} {backend : Backend} {program : Program}
    (h : request.compileDocument backends document = .ok unit)
    (hname : Backend.ofValue name = .ok backend) (hemit : Program.emit unit name = .ok program) :
    ∃ lines, program.source.toList = Writer.chars lines ∧ unit.Confined backend lines := by
  obtain ⟨⟨mode, hmode⟩, _⟩ := Request.parameters_of_compileDocument h
  obtain ⟨w, hw, hsource⟩ := Program.written_of_emitted hname hemit
  have hconfined := Program.confined_of_written (hmode ▸ mode.isOneLine_name) hw
  refine ⟨w.lines, ?_, hconfined⟩
  have hne : w.lines ≠ [] :=
    hconfined.banner_lines.ne_nil (by simp [Backend.bannerLines, Backend.banner])
  rw [hsource]
  exact Writer.toList_text hne

theorem Request.compileDocument_confined_bell :
    Bell.request.compileDocument (.arr [.str "cpp"]) Bell.document = .ok Bell.unit ∧
      Backend.ofValue (.str "cpp") = .ok .cpp ∧
      ∃ program, Program.emit Bell.unit (.str "cpp") = .ok program ∧
        ∃ lines, program.source.toList = Writer.chars lines ∧ Bell.unit.Confined .cpp lines := by
  obtain ⟨program, hemit⟩ := Bell.emit_unit
  exact ⟨Bell.compileDocument_document, rfl, program, hemit,
    compileDocument_confined Bell.compileDocument_document rfl hemit⟩

/-- A name of the project, a type and a key that do not keep to their places: the program has a line
of the banner and one before an implementation text that are no comments, and a literal that does
not denote the key. -/
theorem Request.compileDocument_unconfined :
    Bell.request.compileDocument (.arr [.str "cpp"]) Bell.document = .ok Bell.unit ∧
      (∃ program, Program.emit Bell.unit (.str "cpp") = .ok program) ∧
      ¬ Text.Commented ("\n".intercalate (Backend.bannerLines Bell.unit .cpp)) ∧
      ("siren\nbell", "struct Node;") ∈ Bell.unit.templates ∧
      ¬ Text.Commented ("// " ++ ("impl: " ++ "siren\nbell")) ∧
      Bell.node ∈ Bell.unit.nodes ∧ .text "a\"b" ∈ Bell.unit.errorPins Bell.node.id ∧
      ¬ Backend.Tracks Bell.node (.text "a\"b")
        (Backend.trackStatement Bell.node (.text "a\"b")) := by
  refine ⟨Bell.compileDocument_document, Bell.emit_unit, ?_, List.mem_cons_self, ?_,
    List.mem_cons_self, List.mem_cons_self, ?_⟩
  · rw [Backend.commented_banner_iff .cpp (by decide)]
    intro hname
    have hcontinues := hname (.str "two\nlines") rfl rfl
    exact absurd (hcontinues "lines".toList (by decide)) (by decide)
  · rw [Backend.commented_type_iff]
    exact fun hcontinues => absurd (hcontinues "bell".toList (by decide)) (by decide)
  · rw [Backend.tracks_iff]
    exact fun hplain => (hplain '"' (by decide)).not_quote rfl

end Patchbay
