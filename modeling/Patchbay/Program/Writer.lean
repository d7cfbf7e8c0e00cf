/-!
# Writers

A program text under construction: its lines, and how deep the next one is indented. A line keeps
the breaks that are in it, and only its start is indented; an empty line is not indented.
-/

namespace Patchbay

/-- The lines of a program written so far. -/
structure Writer where
  lines : List String
  /-- The steps by which the next line is indented; below zero counts as none. -/
  depth : Int
  /-- What starts a comment. -/
  mark : String
  deriving Inhabited

namespace Writer

/-- A writer without lines. -/
def start (depth : Int) (mark : String) : Writer := ⟨[], depth, mark⟩

/-- The spaces of one step of indentation. -/
def stepWidth : Nat := 4

/-- A line with its indentation. -/
def indented (depth : Int) (line : String) : String :=
  if line.isEmpty then "" else String.ofList (List.replicate (stepWidth * depth.toNat) ' ') ++ line

/-- The writer with one more line. -/
def line (w : Writer) (text : String) : Writer :=
  { w with lines := w.lines ++ [indented w.depth text] }

/-- The writer with an empty line. -/
def blank (w : Writer) : Writer := w.line ""

/-- The writer with a comment. -/
def comment (w : Writer) (text : String) : Writer := w.line (w.mark ++ " " ++ text)

/-- The writer with more lines. -/
def extend (w : Writer) (texts : List String) : Writer := texts.foldl line w

/-- The writer, one step further in. -/
def push (w : Writer) : Writer := { w with depth := w.depth + 1 }

/-- The writer, one step further out, but not to the left of the margin. -/
def pop (w : Writer) : Writer := { w with depth := max 0 (w.depth - 1) }

/-- The text of the lines, with a line feed between any two. -/
def text (w : Writer) : String := "\n".intercalate w.lines

/-! ## What the operations add -/

@[simp] theorem lines_line (w : Writer) (text : String) :
    (w.line text).lines = w.lines ++ [indented w.depth text] := rfl

@[simp] theorem depth_line (w : Writer) (text : String) : (w.line text).depth = w.depth := rfl

@[simp] theorem mark_line (w : Writer) (text : String) : (w.line text).mark = w.mark := rfl

theorem extend_eq (w : Writer) (texts : List String) :
    w.extend texts = { w with lines := w.lines ++ texts.map (indented w.depth) } := by
  induction texts generalizing w with
  | nil => simp [extend]
  | cons text rest ih =>
    have := ih (w.line text)
    simp only [extend, List.foldl_cons] at this ⊢
    rw [this]
    simp [line]

end Writer

end Patchbay
