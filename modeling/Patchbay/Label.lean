import Patchbay.Fault

/-!
# Labels

A label is a value that can be a key: a text, a number, a truth value or null. Two numbers that
are equal are one key, also across whole numbers, floating-point numbers and truth values, so that
labels are compared by `Label.same` and not by equality. Pins are keyed by labels, which are texts
unless the catalog gives a pin another key.
-/

namespace Patchbay

/-- A value that can be a key. -/
inductive Label where
  | null
  | bool (b : Bool)
  | int (n : Int)
  | float (x : Binary64)
  | text (s : String)
  deriving DecidableEq, Inhabited

namespace Label

/-- The label as a value. -/
def toValue : Label → Value
  | null => .null
  | bool b => .bool b
  | int n => .int n
  | float x => .float x
  | text s => .str s

/-- The value as a label; an array or object is none. -/
def ofValue : Value → Except Fault Label
  | .null => .ok .null
  | .bool b => .ok (.bool b)
  | .int n => .ok (.int n)
  | .float x => .ok (.float x)
  | .str s => .ok (.text s)
  | .arr items => .error (.unusableKey (Value.arr items).kindName)
  | .obj members => .error (.unusableKey (Value.obj members).kindName)

/-- The whole number that a truth value or whole number counts as. -/
def whole? : Label → Option Int
  | bool b => some (if b then 1 else 0)
  | int n => some n
  | _ => none

/-- Whether two labels are one key. -/
def same (a b : Label) : Bool :=
  match a, b with
  | float x, float y => x = y || (x.magnitude = 0 && y.magnitude = 0)
  | float x, b => match b.whole? with
    | some n => x.equalsInt n
    | none => false
  | a, float y => match a.whole? with
    | some n => y.equalsInt n
    | none => false
  | a, b => match a.whole?, b.whole? with
    | some m, some n => m = n
    | none, none => a = b
    | _, _ => false

@[simp] theorem same_text (s t : String) : same (.text s) (.text t) = decide (s = t) := by
  simp [same, whole?]

/-! ## Texts -/

/-- The label as a message writes it. -/
def display (a : Label) : String := a.toValue.display

/-- Numbers as keys: no exponent part from `1e-4` up to below `1e16`. -/
def keyLayout : Layout := ⟨-4, 16, "NaN", "Infinity"⟩

/-- The label as the key of a JSON object. -/
def keyText : Label → String
  | null => "null"
  | bool b => if b then "true" else "false"
  | int n => Text.Numeral.intText n
  | float x => keyLayout.text x
  | text s => s

/-- The label as the key of an object in an answer: a number without digits is spelled as null. -/
def sentText : Label → String
  | null => "None"
  | bool b => if b then "true" else "false"
  | int n => Text.Numeral.intText n
  | float x => if x.isFinite then keyLayout.text x else "None"
  | text s => s

end Label

end Patchbay
