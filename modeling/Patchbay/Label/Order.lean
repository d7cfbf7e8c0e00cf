import Patchbay.Label
import Patchbay.Label.Stepwise

/-!
# The order of labels

Texts are ordered by code points and numbers by size; labels of different kinds have no order, nor
has null one with itself, and "not a number" is before nothing. Labels that all are texts, or all
are numbers, have one ascending order; any others are sorted step by step.
-/

namespace Patchbay.Label

/-- What a label is compared as. -/
inductive Family where
  | null
  | number
  | text
  deriving DecidableEq

/-- The family of a label. -/
def family : Label → Family
  | null => .null
  | bool _ | int _ | float _ => .number
  | text _ => .text

/-- A number that is one. -/
def isNumber : Label → Bool
  | float x => !x.isNaN
  | a => a.family = .number

/-- A finite number as a signed fraction. -/
def fraction : Label → Int × Nat
  | float x => x.signedFraction
  | a => (a.whole?.getD 0, 1)

/-- Where a number lies: with the finite ones, or with the infinity of a sign beyond them. -/
def reach : Label → Int
  | float x => if x.isFinite then 0 else if x.negative then -1 else 1
  | _ => 0

/-- The order of labels of one family: texts by code points, numbers by size. -/
def le (a b : Label) : Bool :=
  match a, b with
  | text s, text t => Text.le s t
  | a, b =>
    if a.reach = 0 ∧ b.reach = 0 then
      decide (a.fraction.1 * b.fraction.2 ≤ b.fraction.1 * a.fraction.2)
    else decide (a.reach ≤ b.reach)

/-- Whether a label comes before another. -/
def before (a b : Label) : Except Fault Bool :=
  if a.family = b.family ∧ a.family ≠ .null then
    .ok ((a.family = .text || a.isNumber && b.isNumber) && !b.le a)
  else .error (.unordered a.toValue.kindName b.toValue.kindName)

/-- Whether all labels are texts, or all are numbers. -/
def areAlike (labels : List Label) : Bool :=
  labels.all (·.family = .text) || labels.all isNumber

/-- The entries in ascending order of their labels, if these can be compared. -/
def sortOn {α : Type} (label : α → Label) (entries : List α) : Except Fault (List α) :=
  if areAlike (entries.map label) then .ok (entries.mergeSort fun x y => le (label x) (label y))
  else Stepwise.sort (fun x y => before (label x) (label y)) entries

end Patchbay.Label
