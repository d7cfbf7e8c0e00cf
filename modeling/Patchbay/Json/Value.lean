import Patchbay.Decimal.Shortest
import Patchbay.Text.CodePoint

/-!
# Document values

What a JSON document holds. Whole numbers are exact, numbers written with a point or an exponent
are binary floating-point numbers, and the members of an object keep the order of the document,
each key once.
-/

namespace Patchbay

/-- A value of a document. -/
inductive Value where
  | null
  | bool (b : Bool)
  | int (n : Int)
  | float (x : Binary64)
  | str (s : String)
  | arr (items : List Value)
  | obj (members : List (String × Value))
  deriving Inhabited

/-- The members of an object, keyed by text. -/
abbrev Members := List (String × Value)

namespace Members

/-- The members with `key` set: a key that is there keeps its place. -/
def put (key : String) (value : Value) : Members → Members
  | [] => [(key, value)]
  | (k, v) :: rest => if k = key then (k, value) :: rest else (k, v) :: put key value rest

/-- The members whose keys ascend by code points. -/
def sorted (members : Members) : Members :=
  members.mergeSort fun a b => Text.le a.1 b.1

end Members

namespace Value

/-- The value of a key, in an object that has it. -/
def member? (key : String) : Value → Option Value
  | .obj members => members.lookup key
  | _ => none

/-- The members of an object. -/
def members? : Value → Option Members
  | .obj members => some members
  | _ => none

/-- The items of an array. -/
def items? : Value → Option (List Value)
  | .arr items => some items
  | _ => none

/-- The text of a text value. -/
def text? : Value → Option String
  | .str s => some s
  | _ => none

/-- The truth value of a truth value. -/
def bool? : Value → Option Bool
  | .bool b => some b
  | _ => none

/-- The number of a whole-number value. -/
def int? : Value → Option Int
  | .int n => some n
  | _ => none

/-- Whether a value counts as given: neither null, false, zero nor empty. -/
def isGiven : Value → Bool
  | .null => false
  | .bool b => b
  | .int n => n != 0
  | .float x => x.magnitude != 0
  | .str s => !s.isEmpty
  | .arr items => !items.isEmpty
  | .obj members => !members.isEmpty

mutual

/-- The value with the members of every object in ascending order of their keys. -/
def sortKeys : Value → Value
  | .arr items => .arr (sortItems items)
  | .obj members => .obj (Members.sorted (sortMembers members))
  | v => v

/-- `sortKeys` on every item of an array. -/
def sortItems : List Value → List Value
  | [] => []
  | v :: rest => sortKeys v :: sortItems rest

/-- `sortKeys` on the value of every member. -/
def sortMembers : List (String × Value) → List (String × Value)
  | [] => []
  | (k, v) :: rest => (k, sortKeys v) :: sortMembers rest

end

end Patchbay.Value
