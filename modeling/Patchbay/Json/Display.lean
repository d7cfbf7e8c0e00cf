import Patchbay.Json.Value
import Patchbay.Text.Quoted

/-!
# Values in messages

How a message writes a value. A text stands for itself; inside an array or an object it is quoted.
The words for null and the truth values, the names of the kinds of values and the texts of the
numbers without digits are those of the error messages of this compiler.
-/

namespace Patchbay.Value

/-- Numbers in messages: no exponent part from `1e-4` up to below `1e16`. -/
def messageLayout : Layout := ⟨-4, 16, "nan", "inf"⟩

/-- What a message calls a value of this kind. -/
def kindName : Value → String
  | .null => "NoneType"
  | .bool _ => "bool"
  | .int _ => "int"
  | .float _ => "float"
  | .str _ => "str"
  | .arr _ => "list"
  | .obj _ => "dict"

mutual

/-- The value as it stands inside another value. -/
def nested : Value → String
  | .null => "None"
  | .bool b => if b then "True" else "False"
  | .int n => Text.Numeral.intText n
  | .float x => messageLayout.text x
  | .str s => Text.quoted s
  | .arr items => "[" ++ ", ".intercalate (nestedItems items) ++ "]"
  | .obj members => "\x7b" ++ ", ".intercalate (nestedMembers members) ++ "\x7d"

/-- `nested` on every item. -/
def nestedItems : List Value → List String
  | [] => []
  | v :: rest => nested v :: nestedItems rest

/-- Every member as its quoted key, a colon and its value. -/
def nestedMembers : List (String × Value) → List String
  | [] => []
  | (k, v) :: rest => (Text.quoted k ++ ": " ++ nested v) :: nestedMembers rest

end

/-- The value as a message writes it. -/
def display : Value → String
  | .str s => s
  | v => nested v

end Patchbay.Value
