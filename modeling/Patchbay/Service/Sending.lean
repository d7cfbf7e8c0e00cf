import Patchbay.Json.Printer
import Patchbay.Fault

/-!
# Sending values

A value is sent as JSON. A report is sent as it stands, and not at all if it holds a number without
digits or half of a surrogate pair. In a result null takes the place of a number without digits;
values may lie in each other only so deep, and half of a surrogate pair is no more sent than in
a report.
-/

namespace Patchbay.Service

/-! ## Reports -/

mutual

/-- Whether all numbers in a value have digits. -/
def hasDigits : Value → Bool
  | .float x => x.isFinite
  | .arr items => haveDigits items
  | .obj members => membersHaveDigits members
  | _ => true

/-- `hasDigits` of all items. -/
def haveDigits : List Value → Bool
  | [] => true
  | v :: rest => hasDigits v && haveDigits rest

/-- `hasDigits` of the values of all members. -/
def membersHaveDigits : List (String × Value) → Bool
  | [] => true
  | (_, v) :: rest => hasDigits v && membersHaveDigits rest

end

/-- A report that can be sent. -/
def sentReport (report : Value) : Except Fault Value :=
  if hasDigits report then
    match Text.halfRun? (Json.renderIn .compact report) with
    | some run => .error (.notEncodable run)
    | none => .ok report
  else .error .notSendable

/-! ## Results -/

/-- A result lies in itself at most so deep. -/
def depthLimit : Nat := 255

/-- A text of a result that can be sent. -/
def sentText (s : String) : Except Fault String :=
  match Text.halfRun? s with
  | some run => .error (.resultNotEncodable run)
  | none => .ok s

/-- A part of a result without parts of its own, as it is sent. -/
def sentScalar : Value → Except Fault Value
  | .float x => .ok (if x.isFinite then .float x else .null)
  | .str s => (sentText s).map .str
  | v => .ok v

mutual

/-- A part of a result at a depth, as it is sent. -/
def sentValue (depth : Nat) : Value → Except Fault Value
  | .arr items =>
    if depthLimit < depth then .error .resultTooDeep
    else (sentItems (depth + 1) items).map .arr
  | .obj members =>
    if depthLimit < depth then .error .resultTooDeep
    else (sentMembers (depth + 1) members).map .obj
  | v => if depthLimit < depth then .error .resultTooDeep else sentScalar v

/-- `sentValue` on all items. -/
def sentItems (depth : Nat) : List Value → Except Fault (List Value)
  | [] => .ok []
  | v :: rest => do
    let v ← sentValue depth v
    let others ← sentItems depth rest
    return v :: others

/-- `sentValue` on the values of all members, each after its key. -/
def sentMembers (depth : Nat) : List (String × Value) → Except Fault (List (String × Value))
  | [] => .ok []
  | (key, v) :: rest => do
    let key ← sentText key
    let v ← sentValue depth v
    let others ← sentMembers depth rest
    return (key, v) :: others

end

/-- A result as it is sent. -/
def sentResult (result : Value) : Except Fault Value := sentValue 0 result

end Patchbay.Service
