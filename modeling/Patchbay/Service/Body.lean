import Patchbay.Json.Reader
import Patchbay.Service.Objection
import Patchbay.Settings
import Patchbay.Text.Encoding

/-!
# Bodies of calls

What the body of a call to the service has to be: a JSON object with the fields of the call, of
which the unknown ones are ignored. A field that is not there takes its default, if it has one.
All that is wrong with a body is found at once, each flaw with its location.
-/

namespace Patchbay.Service

/-- What reading a part of a body yields: its value, or all that is wrong with it. -/
abbrev Reading (α : Type) := Except (List Objection) α

/-- The value of one reading applied to that of another; the objections to both are kept. -/
def both {α β : Type} (f : Reading (α → β)) (a : Reading α) : Reading β :=
  match f, a with
  | .ok f, .ok a => .ok (f a)
  | .error objections, .ok _ => .error objections
  | .ok _, .error objections => .error objections
  | .error first, .error second => .error (first ++ second)

/-- A single objection. -/
def refuse {α : Type} (location : List Spot) (flaw : Flaw) (found : Value) : Reading α :=
  .error [⟨location, flaw, found⟩]

/-! ## Parts -/

/-- A text. -/
def text (location : List Spot) : Value → Reading String
  | .str s => .ok s
  | v => refuse location .notAText v

/-- An object, whatever is in it. -/
def mapping (location : List Spot) : Value → Reading Value
  | .obj members => .ok (.obj members)
  | v => refuse location .notAMapping v

/-- A mode of error liveness, by its exact name. -/
def mode (location : List Spot) : Value → Reading Liveness
  | .str s =>
    match Text.halfRun? s, Liveness.ofName? s with
    | some _, _ => refuse location .notUnicode (.str s)
    | none, some mode => .ok mode
    | none, none => refuse location .notAMode (.str s)
  | v => refuse location .notAMode v

/-- The members of an object of texts. -/
def textMembers (location : List Spot) : Members → Reading Constants
  | [] => .ok []
  | (key, value) :: rest =>
    both ((text (location ++ [.member key]) value).map fun s constants => (key, s) :: constants)
      (textMembers location rest)

/-- An object of texts. -/
def constants (location : List Spot) : Value → Reading Constants
  | .obj members => textMembers location members
  | v => refuse location .notAMapping v

/-- The items of an array of texts, from the number `place` on. -/
def textItems (location : List Spot) (place : Nat) : List Value → Reading (List String)
  | [] => .ok []
  | value :: rest =>
    both ((text (location ++ [.place place]) value).map fun s texts => s :: texts)
      (textItems location (place + 1) rest)

/-- An array of texts. -/
def texts (location : List Spot) : Value → Reading (List String)
  | .arr items => textItems location 0 items
  | v => refuse location .notAList v

/-- An array of texts, or null. -/
def texts? (location : List Spot) : Value → Reading (Option (List String))
  | .null => .ok none
  | v => (texts location v).map some

/-! ## Truth values -/

/-- The words for no. -/
def noWords : List String := ["0", "off", "f", "false", "n", "no"]

/-- The words for yes. -/
def yesWords : List String := ["1", "on", "t", "true", "y", "yes"]

/-- The truth value of a word, in any case of its ASCII letters. -/
def truthOfWord? (word : String) : Option Bool :=
  let word := String.ofList (word.toList.map Char.toLower)
  if noWords.contains word then some false
  else if yesWords.contains word then some true
  else none

/-- The first whole number that does not fit into 64 bits with a sign. -/
def wordLimit : Int := Nat.pow 2 63

/-- Whether a number fits into 64 bits with a sign. -/
def isWord (n : Int) : Bool := decide (-wordLimit ≤ n ∧ n < wordLimit)

/-- A truth value: one itself, a word for one, or the number zero or one. -/
def truth (location : List Spot) (v : Value) : Reading Bool :=
  let unclear (isClose : Bool) : Reading Bool :=
    refuse location (if isClose then .unclearTruth else .notATruth) v
  match v with
  | .bool b => .ok b
  | .str word =>
    match Text.halfRun? word, truthOfWord? word with
    | some _, _ => refuse location .notUnicode v
    | none, some b => .ok b
    | none, none => unclear true
  | .int n => if n = 0 then .ok false else if n = 1 then .ok true else unclear (isWord n)
  | .float x =>
    match x.whole? with
    | some n =>
      if n = 0 then .ok false
      else if n = 1 then .ok true
      else unclear (isWord n && n ≠ -wordLimit)
    | none => unclear false
  | _ => unclear false

/-! ## Bodies -/

/-- What the way to any place of a body starts with. -/
def top : Spot := .member "body"

/-- A field that has to be there. -/
def field {α : Type} (members : Members) (name : String)
    (read : List Spot → Value → Reading α) : Reading α :=
  match members.lookup name with
  | some value => read [top, .member name] value
  | none => refuse [top, .member name] .missing (.obj members)

/-- A field that may be left out. -/
def fieldOr {α : Type} (members : Members) (name : String) (absent : α)
    (read : List Spot → Value → Reading α) : Reading α :=
  match members.lookup name with
  | some value => read [top, .member name] value
  | none => .ok absent

/-- The fields that both calls have. -/
structure Body where
  project : Value
  entry : String
  mode : Liveness
  globals : Constants
  strict : Bool

/-- A call for the unit of a project: the fields of all calls, and the backends if they are given. -/
abbrev UnitCall := Body × Option (List String)

/-- A call for the program of a project: the fields of all calls, and the backend. -/
abbrev ProgramCall := Body × String

/-- Reads a call for a unit. -/
def unitCall (members : Members) : Reading UnitCall :=
  both (both (both (both (both ((field members "project" mapping).map
    fun project entry mode globals backends strict =>
      (⟨project, entry, mode, globals, strict⟩, backends))
    (field members "entry" text)) (fieldOr members "liveness" .none mode))
    (fieldOr members "globals" [] constants)) (fieldOr members "backends" none texts?))
    (fieldOr members "strict" false truth)

/-- Reads a call for a program. -/
def programCall (members : Members) : Reading ProgramCall :=
  both (both (both (both (both ((field members "project" mapping).map
    fun project entry backend mode globals strict =>
      (⟨project, entry, mode, globals, strict⟩, backend))
    (field members "entry" text)) (fieldOr members "backend" Settings.defaultBackend text))
    (fieldOr members "liveness" .none mode)) (fieldOr members "globals" [] constants))
    (fieldOr members "strict" false truth)

/-! ## Bytes of bodies -/

/-- Why a body is not taken. -/
inductive Refusal where
  /-- The bytes are no text, or the text is beyond the limits. -/
  | unreadable
  /-- The body is not what it has to be. -/
  | flawed (objections : List Objection)

/-- What is read of a body: values lie in each other so deep, and numbers have so many digits. -/
def limits : Json.Limits := ⟨some 930, some Text.Numeral.limit⟩

/-- The value that the text of a body holds. -/
def valueOf (source : String) : Except Refusal Value :=
  match Json.read limits source with
  | .ok v => .ok v
  | .error (.malformed rest) =>
    .error (.flawed [⟨[top, .place (Json.placeOf source rest)], .invalidJson, .obj []⟩])
  | .error _ => .error .unreadable

/-- The members of the object that a body holds. -/
def membersOf (body : ByteArray) : Except Refusal Members :=
  if body.isEmpty then .error (.flawed [⟨[top], .missing, .null⟩])
  else match Text.Encoding.read? body with
    | none => .error .unreadable
    | some source =>
      match valueOf source with
      | .error refusal => .error refusal
      | .ok (.obj members) => .ok members
      | .ok v => .error (.flawed [⟨[top], .notAnObject, v⟩])

/-- What a body holds, read as a call. -/
def readCall {α : Type} (read : Members → Reading α) (body : ByteArray) : Except Refusal α := do
  let members ← membersOf body
  (read members).mapError .flawed

end Patchbay.Service
