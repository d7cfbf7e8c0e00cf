import Patchbay.Program.Backend
import Patchbay.Settings

/-!
# Arguments

The grammar of the command line. Every argument is first sorted by its form: a flag, alone or
joined to its value by an equals sign; the separator, after which no argument is a flag; or an
operand. A flag may be shortened to any beginning that no other flag shares. Then the arguments
are read from left to right: the first operand is the project file, and what has no place is
collected, to be refused at the end. Where the separator is joined to a flag, the flag is given
nothing.
-/

namespace Patchbay.CommandLine

/-- What can be set on the command line. -/
inductive Flag where
  | help
  | entry
  | backend
  | liveness
  | constant
  | out
  | print
  | unitJson
  | strict
  deriving DecidableEq

namespace Flag

/-- All flags. -/
def all : List Flag := [help, entry, backend, liveness, constant, out, print, unitJson, strict]

/-- How a flag is written. -/
def spellings : Flag → List String
  | help => ["-h", "--help"]
  | entry => ["--entry"]
  | backend => ["--backend"]
  | liveness => ["--liveness"]
  | constant => ["--global"]
  | out => ["--out"]
  | print => ["--print"]
  | unitJson => ["--unit-json"]
  | strict => ["--strict"]

/-- The spellings with their flags. -/
def spelled : List (String × Flag) :=
  all.flatMap fun flag => flag.spellings.map fun spelling => (spelling, flag)

/-- What messages call a flag. -/
def title (flag : Flag) : String := "/".intercalate flag.spellings

/-- Whether a flag takes a value. -/
def takesValue : Flag → Bool
  | entry | backend | liveness | constant | out => true
  | help | print | unitJson | strict => false

/-- The values that a flag may take, if not all. -/
def choices? : Flag → Option (List String)
  | backend => some (Backend.all.map Backend.name)
  | liveness => some (Liveness.all.map Liveness.name)
  | _ => none

end Flag

/-- What a flag is given: a text, or nothing. -/
abbrev Given := Option String

/-- What a flag is given as a value of a request: nothing is a list without items. -/
def Given.toValue : Given → Value
  | some text => .str text
  | none => .arr []

/-- Why a command line is refused. -/
inductive Refusal where
  /-- A shortened flag that several flags start with. -/
  | ambiguous (argument : String) (spellings : List String)
  /-- A value joined to a flag that takes none. -/
  | ignored (flag : Flag) (value : String)
  /-- A flag without its value. -/
  | noValue (flag : Flag)
  /-- A value that is not among the choices. -/
  | notAChoice (flag : Flag) (value : String)
  /-- What has to be there and is not. -/
  | required (names : List String)
  /-- Arguments that have no place. -/
  | unrecognized (arguments : List String)
  /-- A constant that is not of the form `NAME=VALUE`. -/
  | unbound (fault : Fault)

/-- The message of a refusal. -/
def Refusal.message : Refusal → String
  | ambiguous argument spellings =>
    "ambiguous option: " ++ argument ++ " could match " ++ ", ".intercalate spellings
  | ignored flag value =>
    "argument " ++ flag.title ++ ": ignored explicit argument " ++ Text.quoted value
  | noValue flag => "argument " ++ flag.title ++ ": expected one argument"
  | notAChoice flag value =>
    "argument " ++ flag.title ++ ": invalid choice: " ++ Text.quoted value ++ " (choose from "
      ++ ", ".intercalate ((flag.choices?.getD []).map Text.quoted) ++ ")"
  | required names => "the following arguments are required: " ++ ", ".intercalate names
  | unrecognized arguments => "unrecognized arguments: " ++ " ".intercalate arguments
  | unbound fault => fault.message

/-- Why the reading of a command line ends early. -/
inductive Halt where
  /-- The usage was asked for. -/
  | help
  | refused (refusal : Refusal)

/-! ## Forms of arguments -/

/-- The separator. -/
def separator : String := "--"

/-- An argument by its form. -/
inductive Argument where
  | operand (text : String)
  | separator
  /-- A flag, and the value joined to it. -/
  | flag (flag : Flag) (value : Option String)
  /-- An argument in the form of a flag that is none. -/
  | unknown (text : String)

/-- Whether a text starts with another. -/
def startsWith (text front : String) : Bool := front.toList.isPrefixOf text.toList

/-- A negative decimal number; a line feed may end it. -/
def isNegativeNumber (text : String) : Bool :=
  match Text.dropFinalFeed text.toList with
  | '-' :: rest =>
    Text.Numeral.isNumeral rest
      || match rest.dropWhile Text.isDigit with
        | '.' :: fraction => Text.Numeral.isNumeral fraction
        | _ => false
  | _ => false

/-- The flag `-h` with letters joined to it: a further `h` says nothing new, and anything else is a
value. -/
def shortHelp (letters : List Char) : Argument :=
  match letters.dropWhile (· = 'h') with
  | [] => .flag .help none
  | value => .flag .help (some (String.ofList value))

/-- A beginning of flags, and the value joined to it. -/
def beginning (text : String) : String × Option String :=
  match Text.cutAt? '=' text with
  | some (front, value) => (front, some value)
  | none => (text, none)

/-- The form of an argument that starts with a dash and is not spelled like a flag. -/
def unspelled (text : String) : Argument :=
  if isNegativeNumber text || text.contains ' ' then .operand text else .unknown text

/-- The form of a text that starts with two dashes. -/
def longForm (text : String) : Except Halt Argument :=
  let (front, value) := beginning text
  match Flag.spelled.find? (·.1 = front) with
  | some (_, flag) => .ok (.flag flag value)
  | none =>
    match Flag.spelled.filter fun (spelling, _) => startsWith spelling front with
    | [] => .ok (unspelled text)
    | [(_, flag)] => .ok (.flag flag value)
    | several => .error (.refused (.ambiguous text (several.map (·.1))))

/-- The form of a text that starts with one dash. -/
def shortForm (text : String) : Argument :=
  match text.toList with
  | ['-'] => .operand text
  | ['-', 'h', '='] => .flag .help (some "")
  | '-' :: 'h' :: '=' :: letters => shortHelp letters
  | '-' :: 'h' :: letters => shortHelp letters
  | _ => unspelled text

/-- The form of a text. -/
def formOf (text : String) : Except Halt Argument :=
  if startsWith text "--" then longForm text
  else if startsWith text "-" then .ok (shortForm text)
  else .ok (.operand text)

/-- The forms of a list of texts; after the separator all are operands. -/
def formsOf : List String → Except Halt (List Argument)
  | [] => .ok []
  | text :: rest =>
    if text = separator then .ok (.separator :: rest.map .operand)
    else do
      let form ← formOf text
      let forms ← formsOf rest
      return form :: forms

/-! ## Reading -/

/-- What a command line asks for. -/
structure Arguments where
  project : String
  entry : Given
  backend : Given
  liveness : Given
  constants : List Given
  out : Given
  print : Bool
  unitJson : Bool
  strict : Bool
  deriving Inhabited

/-- What has been read of a command line. -/
structure Draft where
  arguments : Arguments
  hasProject : Bool
  hasEntry : Bool
  /-- The arguments that have no place. -/
  extras : List String

/-- The draft before the first argument. -/
def Draft.start (settings : Settings) : Draft where
  arguments := {
    project := "", entry := none
    backend := some (settings.backends.headD Settings.defaultBackend)
    liveness := some settings.liveness.name, constants := [], out := some "build"
    print := false, unitJson := false, strict := settings.strict }
  hasProject := false
  hasEntry := false
  extras := []

namespace Draft

/-- The draft with one more argument that has no place. -/
def extra (draft : Draft) (text : String) : Draft := { draft with extras := draft.extras ++ [text] }

/-- The draft with the project file. -/
def withProject (draft : Draft) (text : String) : Draft :=
  { draft with arguments := { draft.arguments with project := text }, hasProject := true }

/-- The draft with a flag set that takes no value. -/
def raise (draft : Draft) (flag : Flag) : Draft :=
  let arguments := draft.arguments
  { draft with arguments := match flag with
    | .print => { arguments with print := true }
    | .unitJson => { arguments with unitJson := true }
    | .strict => { arguments with strict := true }
    | _ => arguments }

/-- The draft with what a flag is given. -/
def set (draft : Draft) (flag : Flag) (value : Given) : Draft :=
  let arguments := draft.arguments
  match flag with
  | .entry => { draft with arguments := { arguments with entry := value }, hasEntry := true }
  | .backend => { draft with arguments := { arguments with backend := value } }
  | .liveness => { draft with arguments := { arguments with liveness := value } }
  | .constant =>
    { draft with arguments := { arguments with constants := arguments.constants ++ [value] } }
  | .out => { draft with arguments := { arguments with out := value } }
  | _ => draft

/-- The draft with the value of a flag, which has to be one of its choices. -/
def assign (draft : Draft) (flag : Flag) (value : String) : Except Halt Draft :=
  if flag.choices?.any fun choices => !choices.contains value then
    .error (.refused (.notAChoice flag value))
  else .ok (draft.set flag (some value))

end Draft

/-- Reads arguments into a draft. -/
def readInto (draft : Draft) : List Argument → Except Halt Draft
  | [] => .ok draft
  | .operand text :: .separator :: rest =>
    if draft.hasProject then readInto (draft.extra text) (.separator :: rest)
    else readInto (draft.withProject text) rest
  | .operand text :: rest =>
    readInto (if draft.hasProject then draft.extra text else draft.withProject text) rest
  | .separator :: .operand text :: rest =>
    if draft.hasProject then readInto (draft.extra separator) (.operand text :: rest)
    else readInto (draft.withProject text) rest
  | .separator :: rest => readInto (draft.extra separator) rest
  | .unknown text :: rest => readInto (draft.extra text) rest
  | .flag flag joined :: rest =>
    if flag.takesValue then
      match joined, rest with
      | some value, rest =>
        if value = separator then readInto (draft.set flag none) rest
        else do
          let draft ← draft.assign flag value
          readInto draft rest
      | none, .operand value :: rest => do
        let draft ← draft.assign flag value
        readInto draft rest
      | none, _ => .error (.refused (.noValue flag))
    else
      match joined with
      | some value => .error (.refused (.ignored flag value))
      | none => if flag = .help then .error .help else readInto (draft.raise flag) rest

/-- What has to be there and is not. -/
def Draft.missing (draft : Draft) : List String :=
  (if draft.hasProject then [] else ["project.json"]) ++ (if draft.hasEntry then [] else ["--entry"])

/-- What a command line asks for. -/
def Arguments.parse (settings : Settings) (texts : List String) : Except Halt Arguments := do
  let forms ← formsOf texts
  let draft ← readInto (Draft.start settings) forms
  if !draft.missing.isEmpty then .error (.refused (.required draft.missing))
  else if !draft.extras.isEmpty then .error (.refused (.unrecognized draft.extras))
  else return draft.arguments

end Patchbay.CommandLine
