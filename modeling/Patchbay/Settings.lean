import Patchbay.Flat.Liveness
import Patchbay.Text.Character
import Patchbay.Text.Split

/-!
# Settings

What the environment says about compilations: which backends are preferred, the mode of error
liveness, whether unknown types are refused, constants for implementation texts, and how the service
logs and where it listens. A variable that is not set leaves its default.
-/

namespace Patchbay

/-- The variables of an environment. -/
abbrev Environment := List (String × String)

/-- Constants for implementation texts, each name once. -/
abbrev Constants := List (String × String)

namespace Constants

/-- The constants with one of them set: a name that is there keeps its place. -/
def put (name value : String) : Constants → Constants
  | [] => [(name, value)]
  | (other, held) :: rest =>
    if other = name then (name, value) :: rest else (other, held) :: put name value rest

/-- The constants with others put over them. -/
def overlay (constants others : Constants) : Constants :=
  others.foldl (fun constants (name, value) => put name value constants) constants

/-- The constants as a document value. -/
def toValue (constants : Constants) : Value :=
  .obj (constants.map fun (name, value) => (name, .str value))

/-- The constants with an argument of the form `NAME=VALUE` put over them. -/
def withBinding (constants : Constants) (binding : String) : Except Fault Constants :=
  match Text.cutAt? '=' binding with
  | none => .error (.notABinding binding)
  | some (name, value) =>
    if name.isEmpty then .error (.notABinding binding) else .ok (put name value constants)

/-- The constants with several arguments put over them; one that is no text cannot be cut. -/
def withBindings (constants : Constants) : List Value → Except Fault Constants
  | [] => .ok constants
  | .str binding :: rest => do
    let constants ← withBinding constants binding
    withBindings constants rest
  | v :: _ => .error (.notDivisible v.kindName)

end Constants

/-- What the environment says. -/
structure Settings where
  /-- The backends, the preferred one first; never empty. -/
  backends : List String
  liveness : Liveness
  logLevel : String
  strict : Bool
  /-- The number that the service listens on. -/
  listenOn : Int
  globals : Constants
  deriving Inhabited

namespace Settings

/-- The backend that is taken when none is named. -/
def defaultBackend : String := "js"

/-- The number that the service listens on when none is given. -/
def defaultListenOn : Int := 3001

/-- The backends that a list with commas names. -/
def backendNames (text : String) : List String :=
  let names := ((Text.splitAtChar ',' text.toList).map fun part => Text.strip (String.ofList part)).filter
    (!·.isEmpty)
  if names.isEmpty then [defaultBackend] else names

/-- The words that stand for yes. -/
def affirmations : List String := ["1", "true", "yes", "on"]

/-- What the name of a variable for a constant starts with. -/
def constantStem : List Char := "PATCHFLOW_GLOBAL_".toList

/-- The constants that an environment sets, by ascending name. -/
def constants (environment : Environment) : Constants :=
  (environment.filterMap fun (name, value) =>
    if constantStem.isPrefixOf name.toList then
      some (String.ofList (name.toList.drop constantStem.length), value)
    else none).mergeSort fun a b => Text.le a.1 b.1

/-- The settings of an environment. -/
def ofEnvironment (environment : Environment) : Except Fault Settings := do
  let lookup? (name : String) : Option String := environment.lookup name
  let liveness ← match lookup? "PATCHFLOW_LIVENESS" with
    | none => pure Liveness.none
    | some text => Liveness.ofText text
  let listenOn ← match lookup? "PATCHFLOW_PORT" with
    | none => pure defaultListenOn
    | some text =>
      match Text.Numeral.read (Text.Numeral.leadingDigits text), Text.Numeral.integer? text with
      | .error fault, _ => .error fault
      | .ok _, some number => pure number
      | .ok _, none => .error (.notANumeral text)
  return {
    backends := backendNames ((lookup? "PATCHFLOW_BACKENDS").getD defaultBackend)
    liveness, listenOn
    logLevel := Text.upper ((lookup? "PATCHFLOW_LOG_LEVEL").getD "WARNING")
    strict := affirmations.contains (Text.lower ((lookup? "PATCHFLOW_STRICT").getD ""))
    globals := constants environment }

/-- What an environment without variables says. -/
theorem ofEnvironment_nil : ofEnvironment [] = .ok {
    backends := [defaultBackend], liveness := .none, logLevel := "WARNING", strict := false
    listenOn := defaultListenOn, globals := [] } := by
  have hnames : backendNames defaultBackend = [defaultBackend] := by decide +kernel
  have hlevel : Text.upper "WARNING" = "WARNING" := by decide +kernel
  have hstrict : affirmations.contains (Text.lower "") = false := by decide +kernel
  have hconstants : constants [] = [] := by decide +kernel
  simp only [ofEnvironment, List.lookup_nil, Option.getD_none, hnames, hlevel, hstrict,
    hconstants, bind, Except.bind, pure, Except.pure]

end Settings

end Patchbay
