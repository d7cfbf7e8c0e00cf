import Patchbay.Label
import Patchbay.Project.DocumentFault
import Patchbay.Project.Patch

/-!
# Failures

The ways in which a compilation fails, each with what caused it. Callers see a failure as a
`Report`: a kind, a message and a small payload. A fault, which says nothing about the project, is
reported as an unexpected error.
-/

namespace Patchbay

/-- Why a compilation fails. -/
inductive Failure where
  /-- The document breaks the structure of a project. -/
  | malformed (fault : DocumentFault)
  /-- The file holds no JSON. -/
  | notJson (path : String)
  /-- The project has no such patch. -/
  | noPatch (path : Value)
  /-- Patches instantiate each other in a circle; the first one is repeated last. -/
  | nestingCycle (cycle : List String)
  /-- A type id that resolves to nothing. -/
  | unknownType (type : String)
  /-- A link ends on a patch instance, and not on its boundary. -/
  | notOnBoundary (link : String) (at_ : LinkEnd) (path : String)
  /-- A link ends on a pin that the node does not have. -/
  | noPin (link : String) (at_ : LinkEnd) (type : String)
  /-- A link joins two inputs or two outputs. -/
  | sameDirection (link : String) (direction : Direction) (first second : LinkEnd)
  /-- A boundary reference of an instance names no terminal of its direction. -/
  | noTerminal (node : Int) (direction : Direction) (terminal : Nat) (path : String)
  /-- A linked terminal whose data type nothing determines. -/
  | untypedTerminal (node : Int) (type debugId : String)
  /-- A pin with a literal value and an incoming link. -/
  | conflict (node : Int) (pin debugId : String)
  /-- Nodes feed each other in a circle; the first one is repeated last. -/
  | dataCycle (nodes : List Int)
  /-- No backend has this name. -/
  | noBackend (name : Value)
  /-- A step met a value it has no rule for. -/
  | fault (fault : Fault)

/-- The kinds of failures that callers tell apart. -/
inductive FailureKind where
  | patchNotFound
  | cyclicPatchReference
  | unresolvableTerminalType
  | conflictingBinding
  | cycleDetected
  | invalidProjectFormat
  | typeNotFound
  | unsupportedBackend
  | unexpectedError
  deriving DecidableEq

namespace FailureKind

/-- The tag of a kind. -/
def tag : FailureKind → String
  | patchNotFound => "PATCH_NOT_FOUND"
  | cyclicPatchReference => "CYCLIC_PATCH_REFERENCE"
  | unresolvableTerminalType => "UNRESOLVABLE_TERMINAL_TYPE"
  | conflictingBinding => "CONFLICTING_BINDING"
  | cycleDetected => "CYCLE_DETECTED"
  | invalidProjectFormat => "INVALID_PROJECT_FORMAT"
  | typeNotFound => "TYPE_NOT_FOUND"
  | unsupportedBackend => "UNSUPPORTED_BACKEND"
  | unexpectedError => "UNEXPECTED_ERROR"

/-- The names under which reports of a kind are shown. -/
def titles : List (String × FailureKind) :=
  [("TransformError", unexpectedError), ("PatchNotFound", patchNotFound),
   ("CyclicPatchReference", cyclicPatchReference),
   ("UnresolvableTerminalType", unresolvableTerminalType),
   ("ConflictingBinding", conflictingBinding), ("CycleDetected", cycleDetected),
   ("InvalidProjectFormat", invalidProjectFormat), ("TypeNotFound", typeNotFound),
   ("UnsupportedBackend", unsupportedBackend), ("UnexpectedError", unexpectedError)]

end FailureKind

/-! ## Reports -/

/-- A failure as callers see it. -/
structure Report where
  kind : FailureKind
  message : String
  payload : Members

namespace Report

/-- The report as a document value. -/
def toValue (report : Report) : Value :=
  .obj [("kind", .str report.kind.tag), ("payload", .obj report.payload),
    ("message", .str report.message)]

/-- The report under a title, on one line. -/
def shown (report : Report) (title : String) : String :=
  title ++ "(" ++ report.kind.tag ++ ", " ++ (Value.obj report.payload).nested ++ ")"

/-- The report of something unexpected, of a class and with a message of its own. -/
def unexpected (className message : String) : Report :=
  ⟨.unexpectedError, className ++ ": " ++ message, [("exception", .str className)]⟩

/-- The message made of the arguments of something unexpected: a single one stands for itself,
but a missing key is shown as inside a value; several stand in parentheses. -/
def argumentsText (className : String) : List Value → String
  | [] => ""
  | [v] => if className = "KeyError" then v.nested else v.display
  | vs => "(" ++ ", ".intercalate (Value.nestedItems vs) ++ ")"

end Report

namespace Failure

/-- Ids one after another, with arrows between them. -/
def chain (ids : List String) : String := " -> ".intercalate ids

/-- The kind of a failure. -/
def kind : Failure → FailureKind
  | malformed _ | notJson _ | notOnBoundary .. | noPin .. | sameDirection .. | noTerminal .. =>
    .invalidProjectFormat
  | noPatch _ => .patchNotFound
  | nestingCycle _ => .cyclicPatchReference
  | unknownType _ => .typeNotFound
  | untypedTerminal .. => .unresolvableTerminalType
  | conflict .. => .conflictingBinding
  | dataCycle _ => .cycleDetected
  | noBackend _ => .unsupportedBackend
  | fault _ => .unexpectedError

/-- The message of a failure. -/
def message : Failure → String
  | malformed found => found.message
  | notJson path => path ++ ": not a JSON document"
  | noPatch path => "Patch '" ++ path.display ++ "' not found"
  | nestingCycle cycle =>
    "Patch '" ++ cycle.headD "" ++ "' instantiates itself: " ++ chain cycle
  | unknownType type => "Node type '" ++ type ++ "' is neither a patch nor a catalog entry"
  | notOnBoundary link at_ path =>
    "Link " ++ link ++ ": pin '" ++ at_.pin.key ++ "' of patch node "
      ++ Text.Numeral.intText at_.node ++ " (" ++ path ++ ") is not a boundary reference"
  | noPin link at_ type =>
    "Link " ++ link ++ ": node " ++ Text.Numeral.intText at_.node ++ " (" ++ type
      ++ ") has no pin '" ++ at_.pin.key ++ "'"
  | sameDirection link direction first second =>
    "Link " ++ link ++ " connects two " ++ direction.name ++ " pins (" ++ first.text ++ " and "
      ++ second.text ++ ")"
  | noTerminal node direction terminal path =>
    "Pin '" ++ (PinRef.boundary direction terminal).key ++ "' of patch node "
      ++ Text.Numeral.intText node ++ " does not name an " ++ direction.name ++ " terminal of '"
      ++ path ++ "'"
  | untypedTerminal node type _ =>
    "Cannot deduce the data type of terminal " ++ Text.Numeral.intText node ++ " (" ++ type
      ++ "): it is only linked to other untyped terminals"
  | conflict node pin _ =>
    "Pin '" ++ pin ++ "' of node " ++ Text.Numeral.intText node
      ++ " has both a literal value and an incoming link"
  | dataCycle nodes =>
    "Dependency cycle between nodes " ++ chain (nodes.map Text.Numeral.intText)
  | noBackend name => "No code templates registered for backend '" ++ name.display ++ "'"
  | fault cause => (Report.unexpected cause.className cause.message).message

/-- What callers can read off a failure besides its message. -/
def payload : Failure → Members
  | malformed found => [("reason", .str found.message)]
  | notJson path => [("reason", .str "NOT_A_JSON"), ("path", .str path)]
  | noPatch path => [("path", path)]
  | nestingCycle cycle => [("cycle", .arr (cycle.map .str))]
  | unknownType type => [("type", .str type)]
  | notOnBoundary link at_ _ | noPin link at_ _ =>
    [("link", .str link), ("nodeId", .int at_.node), ("pinKey", .str at_.pin.key)]
  | sameDirection link direction _ _ =>
    [("link", .str link), ("direction", .str direction.name)]
  | noTerminal node direction terminal path =>
    [("nodeId", .int node), ("pinKey", .str (PinRef.boundary direction terminal).key),
      ("patch", .str path)]
  | untypedTerminal node type debugId =>
    [("nodeId", .int node), ("type", .str type), ("debugId", .str debugId)]
  | conflict node pin debugId =>
    [("nodeId", .int node), ("pinKey", .str pin), ("debugId", .str debugId)]
  | dataCycle nodes => [("nodeIds", .arr (nodes.map .int))]
  | noBackend name =>
    [("backend", name), ("known", .arr [.str "cpp", .str "js"])]
  | fault cause => (Report.unexpected cause.className cause.message).payload

/-- The failure as callers see it. -/
def report (failure : Failure) : Report := ⟨failure.kind, failure.message, failure.payload⟩

end Failure

/-- A computation over a state that failed: the state as far as it got, and why. -/
structure Stopped (σ : Type) where
  state : σ
  failure : Failure

end Patchbay
