import Patchbay.Program.Emission
import Patchbay.Service.Body
import Patchbay.Service.Sending

/-!
# Routes of the service

The service answers whether it is well, and compiles: `/api/transform` answers the unit of a
project, `/api/transpile` its program. It also shows pages about itself. The settings of the
environment fill in what a call leaves open. A compilation that fails is answered with its report.

A path is a route's only as a whole, but for one line feed at its end. A path that becomes one when
the slashes at its end are dropped is sent there.
-/

namespace Patchbay.Service

/-- A call to the service. -/
structure Call where
  method : String
  path : String
  body : ByteArray

/-- What the service answers. -/
inductive Answer where
  /-- A status and a JSON body. -/
  | sent (status : Nat) (body : Value)
  /-- The body of the call is not what it has to be. -/
  | refused (objections : List Objection)
  /-- The call is to be made again at another path. -/
  | movedTo (path : String)
  /-- A page about the service. -/
  | page

/-- An answer that holds a message only. -/
def detail (status : Nat) (message : String) : Answer :=
  .sent status (.obj [("detail", .str message)])

/-! ## Compiling -/

/-- The answer to a compilation: what it yields, or the report of its failure. -/
def respond {α : Type} (value : α → Except Fault Value) :
    Except Failure α → Except Fault Answer
  | .ok a => do
    let body ← value a
    let body ← sentResult body
    return .sent 200 body
  | .error failure => do
    let body ← sentReport (.obj [("detail", failure.report.toValue)])
    return .sent 422 body

/-- What a body asks to be compiled, under the settings. -/
def requestOf (settings : Settings) (body : Body) : Request where
  entry := .str body.entry
  mode := .str body.mode.name
  globals := (settings.globals.overlay body.globals).toValue
  strict := body.strict || settings.strict

/-- The answer to a call for the unit of a project. -/
def answerUnit (settings : Settings) (call : UnitCall) : Except Fault Answer :=
  let (body, backends) := call
  let backends := match backends with
    | some (first :: rest) => first :: rest
    | _ => settings.backends
  respond (CompiledUnit.valueSpelling Label.sentText)
    ((requestOf settings body).compileDocument (.arr (backends.map .str)) body.project)

/-- A program as the body of an answer. -/
def programValue (program : Program) : Except Fault Value := do
  let affected ← CompiledUnit.affectedMembers (CompiledUnit.byId program.unit.affected)
  return .obj [("source", .str program.source),
    ("nodeIdsMap", .obj (CompiledUnit.idMembers .str (CompiledUnit.byId program.unit.debugIds))),
    ("pinsAffectedByErrorRaisers", .obj affected)]

/-- The answer to a call for the program of a project. -/
def answerProgram (settings : Settings) (call : ProgramCall) : Except Fault Answer :=
  let (body, backend) := call
  respond programValue ((requestOf settings body).documentProgram (.str backend) body.project)

/-- The answer to a call with a body; the settings are looked up once the body is found right. -/
def answering {α : Type} (environment : Environment) (read : Members → Reading α)
    (body : ByteArray) (handle : Settings → α → Except Fault Answer) : Except Fault Answer :=
  match readCall read body with
  | .error .unreadable => .ok (detail 400 "There was an error parsing the body")
  | .error (.flawed objections) => do
    let _ ← sentReport (Objection.report objections)
    return .refused objections
  | .ok call => do
    let settings ← Settings.ofEnvironment environment
    handle settings call

/-! ## Routing -/

/-- What the service can be called for. -/
inductive Route where
  | health
  | unit
  | program
  /-- A page about the service. -/
  | page (path : String)
  deriving DecidableEq

namespace Route

/-- The path of a route. -/
def path : Route → String
  | health => "/health"
  | unit => "/api/transform"
  | program => "/api/transpile"
  | page path => path

/-- The methods of a route. -/
def methods : Route → List String
  | health => ["GET"]
  | unit | program => ["POST"]
  | page _ => ["GET", "HEAD"]

/-- All routes. -/
def all : List Route :=
  [health, unit, program, page "/openapi.json", page "/docs", page "/docs/oauth2-redirect",
    page "/redoc"]

/-- The route of some characters; a line feed may end them. -/
def ofChars? (cs : List Char) : Option Route :=
  all.find? fun route => route.path.toList = Text.dropFinalFeed cs

/-- The route of a path. -/
def ofPath? (path : String) : Option Route := ofChars? path.toList

/-- The path without the slashes at its end, if a route has that path. -/
def bare? (path : String) : Option String :=
  let cs := (path.toList.reverse.dropWhile (· = '/')).reverse
  if cs.length < path.toList.length && (ofChars? cs).isSome then some (String.ofList cs) else none

end Route

/-- The answer to a call on a route, in one of its methods. -/
def handleRoute (environment : Environment) (body : ByteArray) : Route → Except Fault Answer
  | .health => .ok (.sent 200 (.obj [("status", .str "ok")]))
  | .unit => answering environment unitCall body answerUnit
  | .program => answering environment programCall body answerProgram
  | .page _ => .ok .page

/-- The answer to a call. -/
def handle (environment : Environment) (call : Call) : Except Fault Answer :=
  match Route.ofPath? call.path, Route.bare? call.path with
  | some route, _ =>
    if route.methods.contains call.method then handleRoute environment call.body route
    else .ok (detail 405 "Method Not Allowed")
  | none, some path => .ok (.movedTo path)
  | none, none => .ok (detail 404 "Not Found")

end Patchbay.Service
