import Patchbay.Compilation
import Patchbay.Program.Backend
import Patchbay.Program.Globals

/-!
# Emission

The program text of a unit: the head, the implementation texts in use by ascending type, the nodes
in the order of their evaluation, and the foot. Everything in it comes from the unit, so that one
unit has one program for each backend.
-/

namespace Patchbay

/-- The text of a program, with the unit it was made of. -/
structure Program where
  source : String
  unit : CompiledUnit
  deriving Inhabited

namespace Program

/-- A rule of so many dashes after a title. -/
def sectionTitle (title : String) (width : Nat) : String :=
  "── " ++ title ++ " " ++ String.ofList (List.replicate width '─')

/-- The implementation texts of a unit by ascending type. -/
def sortedTemplates (unit : CompiledUnit) : List (String × String) :=
  unit.templates.mergeSort fun a b => Text.le a.1 b.1

/-- The section of the implementation texts, if there are any. -/
def implementations (backend : Backend) (unit : CompiledUnit) (w : Writer) : Writer :=
  if unit.templates.isEmpty then w
  else
    (sortedTemplates unit).foldl
      (fun w (type, source) =>
        (backend.implementation type (Globals.splice unit.globals source) w).blank)
      (w.comment (sectionTitle "Implementations" 40))

/-- The section of some nodes. -/
def nodes (backend : Backend) (unit : CompiledUnit) (w : Writer) :
    List BoundNode → Backend.Outcome
  | [] => .ok w
  | node :: rest => do
    let w ← backend.node unit node w
    nodes backend unit w rest

/-- The lines of a program. -/
def written (backend : Backend) (unit : CompiledUnit) : Backend.Outcome :=
  let w := implementations backend unit (backend.header unit backend.writer).blank
  let w := w.comment (sectionTitle "Nodes" 50)
  match unit.orderedNodes with
  | .error failure => .error ⟨w, failure⟩
  | .ok ordered => do
    let w ← nodes backend unit w ordered
    backend.footer unit w

/-- The program of a unit for the backend that a value names. -/
def emit (unit : CompiledUnit) (backend : Value) : Except Failure Program := do
  let backend ← Backend.ofValue backend
  match written backend unit with
  | .error stopped => .error stopped.failure
  | .ok w => .ok ⟨w.text ++ "\n", unit⟩

end Program

namespace Request

/-- The program of a project, for one backend. -/
def program (request : Request) (backend : Value) (project : Project) :
    Except Failure Program := do
  let unit ← request.compile [backend] project
  Program.emit unit backend

/-- The program of a project document, for one backend. -/
def documentProgram (request : Request) (backend document : Value) :
    Except Failure Program := do
  let project ← Document.project document
  request.program backend project

end Request

end Patchbay
