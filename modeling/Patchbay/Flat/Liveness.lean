import Patchbay.Flat.Binding
import Patchbay.Text.LetterCase

/-!
# Error liveness

Which pins an error can reach. A node whose type raises errors may send one on any of its outputs,
and a node that an error reaches sends it on from all of its outputs. One sweep in the order of
the schedule finds all pins, since what feeds a node comes before it. The analysis is made in the
modes that need it, and is empty in the mode `none`.
-/

namespace Patchbay

/-- Whether, and for what, errors are tracked. -/
inductive Liveness where
  | none
  | debug
  | simulation
  deriving DecidableEq, Inhabited

namespace Liveness

/-- The name of a mode. -/
def name : Liveness → String
  | none => "none"
  | debug => "debug"
  | simulation => "simulation"

/-- All modes. -/
def all : List Liveness := [none, debug, simulation]

/-- The mode of a name. -/
def ofName? (name : String) : Option Liveness := all.find? (·.name = name)

/-- The mode that a text names, in any case of its letters. -/
def ofText (text : String) : Except Fault Liveness :=
  match ofName? (Text.lower text) with
  | some mode => .ok mode
  | .none => .error (.notAMode (Text.lower text))

/-- The mode that a value names; null names the mode `none`. -/
def ofValue : Value → Except Fault Liveness
  | .null => .ok none
  | v => ofText v.display

/-! ## Analysis -/

/-- The pins that an error can reach, by node. -/
abbrev Reach := List (Int × LabelSet)

/-- The pins of a node that an error can reach. -/
def pinsOf (reach : Reach) (id : Int) : LabelSet := (reach.lookup id).getD []

/-- A reach with the pins of a node changed. -/
def update (id : Int) (f : LabelSet → LabelSet) : Reach → Reach
  | [] => [(id, f [])]
  | (other, pins) :: rest =>
    if other = id then (other, f pins) :: rest else (other, pins) :: update id f rest

/-- The keys of some pins as labels. -/
def labelsOf : List Pin → Except Failure (List Label)
  | [] => .ok []
  | pin :: rest =>
    match Label.ofValue pin.key with
    | .error fault => .error (.fault fault)
    | .ok label => (labelsOf rest).map (label :: ·)

/-- The outputs of a node: the pins that links leave, and those that its type declares. -/
def outputs (entry : Option NodeType) (node : BoundNode) : Except Failure (List Label) :=
  (labelsOf (entry.elim [] NodeType.outputs)).map fun declared =>
    node.outLinks.map (fun (pin, _) => .text pin) ++ declared

/-- The far ends of the links that leave a node. -/
def targets (node : BoundNode) : List OutLink := node.outLinks.flatMap (·.2)

/-- A reach with the far ends of some links. -/
def reachTargets (reach : Reach) (links : List OutLink) : Reach :=
  links.foldl (fun reach link => update link.node (·.insert (.text link.key)) reach) reach

/-- One step of the sweep. -/
def sweepNode (kinds : Kinds) (reach : Reach) (node : BoundNode) : Except Failure Reach := do
  let p ← kinds.primitive node.type
  let reach := update node.id (fun pins => pins) reach
  if p.entry.elim false NodeType.raises || !(pinsOf reach node.id).isEmpty then
    let outputs ← outputs p.entry node
    return reachTargets (update node.id (·.insertAll outputs) reach) (targets node)
  else return reach

/-- The sweep over some ids. -/
def sweep (kinds : Kinds) (nodes : List BoundNode) (reach : Reach) :
    List Int → Except Failure Reach
  | [] => .ok reach
  | id :: rest =>
    match nodes.find? (·.id = id) with
    | .none => .error (.fault (.missing (.int id)))
    | some node => do
      let reach ← sweepNode kinds reach node
      sweep kinds nodes reach rest

/-- The pins that an error can reach, for every node that has any, by ascending id. -/
def reach (mode : Liveness) (kinds : Kinds) (nodes : List BoundNode) (topology : List Int) :
    Except Failure Reach :=
  if mode = none then .ok []
  else (sweep kinds nodes [] topology).map fun reach =>
    (reach.filter fun (_, pins) => !pins.isEmpty).mergeSort fun a b => a.1 ≤ b.1

end Liveness

end Patchbay
