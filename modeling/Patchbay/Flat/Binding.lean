import Patchbay.Flat.Typing
import Patchbay.Label.Table

/-!
# Bound nodes

What the program needs to know of a node: the types of its inputs, its literal values with the
defaults of the pins that neither a link nor a literal sets, and the links that leave it. A pin
with both a literal value and an incoming link is a conflict. The inputs of a variadic pin are
there once for each step of the arity.
-/

namespace Patchbay

/-- The far end of a link that leaves a node. -/
structure OutLink where
  node : Int
  key : String
  deriving DecidableEq, Inhabited

/-- The order of out-links: by node and key. -/
def OutLink.le (a b : OutLink) : Bool :=
  if a.node ≠ b.node then a.node < b.node else Text.le a.key b.key

/-- A node with its bindings. -/
structure BoundNode where
  id : Int
  /-- The type, which names the implementation. -/
  type : String
  pure : Bool
  inputTypes : Table String
  /-- The links that leave each pin, by ascending pin key. -/
  outLinks : List (String × List OutLink)
  properties : Table Value
  deriving Inhabited

namespace BoundNode

/-! ## Inputs -/

/-- The keys of a variadic pin beyond the first. -/
def expansions (key : Value) (arity : Int) : List Value :=
  (List.range (arity - 1).toNat).map fun i =>
    .str (key.display ++ "-$" ++ Text.Numeral.natText (i + 1))

/-- An input with its expansions at an arity. -/
def expand (arity : Int) (pin : Pin) : List Pin :=
  pin :: (if pin.variadic then (expansions pin.key arity).map fun key => { pin with key } else [])

/-- The inputs of a node type at an arity. -/
def inputPins (entry : NodeType) (arity : Int) : List Pin := entry.inputs.flatMap (expand arity)

/-- The types of inputs, and the defaults of those without a link. -/
def bindInputs (linked : List String) (types : Table String) (values : Table Value) :
    List Pin → Except Failure (Table String × Table Value)
  | [] => .ok (types, values)
  | pin :: rest =>
    match Label.ofValue pin.key with
    | .error fault => .error (.fault fault)
    | .ok label =>
      let values := match pin.default? with
        | none => values
        | some v => if (linked.map Label.text).any (·.same label) then values
          else Table.put label v values
      bindInputs linked (Table.put label pin.type types) values rest

/-! ## Links -/

/-- The pins of a node that incoming links end on. -/
def linkedPins (graph : FlatGraph) (id : Int) : List String :=
  (graph.incoming id).map FlatLink.targetPin

/-- The links that leave a node, by pin. -/
def outLinksOf (graph : FlatGraph) (id : Int) : List (String × List OutLink) :=
  let links := graph.outgoing id
  (ascendingTexts (links.map FlatLink.sourcePin)).map fun pin =>
    (pin, ((links.filter (·.sourcePin = pin)).map fun link =>
      (⟨link.target, link.targetPin⟩ : OutLink)).mergeSort OutLink.le)

/-- The least property of a node that is also linked. -/
def conflict? (node : FlatNode) (linked : List String) : Option String :=
  (ascendingTexts (node.properties.map (·.1))).find? fun key => linked.contains key

/-! ## Nodes -/

/-- The input of a terminal, if it is linked or set; its type has to be resolved by then. -/
def terminalInput (t : Typing) (node : FlatNode) (linked : List String) :
    Except Failure (Table String) :=
  if linked.contains Terminal.pinKey || (node.properties.lookup Terminal.pinKey).isSome then
    match t.types.lookup node.id with
    | none => .error (.fault (.missing (.int node.id)))
    | some type => .ok [(.text Terminal.pinKey, (type.filter (!·.isEmpty)).getD anyType)]
  else .ok []

/-- The table with the literal values of a node put over it. -/
def overlay (values : Table Value) (literals : Members) : Table Value :=
  literals.foldl (fun values (key, v) => Table.put (.text key) v values) values

/-- A node with its bindings, under a typing. -/
def ofNode (t : Typing) (node : FlatNode) : Except Failure BoundNode := do
  let p ← t.primitive node.id
  let linked := linkedPins t.graph node.id
  match conflict? node linked with
  | some key => .error (.conflict node.id key node.debugId)
  | none =>
    let (inputTypes, values) ←
      if p.isTerminal then (terminalInput t node linked).map fun types => (types, [])
      else bindInputs linked [] [] (p.entry.elim [] fun entry => inputPins entry node.arity)
    .ok {
      id := node.id, type := p.type, pure := p.entry.elim false NodeType.pure, inputTypes,
      outLinks := outLinksOf t.graph node.id, properties := overlay values node.properties }

/-- Some nodes with their bindings. -/
def ofNodes (t : Typing) : List FlatNode → Except Failure (List BoundNode)
  | [] => .ok []
  | node :: rest => do
    let bound ← ofNode t node
    let others ← ofNodes t rest
    return bound :: others

/-! ## As values -/

/-- The far end of a link as a document value. -/
def outLinkValue (link : OutLink) : Value :=
  .obj [("key", .str link.key), ("nodeId", .int link.node)]

/-- The out-links as members, by ascending pin key. -/
def outLinkMembers (node : BoundNode) : Members :=
  Members.sorted (node.outLinks.map fun (pin, links) => (pin, .arr (links.map outLinkValue)))

/-- A table as members, in order of arrival, with its keys spelled in a way. -/
def tableMembers {α : Type} (spell : Label → String) (value : α → Value) (table : Table α) :
    Members :=
  table.map fun (key, a) => (spell key, value a)

/-- The node as a document value, with the keys of its pins spelled in a way. -/
def valueSpelling (spell : Label → String) (node : BoundNode) : Value :=
  .obj [("id", .int node.id), ("implId", .str node.type), ("pure", .bool node.pure),
    ("inputTypes", .obj (tableMembers spell .str node.inputTypes)),
    ("outLinks", .obj node.outLinkMembers),
    ("props", .obj (tableMembers spell (fun v => v) node.properties))]

/-- The node as a document value. -/
def toValue (node : BoundNode) : Value := node.valueSpelling Label.keyText

/-- The node as a document value with all keys ascending; keys of several families have no
order. `errorPins` are the pins that an error can reach, if any. -/
def sortedValue (node : BoundNode) (errorPins : List Label) : Except Fault Value := do
  let inputTypes ← Table.sortedMembers .str node.inputTypes
  let properties ← Table.sortedMembers Value.sortKeys node.properties
  return .obj ((if errorPins.isEmpty then []
      else [("errorPins", .arr (errorPins.map Label.toValue))])
    ++ [("id", .int node.id), ("implId", .str node.type), ("inputTypes", .obj inputTypes),
      ("outLinks", .obj node.outLinkMembers), ("props", .obj properties),
      ("pure", .bool node.pure)])

end BoundNode

namespace Typing

/-- All nodes with their bindings, by ascending id: the terminals are typed first. -/
def bindAll (t : Typing) : Except (Stopped Typing) (Typing × List BoundNode) := do
  let t ← t.resolve
  match BoundNode.ofNodes t (t.graph.nodes.mergeSort fun a b => a.id ≤ b.id) with
  | .error failure => .error ⟨t, failure⟩
  | .ok nodes => .ok (t, nodes)

end Typing

/-! ## Implementations -/

/-- The first implementation text of a type that a list of backends names. -/
def chooseTemplate (templates : List (String × String)) :
    List Value → Except Failure (Option String)
  | [] => .ok none
  | backend :: rest =>
    match Label.ofValue backend with
    | .error fault => .error (.fault fault)
    | .ok (.text name) =>
      match templates.lookup name with
      | some text => .ok (some text)
      | none => chooseTemplate templates rest
    | .ok _ => chooseTemplate templates rest

/-- The implementation texts of some types that have one. -/
def templatesOf (kinds : Kinds) (backends : List Value) :
    List String → Except Failure (List (String × String))
  | [] => .ok []
  | type :: rest => do
    let p ← kinds.primitive type
    let text ← match p.entry with
      | none => pure none
      | some entry => chooseTemplate entry.templates backends
    let others ← templatesOf kinds backends rest
    return match text with
      | some text => (type, text) :: others
      | none => others

/-- The implementation texts of the types in use, by ascending type. -/
def collectTemplates (kinds : Kinds) (nodes : List BoundNode) (backends : List Value) :
    Except Failure (List (String × String)) :=
  templatesOf kinds backends (ascendingTexts (nodes.map BoundNode.type))

end Patchbay
