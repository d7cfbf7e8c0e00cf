import Patchbay.Failure
import Patchbay.Json.Reader

/-!
# Reading projects

A project document is checked and turned into a `Project` in one pass: the name, the patches with
their nodes and links, then the node types, each in the order of the document. The first fault
ends the reading. Nodes and links may be objects keyed by id or lists of objects that hold their
ids; a type may be under `type` or `typeId`. A document that is found sound may still hold pin keys
with numbers too long to be read: `checked` lets them pass and `project` refuses them.
-/

namespace Patchbay

/-- The integer that a value stands for: a whole number, or a text of ASCII digits. -/
def Value.integer? : Value → Option Int
  | .int n => some n
  | .str s => if Text.Numeral.isAsciiNumeral s then some (Text.Numeral.value s.toList) else none
  | _ => none

namespace Document

/-- The value, or the complaint about its place. -/
def demand {α : Type} (value : Option α) (place : Place) (complaint : Complaint) :
    Except Failure α :=
  match value with
  | some a => .ok a
  | none => .error (.malformed ⟨place, complaint⟩)

/-- The value of an optional field, which has to have a shape if it is there. -/
def optional {α : Type} (fields : Members) (place : Place) (name : String) (absent : α)
    (shape : Shape) (read : Value → Option α) : Except Failure α :=
  match fields.lookup name with
  | none => .ok absent
  | some v => demand (read v) (place.field name) (.mustBe shape)

/-- The integer that a value stands for, unless it is given by too many digits. -/
def within (v : Value) (n : Int) : Except Failure Int :=
  match v with
  | .str s =>
    match Text.Numeral.read s.toList with
    | .ok _ => .ok n
    | .error fault => .error (.fault fault)
  | _ => .ok n

/-! ## Collections -/

/-- The entries of a list from its `i`-th on, each with the id it holds. -/
def listEntries (place : Place) (i : Nat) : List Value → Except Failure (List (Value × Value))
  | [] => .ok []
  | item :: rest => do
    let fields ← demand item.members? (place.index i) .entryNotAnObject
    let id ← demand (fields.lookup "id") (place.index i) (.missingField "id")
    let others ← listEntries place (i + 1) rest
    return (id, item) :: others

/-- The entries of a collection: an object's members, or the items of a list by their ids. -/
def entries (place : Place) : Value → Except Failure (List (Value × Value))
  | .obj members => .ok (members.map fun (key, item) => (.str key, item))
  | .arr items => listEntries place 0 items
  | _ => .error (.malformed ⟨place, .mustBe .objectOrList⟩)

/-! ## Nodes -/

/-- An id inside a node agrees with the key of the node. -/
def ownId (place : Place) (fields : Members) (key : Value) (id : Int) : Except Failure Unit :=
  match fields.lookup "id" with
  | none => .ok ()
  | some own => do
    let number ← demand own.integer? (place.field "id") (.mustBe .integer)
    let number ← within own number
    let id ← within key id
    if number = id then .ok () else .error (.malformed ⟨place.field "id", .idMismatch⟩)

/-- The type of a node, under either name. -/
def typeOf (place : Place) (fields : Members) : Except Failure String :=
  match fields.lookup "type" <|> fields.lookup "typeId" with
  | none => .error (.malformed ⟨place, .missingField "type"⟩)
  | some v =>
    demand (v.text?.filter (· ≠ "")) (place.field "type") (.mustBe .nonEmptyText)

/-- The arity of a node, one where the field is not there. -/
def arityOf (place : Place) (fields : Members) : Except Failure Int :=
  match fields.lookup "arityLevel" with
  | none => .ok 1
  | some v => do
    let number ← demand v.integer? (place.field "arityLevel") (.mustBe .arity)
    let number ← within v number
    if 1 ≤ number then .ok number
    else .error (.malformed ⟨place.field "arityLevel", .mustBe .arity⟩)

/-- One node under its key; `earlier` are the nodes before it. -/
def node (place : Place) (earlier : List Node) (key item : Value) : Except Failure Node := do
  let fields ← demand item.members? place .nodeNotAnObject
  let id ← demand key.integer? place .keyNotAnInteger
  ownId place fields key id
  let type ← typeOf place fields
  let properties ← optional fields place "properties" [] .object Value.members?
  let arity ← arityOf place fields
  let id ← within key id
  if earlier.any (·.id = id) then .error (.malformed ⟨place, .duplicateNode key⟩)
  else .ok { id, type, properties, arity }

/-- The nodes of a collection after `earlier`. -/
def nodes (place : Place) (earlier : List Node) :
    List (Value × Value) → Except Failure (List Node)
  | [] => .ok earlier
  | (key, item) :: rest => do
    let n ← node (place.key key) earlier key item
    nodes place (earlier ++ [n]) rest

/-! ## Links -/

/-- One end of a link, on one of the nodes. -/
def linkEnd (place : Place) (known : List Node) (item : Value) : Except Failure LinkEnd := do
  let fields ← demand item.members? place .notAnObject
  let id ← demand (fields.lookup "nodeId") place (.missingField "nodeId")
  let key ← demand (fields.lookup "pinKey") place (.missingField "pinKey")
  let number ← demand id.integer? (place.field "nodeId") (.mustBe .integer)
  let key ← demand key.text? (place.field "pinKey") (.mustBe .text)
  let number ← within id number
  if known.any (·.id = number) then .ok ⟨number, PinRef.parse key⟩
  else .error (.malformed ⟨place, .unknownNode id⟩)

/-- The two items of a list of two. -/
def two? : Value → Option (Value × Value)
  | .arr [a, b] => some (a, b)
  | _ => none

/-- One link under its key. -/
def link (place : Place) (known : List Node) (key item : Value) : Except Failure Link := do
  let fields ← demand item.members? place .linkNotAnObject
  let pins ← demand (fields.lookup "pins") place (.missingField "pins")
  let (a, b) ← demand (two? pins) (place.field "pins") (.mustBe .endpoints)
  let first ← linkEnd ((place.field "pins").index 0) known a
  let second ← linkEnd ((place.field "pins").index 1) known b
  return { id := key.display, first, second }

/-- The links with one more: a link of the same id gives up its place to it. -/
def putLink (l : Link) : List Link → List Link
  | [] => [l]
  | other :: rest => if other.id = l.id then l :: rest else other :: putLink l rest

/-- The links of a collection after `earlier`. -/
def links (place : Place) (known : List Node) (earlier : List Link) :
    List (Value × Value) → Except Failure (List Link)
  | [] => .ok earlier
  | (key, item) :: rest => do
    let l ← link (place.key key) known key item
    links place known (putLink l earlier) rest

/-! ## Patches -/

/-- The value of a field, or an empty object. -/
def orEmpty (fields : Members) (name : String) : Value := (fields.lookup name).getD (.obj [])

/-- The text of an optional id; null is none. -/
def idText? : Option Value → Option String
  | none => none
  | some .null => none
  | some v => some v.display

/-- One patch under its path. -/
def patch (place : Place) (path : String) (item : Value) : Except Failure Patch := do
  let fields ← demand item.members? place .notAnObject
  let nodeEntries ← entries (place.field "nodes") (orEmpty fields "nodes")
  let known ← nodes (place.field "nodes") [] nodeEntries
  let linkEntries ← entries (place.field "links") (orEmpty fields "links")
  let joined ← links (place.field "links") known [] linkEntries
  return { path, id := idText? (fields.lookup "id"), nodes := known, links := joined }

/-- The patches of a project. -/
def patches (place : Place) : Members → Except Failure (List Patch)
  | [] => .ok []
  | (path, item) :: rest => do
    let p ← patch (place.key (.str path)) path item
    let others ← patches place rest
    return p :: others

/-! ## Node types -/

/-- The direction that a value names; only a text or a scalar can be looked up. -/
def direction (place : Place) (v : Value) : Except Failure Direction :=
  match Label.ofValue v with
  | .error fault => .error (.fault fault)
  | .ok _ => demand (v.text?.bind Direction.ofName?) (place.field "direction") (.mustBe .direction)

/-- One pin under its key. -/
def pin (place : Place) (key : String) (item : Value) : Except Failure Pin := do
  let fields ← demand item.members? place .notAnObject
  let side ← demand (fields.lookup "direction") place (.missingField "direction")
  let side ← direction place side
  let type ← optional fields place "type" anyType .text Value.text?
  let variadic ← optional fields place "variadic" false .truthValue Value.bool?
  return { key := (fields.lookup "key").getD (.str key), direction := side, type,
           default? := fields.lookup "default", variadic }

/-- The pins of a node type. -/
def pins (place : Place) : Members → Except Failure (List (String × Pin))
  | [] => .ok []
  | (key, item) :: rest => do
    let p ← pin (place.key (.str key)) key item
    let others ← pins place rest
    return (key, p) :: others

/-- The implementation texts of a node type. -/
def templates (place : Place) : Members → Except Failure (List (String × String))
  | [] => .ok []
  | (backend, item) :: rest => do
    let text ← demand item.text? (place.key (.str backend)) (.mustBe .text)
    let others ← templates place rest
    return (backend, text) :: others

/-- One node type under its id. -/
def nodeType (place : Place) (id : String) (item : Value) : Except Failure NodeType := do
  let fields ← demand item.members? place .notAnObject
  let pure ← optional fields place "pure" false .truthValue Value.bool?
  let raises ← optional fields place "raises" false .truthValue Value.bool?
  let pinFields ← demand (orEmpty fields "pins").members? (place.field "pins") (.mustBe .object)
  let declared ← pins (place.field "pins") pinFields
  let texts ← demand (orEmpty fields "impl").members? (place.field "impl") (.mustBe .object)
  let texts ← templates (place.field "impl") texts
  return { id, pins := declared, pure, raises, templates := texts }

/-- The node types of a catalog. -/
def catalog (place : Place) : Members → Except Failure Catalog
  | [] => .ok []
  | (id, item) :: rest => do
    let t ← nodeType (place.key (.str id)) id item
    let others ← catalog place rest
    return t :: others

/-! ## Projects -/

/-- The project that a document describes, whatever numbers its pin keys hold. -/
def checked (document : Value) : Except Failure Project := do
  let fields ← demand document.members? [] (.mustBe .topObject)
  let name ← optional fields [] "name" "" .text Value.text?
  let patchFields ← demand (orEmpty fields "patches").members? [.field "patches"]
    (.mustBe .objectByPath)
  let patches ← patches [.field "patches"] patchFields
  let typeFields ← demand (orEmpty fields "nodeTypes").members? [.field "nodeTypes"]
    (.mustBe .objectByType)
  let catalog ← catalog [.field "nodeTypes"] typeFields
  return { name, patches, catalog }

/-- The items of a collection, of either form. -/
def itemsIn : Value → List Value
  | .obj members => members.map (·.2)
  | .arr items => items
  | _ => []

/-- The pin keys of a link, first end first. -/
def linkKeys (link : Value) : List String :=
  (itemsIn ((link.member? "pins").getD .null)).filterMap fun e => (e.member? "pinKey").bind Value.text?

/-- The pin keys of all links of a document, in its order. -/
def pinKeys (document : Value) : List String :=
  (itemsIn ((document.member? "patches").getD .null)).flatMap fun patch =>
    (itemsIn ((patch.member? "links").getD .null)).flatMap linkKeys

/-- A pin key whose number is too long to be read. -/
def keyFault? (key : String) : Option Fault :=
  match PinRef.read key with
  | .ok _ => none
  | .error fault => some fault

/-- The project that a document describes. -/
def project (document : Value) : Except Failure Project := do
  let project ← checked document
  match (pinKeys document).findSome? keyFault? with
  | some fault => .error (.fault fault)
  | none => return project

/-! ## Texts of documents -/

/-- What is read of a document: values lie in each other so deep, and numbers have so many digits. -/
def limits : Json.Limits := ⟨some 990, some Text.Numeral.limit⟩

/-- The document that a text holds. -/
def ofText (path text : String) : Except Failure Value :=
  match Json.read limits text with
  | .ok document => .ok document
  | .error (.malformed _) => .error (.notJson path)
  | .error (.tooManyDigits count) => .error (.fault (.tooManyDigits count))
  | .error (.tooDeep isArray) => .error (.fault (.tooDeep isArray))

/-- The document that the bytes of a file hold, as UTF-8 text. -/
def ofBytes (path : String) (bytes : ByteArray) : Except Failure Value :=
  match Text.ofUtf8? bytes with
  | none => .error (.notJson path)
  | some text => ofText path text

end Document

end Patchbay
