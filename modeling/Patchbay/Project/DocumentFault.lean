import Patchbay.Json.Display

/-!
# Faults of documents

Where a document breaks the structure of a project, and how. The place is the way to the value
from the top of the document; the message is the place and the complaint about it.
-/

namespace Patchbay

/-- One step of the way into a document. -/
inductive Step where
  /-- A field that the structure names. -/
  | field (name : String)
  /-- An entry of a collection, by its key. -/
  | key (key : Value)
  /-- An item of an array, by its place. -/
  | index (i : Nat)

/-- The way to a value from the top of the document. -/
abbrev Place := List Step

namespace Place

/-- The way to a field of the value at the place. -/
def field (place : Place) (name : String) : Place := place ++ [.field name]

/-- The way to an entry of the collection at the place. -/
def key (place : Place) (key : Value) : Place := place ++ [.key key]

/-- The way to an item of the array at the place. -/
def index (place : Place) (i : Nat) : Place := place ++ [.index i]

/-- The steps after the first. -/
def stepsText : Place → String
  | [] => ""
  | .field name :: rest => "." ++ name ++ stepsText rest
  | .key key :: rest => "['" ++ key.display ++ "']" ++ stepsText rest
  | .index i :: rest => "[" ++ Text.Numeral.natText i ++ "]" ++ stepsText rest

/-- The text of a place; the document itself is the project. -/
def text : Place → String
  | [] => "project JSON"
  | .field name :: rest => name ++ stepsText rest
  | place => stepsText place

end Place

/-- What a value has to be. -/
inductive Shape where
  | topObject
  | text
  | nonEmptyText
  | truthValue
  | integer
  | arity
  | object
  | objectByPath
  | objectByType
  | objectOrList
  | endpoints
  | direction

/-- The words for a shape. -/
def Shape.words : Shape → String
  | topObject => "a JSON object at the top level"
  | text => "a string"
  | nonEmptyText => "a non-empty string"
  | truthValue => "a boolean"
  | integer => "an integer"
  | arity => "an integer >= 1"
  | object => "an object"
  | objectByPath => "an object keyed by patch path"
  | objectByType => "an object keyed by type id"
  | objectOrList => "an object or a list"
  | endpoints => "a list of exactly two endpoints"
  | direction => "one of ['input', 'output']"

/-- A complaint about the value at a place. -/
inductive Complaint where
  /-- The value has another shape. -/
  | mustBe (shape : Shape)
  /-- The item is no object. -/
  | notAnObject
  /-- The entry of a list is no object. -/
  | entryNotAnObject
  /-- The node is no object. -/
  | nodeNotAnObject
  /-- The link is no object. -/
  | linkNotAnObject
  /-- The object lacks a field. -/
  | missingField (name : String)
  /-- The key of a node is no integer. -/
  | keyNotAnInteger
  /-- The id of a node differs from its key. -/
  | idMismatch
  /-- Another node has the same number. -/
  | duplicateNode (key : Value)
  /-- The end of a link names no node of the patch. -/
  | unknownNode (id : Value)

/-- The text of a complaint, written after the place. -/
def Complaint.text : Complaint → String
  | mustBe shape => " must be " ++ shape.words
  | notAnObject => ": must be a JSON object"
  | entryNotAnObject => ": each entry must be a JSON object"
  | nodeNotAnObject => ": each node must be a JSON object"
  | linkNotAnObject => ": each link must be a JSON object"
  | missingField name => ": missing required field '" ++ name ++ "'"
  | keyNotAnInteger => ": node ids must be integers"
  | idMismatch => " does not match its key"
  | duplicateNode key => ": duplicate node id '" ++ key.display ++ "'"
  | unknownNode id => ": nodeId '" ++ id.display ++ "' not found in nodes"

/-- A place where a document breaks the structure of a project. -/
structure DocumentFault where
  place : Place
  complaint : Complaint

/-- The message of a fault. -/
def DocumentFault.message (fault : DocumentFault) : String :=
  fault.place.text ++ fault.complaint.text

end Patchbay
