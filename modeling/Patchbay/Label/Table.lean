import Patchbay.Label.Order

/-!
# Tables keyed by labels

Tables and sets of labels, in order of arrival. Labels that are one key share an entry, which keeps
the label it came with.
-/

namespace Patchbay

/-- A table keyed by labels, in order of arrival. -/
abbrev Table (α : Type) := List (Label × α)

namespace Table

variable {α : Type}

/-- The entry of a label. -/
def get? (table : Table α) (key : Label) : Option α :=
  (table.find? fun entry => entry.1.same key).map (·.2)

/-- The table with the entry of `key` set: a key that is there keeps its place and its label. -/
def put (key : Label) (a : α) : Table α → Table α
  | [] => [(key, a)]
  | (k, b) :: rest => if k.same key then (k, a) :: rest else (k, b) :: put key a rest

/-- The entries as members of a JSON object, in ascending order of their labels. -/
def sortedMembers (value : α → Value) (table : Table α) : Except Fault Members := do
  let entries ← Label.sortOn (·.1) table
  return entries.map fun (key, a) => (key.keyText, value a)

end Table

/-- A set of labels, in order of arrival. -/
abbrev LabelSet := List Label

namespace LabelSet

/-- Whether the set holds the label. -/
def holds (set : LabelSet) (key : Label) : Bool := set.any (·.same key)

/-- The set with one more label. -/
def insert (set : LabelSet) (key : Label) : LabelSet := if set.holds key then set else set ++ [key]

/-- The set with more labels. -/
def insertAll (set : LabelSet) (keys : List Label) : LabelSet := keys.foldl insert set

/-- The labels in ascending order. -/
def sorted (set : LabelSet) : Except Fault (List Label) := Label.sortOn id set

end LabelSet

end Patchbay
