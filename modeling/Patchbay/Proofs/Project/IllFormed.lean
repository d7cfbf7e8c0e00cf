import Patchbay.Proofs.Project.Closure

/-!
# Ill-formed patches

What makes a patch ill-formed where it stands in a closure: a link that ends where its node has no
pin (`Misplaced`), a link between two pins of one direction (`BadLink`), or an instance on which a
link or a literal value names no terminal of the patch inside (`Dangling`). All of it is said about
the patch alone, not about a walk through it.
-/

namespace Patchbay.Closure

variable (closure : Closure)

/-- The end is on a pin of a known direction: the boundary of an instance, or a pin of a primitive
type. -/
def Points (patch : Patch) (e : LinkEnd) (d : Direction) : Prop :=
  ∃ node ∈ patch.nodes, node.id = e.node ∧
    ((∃ inner, closure.Instantiates node.type inner) ∧ (∃ terminal, e.pin = .boundary d terminal) ∨
      ∃ p, closure.kinds.kind node.type = .ok (.primitive p) ∧
        ∃ pin, p.pin? e.pin.key = some pin ∧ pin.direction = d)

/-- The end is on no pin: on an instance off its boundary, or on a primitive type with pins of
its own that has none of this key. -/
def Misplaced (patch : Patch) (e : LinkEnd) : Prop :=
  ∃ node ∈ patch.nodes, node.id = e.node ∧
    ((∃ inner, closure.Instantiates node.type inner) ∧ (∃ key, e.pin = .named key) ∨
      ∃ p, closure.kinds.kind node.type = .ok (.primitive p) ∧
        (p.entry ≠ none ∨ p.terminal ≠ none) ∧ p.pin? e.pin.key = none)

/-- The link has an end on no pin, or joins two pins of one direction. -/
def BadLink (patch : Patch) (link : Link) : Prop :=
  (∃ e ∈ link.ends, closure.Misplaced patch e) ∨
    ∃ d, closure.Points patch link.first d ∧ closure.Points patch link.second d

/-- The node of this id is a terminal of this direction. -/
def Names (inner : Patch) (d : Direction) (terminal : Nat) : Prop :=
  ∃ node ∈ inner.nodes, node.id = terminal ∧
    ∃ p t, closure.kinds.kind node.type = .ok (.primitive p) ∧ p.terminal = some t ∧
      t.direction = d

/-- The node is an instance on whose boundary a link or a literal value names no terminal. -/
def Dangling (patch : Patch) (node : Node) : Prop :=
  ∃ inner, closure.Instantiates node.type inner ∧ ∃ d terminal,
    ((∃ link ∈ patch.links, ∃ e ∈ link.ends, e.node = node.id ∧ e.pin = .boundary d terminal) ∨
      ∃ literal ∈ node.properties, PinRef.parse literal.1 = .boundary d terminal) ∧
    ¬ closure.Names inner d terminal

/-- The patch has a bad link or a dangling instance. -/
def IllFormed (patch : Patch) : Prop :=
  (∃ link ∈ patch.links, closure.BadLink patch link) ∨
    ∃ node ∈ patch.nodes, closure.Dangling patch node

/-- The numbers in the link ids of the patch, and in the keys of literal values on its instances,
are short enough to be read. -/
structure Readable (patch : Patch) : Prop where
  links : ∀ link ∈ patch.links, Link.idFault? link.id = none
  literals : ∀ node ∈ patch.nodes, (∃ inner, closure.Instantiates node.type inner) →
    ∀ literal ∈ node.properties, Document.keyFault? literal.1 = none

end Patchbay.Closure
