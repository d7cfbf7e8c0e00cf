import Patchbay.Flat.Binding
import Patchbay.Proofs.Shuffled

/-!
# Two typings

Two graphs may differ in what the typing of terminals never looks at: a `Typing.Likeness` says which
nodes and which primitives correspond, and that the typing finds no difference in them. Typings that
are alike take every step together, so the terminals of both graphs are typed, with the same types,
or those of none are (`Typing.Like.resolve`). Nodes that are bound together under typings that are
alike are bound together by the whole graph (`Typing.Like.bindAll`), and kinds whose primitives
correspond give the same implementation texts (`templatesOf_together`).
-/

namespace Patchbay

/-- Which nodes and primitives of two typings correspond. Nodes that do have one id and literals of
one type; primitives that do are the same terminal, with the same types of pins. -/
structure Typing.Likeness where
  node : FlatNode → FlatNode → Prop
  primitive : Primitive → Primitive → Prop
  id_eq : ∀ {n n' : FlatNode}, node n n' → n.id = n'.id
  literalType_eq : ∀ {n n' : FlatNode}, node n n' →
    (n.properties.lookup Terminal.pinKey).map literalType =
      (n'.properties.lookup Terminal.pinKey).map literalType
  terminal_eq : ∀ {p q : Primitive}, primitive p q → p.terminal = q.terminal
  pinType_eq : ∀ {p q : Primitive}, primitive p q → ∀ key,
    ((p.pin? key).bind fun pin => definite pin.type) =
      (q.pin? key).bind fun pin => definite pin.type
  declaredType_eq : ∀ {p q : Primitive}, primitive p q → ∀ terminal,
    Typing.declaredType p terminal = Typing.declaredType q terminal

/-- Two typings of graphs whose nodes correspond, with the same links, have found the same types. -/
structure Typing.Like (L : Typing.Likeness) (t other : Typing) : Prop where
  kinds : ∀ {node node' : FlatNode}, L.node node node' →
    Together L.primitive (t.kinds.primitive node.type) (other.kinds.primitive node'.type)
  nodes : List.Forall₂ L.node t.graph.nodes other.graph.nodes
  links_eq : t.graph.links = other.graph.links
  types_eq : t.types = other.types

namespace Typing.Like

variable {L : Typing.Likeness} {t other : Typing} (h : Typing.Like L t other)
include h

theorem node (id : Int) : Together L.node (t.node id) (other.node id) := by
  have hnode : Option.Rel L.node (t.graph.node? id) (other.graph.node? id) :=
    Matched.find? h.nodes fun _ _ hn => by rw [L.id_eq hn]
  unfold Typing.node
  generalize t.graph.node? id = found at hnode
  generalize other.graph.node? id = found' at hnode
  cases hnode with
  | none => exact .error
  | some hn => exact .ok hn

theorem primitive (id : Int) : Together L.primitive (t.primitive id) (other.primitive id) :=
  (h.node id).bind fun _ _ hn => h.kinds hn

theorem typeOf_eq (id : Int) : t.typeOf id = other.typeOf id := by
  rw [typeOf, typeOf, h.types_eq]

theorem farEnds_eq (id : Int) : farEnds t.graph id = farEnds other.graph id := by
  unfold farEnds FlatGraph.incoming FlatGraph.outgoing
  rw [h.links_eq]

theorem keys_eq : t.keys = other.keys := by rw [keys, keys, h.types_eq]

theorem untyped_eq : t.untyped = other.untyped := by rw [untyped, untyped, h.types_eq]

theorem set (id : Int) (type : Option String) :
    Typing.Like L (t.set id type) (other.set id type) :=
  ⟨h.kinds, h.nodes, h.links_eq, congrArg (putType id type) h.types_eq⟩

/-! ## Deduction -/

theorem farPin (id : Int) (pin : String) :
    Together Eq (t.farPin id pin) (other.farPin id pin) := by
  refine (h.primitive id).bind fun p q hp => ?_
  rw [Primitive.isTerminal, Primitive.isTerminal, L.terminal_eq hp, L.pinType_eq hp, h.typeOf_eq]
  exact Together.same _

theorem farPins (ends : List (Int × String)) :
    Together Eq (t.farPins ends) (other.farPins ends) := by
  induction ends with
  | nil => exact .ok rfl
  | cons far rest ih =>
    refine (h.farPin far.1 far.2).bind fun found _ hfound => ih.bind fun others _ hothers => ?_
    subst hfound hothers
    exact .ok rfl

theorem deduce (id : Int) : Together Eq (t.deduce id) (other.deduce id) := by
  unfold Typing.deduce Typing.candidates
  rw [← h.farEnds_eq]
  exact (h.farPins _).map fun _ _ hfound => congrArg choose hfound

omit h in
theorem round {t other : Typing} (h : Typing.Like L t other) (ids : List Int) :
    Together (Typing.Like L) (t.round ids) (other.round ids) := by
  induction ids generalizing t other with
  | nil => exact .ok h
  | cons id rest ih =>
    have hdeduce := h.deduce id
    unfold Typing.round
    rw [← h.typeOf_eq]
    split
    · exact ih h
    · generalize t.deduce id = found at hdeduce
      generalize other.deduce id = found' at hdeduce
      cases hdeduce with
      | error _ => exact .error
      | @ok type _ heq =>
        subst heq
        cases type with
        | none => exact ih h
        | some type => exact ih (h.set id (some type))

omit h in
theorem settleWithin {t other : Typing} (h : Typing.Like L t other) (fuel : Nat) :
    Together (Typing.Like L) (t.settleWithin fuel) (other.settleWithin fuel) := by
  induction fuel generalizing t other with
  | zero => exact .ok h
  | succ fuel ih =>
    unfold Typing.settleWithin
    rw [← h.keys_eq, ← h.untyped_eq]
    refine (h.round t.keys).bind fun next next' hnext => ?_
    rw [← hnext.untyped_eq]
    split
    · exact .ok hnext
    · exact ih hnext

theorem settle : Together (Typing.Like L) t.settle other.settle := by
  unfold Typing.settle
  rw [← h.untyped_eq]
  exact h.settleWithin _

/-! ## All terminals -/

omit h in
theorem declare {t other : Typing} (h : Typing.Like L t other) {nodes nodes' : List FlatNode}
    (hnodes : List.Forall₂ L.node nodes nodes') :
    Together (Typing.Like L) (t.declare nodes) (other.declare nodes') := by
  induction hnodes generalizing t other with
  | nil => exact .ok h
  | @cons node node' rest rest' hn _ ih =>
    have hprimitive := h.primitive node.id
    unfold Typing.declare
    rw [← L.id_eq hn]
    generalize t.primitive node.id = found at hprimitive
    generalize other.primitive node.id = found' at hprimitive
    cases hprimitive with
    | error _ => exact .error
    | @ok p q hp =>
      dsimp only
      rw [← L.terminal_eq hp]
      cases p.terminal with
      | none => exact ih h
      | some terminal =>
        dsimp only
        rw [L.declaredType_eq hp]
        exact ih (h.set node.id _)

theorem meetsPlainPin (ends : List (Int × String)) :
    Together Eq (t.meetsPlainPin ends) (other.meetsPlainPin ends) := by
  induction ends with
  | nil => exact .ok rfl
  | cons far rest ih =>
    refine (h.farPin far.1 far.2).bind fun found _ hfound => ?_
    subst hfound
    split
    · exact ih
    · exact .ok rfl

omit h in
theorem widen {t other : Typing} (h : Typing.Like L t other) (ids : List Int) :
    Together (Typing.Like L) (t.widen ids) (other.widen ids) := by
  induction ids generalizing t other with
  | nil => exact .ok h
  | cons id rest ih =>
    have hmeets := h.meetsPlainPin (farEnds t.graph id)
    unfold Typing.widen
    rw [← h.typeOf_eq, ← h.farEnds_eq]
    split
    · exact ih h
    · generalize t.meetsPlainPin (farEnds t.graph id) = found at hmeets
      generalize other.meetsPlainPin (farEnds t.graph id) = found' at hmeets
      cases hmeets with
      | error _ => exact .error
      | @ok meets _ heq =>
        subst heq
        cases meets with
        | true => exact ih (h.set id (some anyType))
        | false => exact ih h

omit h in
theorem close {t other : Typing} (h : Typing.Like L t other) (ids : List Int) :
    Together (Typing.Like L) (t.close ids) (other.close ids) := by
  induction ids generalizing t other with
  | nil => exact .ok h
  | cons id rest ih =>
    have hnode := h.node id
    unfold Typing.close
    rw [← h.typeOf_eq, ← h.farEnds_eq]
    split
    · exact ih h
    · generalize t.node id = found at hnode
      generalize other.node id = found' at hnode
      cases hnode with
      | error _ => exact .error
      | @ok node node' hn =>
        have hliteral := L.literalType_eq hn
        dsimp only
        split
        · exact .error
        · generalize node.properties.lookup Terminal.pinKey = value at hliteral
          generalize node'.properties.lookup Terminal.pinKey = value' at hliteral
          cases value with
          | none =>
            obtain rfl := Option.map_eq_none_iff.mp hliteral.symm
            exact ih h
          | some v =>
            obtain ⟨v', rfl, htype⟩ := Option.map_eq_some_iff.mp hliteral.symm
            dsimp only
            rw [htype]
            exact ih (h.set id _)

/-- The terminals of both graphs are typed, with the same types, or those of none are. -/
theorem resolve : Together (Typing.Like L) t.resolve other.resolve := by
  refine (h.declare h.nodes).bind fun t t' ht => ?_
  refine ht.settle.bind fun t t' ht => ?_
  rw [← ht.keys_eq]
  refine (ht.widen t.keys).bind fun t t' ht => ?_
  refine ht.settle.bind fun t t' ht => ?_
  rw [← ht.keys_eq]
  exact ht.close t.keys

/-! ## Bound nodes -/

theorem linkedPins_eq (id : Int) :
    BoundNode.linkedPins t.graph id = BoundNode.linkedPins other.graph id := by
  rw [BoundNode.linkedPins, BoundNode.linkedPins, FlatGraph.incoming, FlatGraph.incoming,
    h.links_eq]

theorem outLinksOf_eq (id : Int) :
    BoundNode.outLinksOf t.graph id = BoundNode.outLinksOf other.graph id := by
  rw [BoundNode.outLinksOf, BoundNode.outLinksOf, FlatGraph.outgoing, FlatGraph.outgoing,
    h.links_eq]

omit h in
theorem ofNodes {B : BoundNode → BoundNode → Prop} {nodes nodes' : List FlatNode}
    (hnodes : List.Forall₂ L.node nodes nodes')
    (hbound : ∀ node ∈ nodes, ∀ node', L.node node node' →
      Together B (BoundNode.ofNode t node) (BoundNode.ofNode other node')) :
    Together (List.Forall₂ B) (BoundNode.ofNodes t nodes) (BoundNode.ofNodes other nodes') := by
  induction hnodes with
  | nil => exact .ok .nil
  | cons hn _ ih =>
    obtain ⟨hfirst, hrest⟩ := List.forall_mem_cons.mp hbound
    refine (hfirst _ hn).bind fun bound bound' hbound => ?_
    exact (ih hrest).bind fun others others' hothers => .ok (.cons hbound hothers)

/-- Where nodes that correspond are bound together once the terminals are typed, all nodes are. -/
theorem bindAll {B : BoundNode → BoundNode → Prop}
    (hbound : ∀ typed typed', t.resolve = .ok typed → Typing.Like L typed typed' →
      ∀ node ∈ typed.graph.nodes, ∀ node', L.node node node' →
        Together B (BoundNode.ofNode typed node) (BoundNode.ofNode typed' node')) :
    Together (fun bound bound' => List.Forall₂ B bound.2 bound'.2) t.bindAll other.bindAll := by
  refine h.resolve.results.bind fun t t' ⟨ht, hresolve, _⟩ => ?_
  have hsorted : List.Forall₂ L.node (t.graph.nodes.mergeSort fun a b => a.id ≤ b.id)
      (t'.graph.nodes.mergeSort fun a b => a.id ≤ b.id) :=
    Matched.mergeSort ht.nodes fun a b a' b' ha hb => by rw [L.id_eq ha, L.id_eq hb]
  have hnodes := ofNodes (B := B) hsorted fun node hnode =>
    hbound t t' hresolve ht node (List.mem_mergeSort.mp hnode)
  generalize BoundNode.ofNodes t _ = bound at hnodes
  generalize BoundNode.ofNodes t' _ = bound' at hnodes
  cases hnodes with
  | error _ => exact .error trivial
  | ok hnodes => exact .ok hnodes

end Typing.Like

/-! ## Implementations -/

/-- Kinds whose primitives correspond give the same implementation texts, where the declarations of
primitives that correspond do. -/
theorem templatesOf_together {P : Primitive → Primitive → Prop} {kinds kinds' : Kinds}
    {backends : List Value} (h : ∀ type, Together P (kinds.primitive type) (kinds'.primitive type))
    (hentry : ∀ {p q}, P p q → (p.entry.map fun entry => chooseTemplate entry.templates backends) =
      q.entry.map fun entry => chooseTemplate entry.templates backends) (types : List String) :
    Together Eq (templatesOf kinds backends types) (templatesOf kinds' backends types) := by
  induction types with
  | nil => exact .ok rfl
  | cons type rest ih =>
    refine (h type).bind fun p q hpq => ?_
    have htemplate := hentry hpq
    dsimp only
    generalize p.entry = entry at htemplate
    generalize q.entry = entry' at htemplate
    cases entry with
    | none =>
      obtain rfl := Option.map_eq_none_iff.mp htemplate.symm
      refine (Together.same (pure none)).bind fun text _ htext => ih.bind fun others _ hothers => ?_
      rw [htext, hothers]
      exact Together.same _
    | some entry =>
      obtain ⟨entry', rfl, hchosen⟩ := Option.map_eq_some_iff.mp htemplate.symm
      dsimp only at hchosen ⊢
      rw [← hchosen]
      refine (Together.same _).bind fun text _ htext => ih.bind fun others _ hothers => ?_
      rw [htext, hothers]
      exact Together.same _

end Patchbay
