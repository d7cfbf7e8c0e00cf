import Patchbay.Proofs.Flat.Flattening
import Patchbay.Proofs.Shuffled

/-!
# Two runs of the inlining

Two closures may differ in what the inlining never looks at: the order of the nodes of a patch, the
spelling of its links, the order of literal values, the names of patches. A `Likeness` says which
failures, literal values, edges and names count as alike. Closures that are alike are flattened alike
(`Closure.Like.flatten`): each step of one run has its counterpart in the other, so both succeed,
with graphs that are alike, or both fail.
-/

namespace Patchbay

namespace Inlining

/-- The edges of the links of a patch, by ascending link id. -/
def linkEdges (kinds : Kinds) (patch : Patch) (places : Places) : Except Failure (List Edge) :=
  match patch.sortedLinks with
  | .error fault => .error (.fault fault)
  | .ok links => links.mapM (placedEdge kinds patch places)

theorem addEdges_agree (patch : Patch) (places : Places) (c : Inlining) (links : List Link) :
    Agree (fun stopped failure => stopped.failure = failure)
      (fun c' edges => c' = { c with edges := c.edges ++ edges })
      (addEdges patch places c links) (links.mapM (placedEdge c.closure.kinds patch places)) := by
  induction links generalizing c with
  | nil => exact .ok (by simp)
  | cons link rest ih =>
    rw [List.mapM_cons, addEdges]
    cases placedEdge c.closure.kinds patch places link with
    | error failure => exact .error rfl
    | ok edge =>
      have hrest := ih { c with edges := c.edges ++ [edge] }
      change Agree _ _ (addEdges patch places { c with edges := c.edges ++ [edge] } rest)
        (rest.mapM (placedEdge c.closure.kinds patch places) >>= fun edges => pure (edge :: edges))
      generalize addEdges patch places { c with edges := c.edges ++ [edge] } rest = left at hrest ⊢
      generalize rest.mapM (placedEdge c.closure.kinds patch places) = right at hrest ⊢
      cases hrest with
      | error h => exact .error h
      | ok h => exact .ok (by rw [h, List.append_assoc, List.singleton_append])

/-- A patch adds the edges of its links. -/
theorem addLinks_agree (c : Inlining) (patch : Patch) (places : Places) :
    Agree (fun stopped failure => stopped.failure = failure)
      (fun c' edges => c' = { c with edges := c.edges ++ edges })
      (addLinks c patch places) (linkEdges c.closure.kinds patch places) := by
  unfold addLinks linkEdges
  cases patch.sortedLinks with
  | error fault => exact .error rfl
  | ok links => exact addEdges_agree patch places c links

theorem linkEdges_congr (kinds : Kinds) {patch : Patch} {places places' : Places}
    (h : ∀ id, place places id = place places' id) :
    linkEdges kinds patch places = linkEdges kinds patch places' := by
  have hplaced : placedEdge kinds patch places = placedEdge kinds patch places' := by
    funext link
    unfold placedEdge
    simp only [h]
  unfold linkEdges
  rw [hplaced]

end Inlining

/-! ## What is alike -/

/-- What two runs have in common: how the failures, the literal values, the edges and the names of
types of one correspond to those of the other. -/
structure Likeness where
  failure : Failure → Failure → Prop
  value : Value → Value → Prop
  members : Members → Members → Prop
  edges : List Edge → List Edge → Prop
  /-- What a type of the one is called in the other. A patch is a type. -/
  name : String → String
  failure_refl : ∀ f, failure f f
  failure_trans : ∀ {f g h : Failure}, failure f g → failure g h → failure f h
  failure_noTerminal : ∀ owner direction terminal path,
    failure (.noTerminal owner direction terminal path)
      (.noTerminal owner direction terminal (name path))
  /-- A literal value may be set on both sides. -/
  put : ∀ {m m' : Members} {v v' : Value} (key : String), members m m' → value v v' →
    members (m.put key v) (m'.put key v')
  sorted : ∀ {m m' : Members}, members m m' →
    List.Forall₂ (Keyed.Corresponds value) m.sorted m'.sorted
  edges_nil : edges [] []
  edges_append : ∀ {l l' m m' : List Edge}, edges l l' → edges m m' → edges (l ++ m) (l' ++ m')
  edges_mem : ∀ {l l' : List Edge}, edges l l' → ∀ edge, edge ∈ l ↔ edge ∈ l'
  edges_splice : ∀ {l l' : List Edge} (kinds : Kinds) (patch : Patch) (places : Inlining.Places)
    (owner : Int), edges l l' →
    Agree failure edges (Inlining.spliceEdges kinds patch places owner l)
      (Inlining.spliceEdges kinds patch places owner l')

/-- Runs on the same but for the names of types, which may fail in ways that correspond. -/
def Likeness.same (failure : Failure → Failure → Prop) (name : String → String)
    (refl : ∀ f, failure f f) (trans : ∀ f g h, failure f g → failure g h → failure f h)
    (noTerminal : ∀ owner direction terminal path,
      failure (.noTerminal owner direction terminal path)
        (.noTerminal owner direction terminal (name path))) : Likeness where
  failure := failure
  value := Eq
  members := Eq
  edges := Eq
  name := name
  failure_refl := refl
  failure_trans := trans _ _ _
  failure_noTerminal := noTerminal
  put key hm hv := by rw [hm, hv]
  sorted hm := by
    rw [hm, List.forall₂_same]
    exact fun _ _ => ⟨rfl, rfl⟩
  edges_nil := rfl
  edges_append h h' := by rw [h, h']
  edges_mem h _ := by rw [h]
  edges_splice _ _ _ _ h := by
    subst h
    exact Agree.same refl

/-- Two nodes differ in the name of their type and in their literal values at most, which are
alike. -/
structure Node.Like (L : Likeness) (node other : Node) : Prop where
  id_eq : node.id = other.id
  type_eq : L.name node.type = other.type
  arity_eq : node.arity = other.arity
  properties : L.members node.properties other.properties

structure FlatNode.Like (L : Likeness) (flat other : FlatNode) : Prop where
  id_eq : flat.id = other.id
  type_eq : L.name flat.type = other.type
  arity_eq : flat.arity = other.arity
  debugId_eq : flat.debugId = other.debugId
  properties : L.members flat.properties other.properties

/-- Two primitives say the same as terminals and of the directions of pins. -/
structure Primitive.Like (p q : Primitive) : Prop where
  terminal_eq : p.terminal = q.terminal
  hasSignature_eq : p.hasSignature = q.hasSignature
  direction?_eq : ∀ key, p.direction? key = q.direction? key

theorem Primitive.Like.refl (p : Primitive) : Primitive.Like p p := ⟨rfl, rfl, fun _ => rfl⟩

/-- Two kinds are the same patch, or primitives that are alike. -/
inductive Kind.Like (L : Likeness) : Kind → Kind → Prop
  | subPatch (path : String) : Like L (.subPatch path) (.subPatch (L.name path))
  | primitive {p q : Primitive} (h : Primitive.Like p q) : Like L (.primitive p) (.primitive q)

/-- Every type is of kinds that are alike. -/
def Kinds.Like (L : Likeness) (kinds kinds' : Kinds) : Prop :=
  ∀ type, Agree L.failure (Kind.Like L) (kinds.kind type) (kinds'.kind (L.name type))

/-- The nodes of one id of two patches are alike. -/
def Patch.SameNodes (L : Likeness) (patch other : Patch) : Prop :=
  ∀ id, Option.Rel (Node.Like L) (patch.node? id) (other.node? id)

/-- Two patches have nodes that are alike, and the links of both become edges that are alike. -/
structure Patch.Like (L : Likeness) (kinds kinds' : Kinds) (patch other : Patch) : Prop where
  path_eq : L.name patch.path = other.path
  ids_perm : (patch.nodes.map Node.id).Perm (other.nodes.map Node.id)
  node? : Patch.SameNodes L patch other
  sortedNodes : List.Forall₂ (Node.Like L) patch.sortedNodes other.sortedNodes
  links : ∀ places, Agree L.failure L.edges (Inlining.linkEdges kinds patch places)
    (Inlining.linkEdges kinds' other places)

structure Closure.Like (L : Likeness) (closure other : Closure) : Prop where
  kinds : closure.kinds.Like L other.kinds
  entry : Patch.Like L closure.kinds other.kinds closure.entry other.entry
  length_eq : closure.patches.length = other.patches.length
  patch : ∀ path, Agree L.failure (Patch.Like L closure.kinds other.kinds) (closure.patch path)
    (other.patch (L.name path))

/-- Two graphs under construction are alike. -/
structure Inlining.Like (L : Likeness) (c d : Inlining) : Prop where
  closure : Closure.Like L c.closure d.closure
  nodes : List.Forall₂ (FlatNode.Like L) c.nodes d.nodes
  edges : L.edges c.edges d.edges
  maxId_eq : c.maxId = d.maxId
  passes_eq : c.passes = d.passes

/-- Two steps stop for failures that are alike. -/
def Inlining.StopsLike (L : Likeness) (stopped other : Stopped Inlining) : Prop :=
  L.failure stopped.failure other.failure

variable {L : Likeness}

/-! ## Patches -/

/-- The patches of one path in two closures that keep the paths. -/
theorem Closure.patch_agree {R : Patch → Patch → Prop} {closure other : Closure}
    (h : List.Forall₂ R closure.patches other.patches) (hpath : ∀ p q, R p q → p.path = q.path)
    (path : String) : Agree Eq R (closure.patch path) (other.patch path) := by
  have hfound : Option.Rel R (closure.patches.find? (·.path = path))
      (other.patches.find? (·.path = path)) :=
    Matched.find? h fun p q hpq => by rw [hpath p q hpq]
  unfold Closure.patch
  generalize closure.patches.find? (·.path = path) = found at hfound
  generalize other.patches.find? (·.path = path) = found' at hfound
  cases hfound with
  | none => exact .error rfl
  | some hp => exact .ok hp

/-- Nodes in another order are sorted alike. -/
theorem Patch.sortedNodes_of_shuffled {patch other : Patch}
    (h : Shuffled (Node.Like L) patch.nodes other.nodes) (hn : (patch.nodes.map Node.id).Nodup) :
    List.Forall₂ (Node.Like L) patch.sortedNodes other.sortedNodes := by
  obtain ⟨between, hmatch, hperm⟩ := h
  have hids : (between.map Node.id).Nodup := by
    rw [← Matched.map_eq hmatch fun _ _ hn => hn.id_eq]
    exact hn
  have hsorted : between.mergeSort (fun a b => a.id ≤ b.id) = other.sortedNodes := by
    refine mergeSort_eq_of_perm hperm ?_ ?_ ?_
    · simp only [decide_eq_true_eq]
      exact fun _ _ _ _ _ _ hab hbc => Int.le_trans hab hbc
    · simp only [decide_eq_true_eq]
      exact fun a _ b _ => Int.le_total a.id b.id
    · simp only [decide_eq_true_eq]
      exact fun a ha b hb hab hba => List.inj_on_of_nodup_map hids ha hb (Int.le_antisymm hab hba)
  rw [← hsorted]
  refine Matched.mergeSort hmatch fun a b a' b' ha hb => ?_
  rw [ha.id_eq, hb.id_eq]

/-- Patches whose nodes stand in another order. -/
theorem Patch.Like.of_shuffled {kinds kinds' : Kinds} {patch other : Patch}
    (hpath : L.name patch.path = other.path) (h : Shuffled (Node.Like L) patch.nodes other.nodes)
    (hn : (patch.nodes.map Node.id).Nodup)
    (hlinks : ∀ places, Agree L.failure L.edges (Inlining.linkEdges kinds patch places)
      (Inlining.linkEdges kinds' other places)) :
    Patch.Like L kinds kinds' patch other where
  path_eq := hpath
  ids_perm := h.map_perm fun _ _ hn => hn.id_eq
  node? := h.find? (fun _ _ hn => hn.id_eq) hn
  sortedNodes := sortedNodes_of_shuffled h hn
  links := hlinks

namespace Patch.Like

variable {kinds kinds' : Kinds} {patch other : Patch} (h : Patch.Like L kinds kinds' patch other)
include h

theorem placesFrom (first : Int) :
    Inlining.placesFrom first patch.sortedNodes = Inlining.placesFrom first other.sortedNodes := by
  have hsorted := h.sortedNodes
  generalize patch.sortedNodes = nodes at hsorted
  generalize other.sortedNodes = nodes' at hsorted
  induction hsorted generalizing first with
  | nil => rfl
  | cons hn _ ih => rw [Inlining.placesFrom, Inlining.placesFrom, hn.id_eq, ih]

theorem greatestId : Inlining.greatestId patch = Inlining.greatestId other := by
  have hmax : ∀ p : Patch, Inlining.greatestId p = (p.nodes.map Node.id).max?.getD 0 := by
    intro p
    unfold Inlining.greatestId
    cases p.nodes.map Node.id with
    | nil => rfl
    | cons id ids => rfl
  rw [hmax, hmax]
  congr 1
  ext greatest
  simp only [List.max?_eq_some_iff, h.ids_perm.mem_iff]

theorem place_ownPlaces (id : Int) :
    Inlining.place (Inlining.ownPlaces patch) id = Inlining.place (Inlining.ownPlaces other) id := by
  have hplace : ∀ p : Patch, Inlining.place (Inlining.ownPlaces p) id =
      if id ∈ p.nodes.map Node.id then .ok id else .error (.fault (.missing (.int id))) := by
    intro p
    split
    · next hmem =>
      obtain ⟨node, hnode, hid⟩ := List.mem_map.mp hmem
      exact Inlining.place_ownPlaces_iff.mpr ⟨rfl, node, hnode, hid⟩
    · next hmem =>
      unfold Inlining.place
      split
      · next global hlookup =>
        have hfound : Inlining.place (Inlining.ownPlaces p) id = .ok global := by
          unfold Inlining.place
          rw [hlookup]
        obtain ⟨_, node, hnode, hid⟩ := Inlining.place_ownPlaces_iff.mp hfound
        exact absurd (List.mem_map.mpr ⟨node, hnode, hid⟩) hmem
      · rfl
  rw [hplace, hplace]
  simp only [h.ids_perm.mem_iff]

theorem terminalPlace (hkinds : kinds.Like L kinds') (places : Inlining.Places) (owner : Int)
    (d : Direction) (terminal : Nat) :
    Agree L.failure Eq (Inlining.terminalPlace kinds patch places owner d terminal)
      (Inlining.terminalPlace kinds' other places owner d terminal) := by
  have hrefusal : L.failure (.noTerminal owner d terminal patch.path)
      (.noTerminal owner d terminal other.path) := h.path_eq ▸ L.failure_noTerminal ..
  have hnode := h.node? terminal
  unfold Inlining.terminalPlace
  generalize patch.node? terminal = found at hnode
  generalize other.node? terminal = found' at hnode
  cases hnode with
  | none => exact .error hrefusal
  | @some node node' hn =>
    have hkind := hkinds node.type
    dsimp only
    rw [← hn.type_eq]
    generalize kinds.kind node.type = kind at hkind
    generalize kinds'.kind (L.name node.type) = kind' at hkind
    cases hkind with
    | error hfail => exact .error hfail
    | ok hkind =>
      cases hkind with
      | subPatch path => exact .error hrefusal
      | primitive hp =>
        dsimp only
        rw [hp.terminal_eq]
        split
        · exact Agree.same L.failure_refl
        · exact .error hrefusal

theorem splice (hkinds : kinds.Like L kinds') (places : Inlining.Places) (owner : Int)
    (e : LinkEnd) :
    Agree L.failure Eq (Inlining.splice kinds patch places owner e)
      (Inlining.splice kinds' other places owner e) := by
  unfold Inlining.splice
  split
  · exact .ok rfl
  · cases e.pin with
    | named key => exact .error (L.failure_refl _)
    | boundary d terminal =>
      refine (h.terminalPlace hkinds places owner d terminal).map fun global _ hglobal => ?_
      rw [hglobal]

theorem spliceEdges (hkinds : kinds.Like L kinds') (places : Inlining.Places) (owner : Int)
    {edges edges' : List Edge} (hedges : L.edges edges edges') :
    Agree L.failure L.edges (Inlining.spliceEdges kinds patch places owner edges)
      (Inlining.spliceEdges kinds' other places owner edges') := by
  have hsame : Agree L.failure Eq (Inlining.spliceEdges kinds patch places owner edges)
      (Inlining.spliceEdges kinds' other places owner edges) := by
    clear hedges
    induction edges with
    | nil => exact .ok rfl
    | cons edge rest ih =>
      refine (h.splice hkinds places owner edge.source).bind fun source _ hsource => ?_
      refine (h.splice hkinds places owner edge.target).bind fun target _ htarget => ?_
      refine ih.bind fun others _ hothers => ?_
      subst hsource htarget hothers
      exact .ok rfl
  refine (hsame.trans (L.edges_splice kinds' other places owner hedges)).imp ?_ ?_
  · rintro _ _ ⟨_, hfirst, hsecond⟩
    exact L.failure_trans hfirst hsecond
  · rintro _ _ ⟨_, rfl, hedges⟩
    exact hedges

end Patch.Like

/-! ## Links -/

namespace Inlining

variable {kinds kinds' : Kinds} {patch other : Patch}

theorem direction_like (h : kinds.Like L kinds') (id id' type : String) (e : LinkEnd) :
    Together Eq (direction kinds id type e) (direction kinds' id' (L.name type) e) := by
  have hkind := h type
  unfold direction
  generalize kinds.kind type = kind at hkind
  generalize kinds'.kind (L.name type) = kind' at hkind
  cases hkind with
  | error _ => exact .error
  | ok hkind =>
    cases hkind with
    | subPatch path =>
      cases e.pin with
      | named key => exact .error
      | boundary d terminal => exact .ok rfl
    | primitive hp =>
      dsimp only
      rw [hp.direction?_eq, hp.hasSignature_eq]
      cases Primitive.direction? _ e.pin.key with
      | some d => exact .ok rfl
      | none =>
        dsimp only
        split
        · exact .error
        · exact .ok rfl

theorem typeIn_like (h : Patch.SameNodes L patch other) (id : Int) :
    Together (fun type type' => L.name type = type') (typeIn patch id) (typeIn other id) := by
  have hnode := h id
  unfold typeIn
  generalize patch.node? id = found at hnode
  generalize other.node? id = found' at hnode
  cases hnode with
  | none => exact .error
  | some hn => exact .ok hn.type_eq

/-- A link between nodes that are alike runs the same way, whatever its id. -/
theorem orient_like (hkinds : kinds.Like L kinds') (hnodes : Patch.SameNodes L patch other)
    {link link' : Link} (hfirst : link.first = link'.first) (hsecond : link.second = link'.second) :
    Together Eq (orient kinds patch link) (orient kinds' other link') := by
  unfold orient
  rw [← hfirst, ← hsecond]
  refine (typeIn_like hnodes link.first.node).bind fun type _ htype => ?_
  subst htype
  refine (direction_like hkinds link.id link'.id type link.first).bind fun first _ hfirst => ?_
  subst hfirst
  refine (typeIn_like hnodes link.second.node).bind fun type _ htype => ?_
  subst htype
  refine (direction_like hkinds link.id link'.id type link.second).bind fun second _ hsecond => ?_
  subst hsecond
  match first, second with
  | some .input, some .input => exact .error trivial
  | some .output, some .output => exact .error trivial
  | some .input, some .output => exact .ok rfl
  | some .output, some .input => exact .ok rfl
  | some .input, none => exact .ok rfl
  | some .output, none => exact .ok rfl
  | none, some .output => exact .ok rfl
  | none, some .input => exact .ok rfl
  | none, none => exact .ok rfl

theorem placedEdge_like (hkinds : kinds.Like L kinds') (hnodes : Patch.SameNodes L patch other)
    (places : Places) {link link' : Link} (hfirst : link.first = link'.first)
    (hsecond : link.second = link'.second) :
    Together Eq (placedEdge kinds patch places link) (placedEdge kinds' other places link') := by
  refine (orient_like hkinds hnodes hfirst hsecond).bind fun edge _ hedge => ?_
  subst hedge
  exact Together.same _

end Inlining

/-! ## Steps -/

namespace Inlining

theorem setProperty_like {flats others : List FlatNode}
    (h : List.Forall₂ (FlatNode.Like L) flats others) (id : Int) (key : String) {v w : Value}
    (hvalue : L.value v w) :
    List.Forall₂ (FlatNode.Like L) (setProperty id key v flats) (setProperty id key w others) := by
  unfold setProperty
  rw [List.forall₂_map_left_iff, List.forall₂_map_right_iff]
  refine h.imp fun flat other hflat => ?_
  by_cases hid : flat.id = id
  · rw [if_pos hid, if_pos (hflat.id_eq.symm.trans hid)]
    exact ⟨hflat.id_eq, hflat.type_eq, hflat.arity_eq, hflat.debugId_eq,
      L.put key hflat.properties hvalue⟩
  · rw [if_neg hid, if_neg (fun h => hid (hflat.id_eq.trans h))]
    exact hflat

theorem putNode_like {flats others : List FlatNode}
    (h : List.Forall₂ (FlatNode.Like L) flats others) {flat other : FlatNode}
    (hflat : FlatNode.Like L flat other) :
    List.Forall₂ (FlatNode.Like L) (putNode flat flats) (putNode other others) := by
  induction h with
  | nil => exact .cons hflat .nil
  | cons hhead hrest ih =>
    rw [putNode, putNode, hhead.id_eq, hflat.id_eq]
    split
    · exact .cons hflat hrest
    · exact .cons hhead ih

theorem putNodes_like {added added' flats others : List FlatNode}
    (hadded : List.Forall₂ (FlatNode.Like L) added added')
    (h : List.Forall₂ (FlatNode.Like L) flats others) :
    List.Forall₂ (FlatNode.Like L) (added.foldl (fun flats flat => putNode flat flats) flats)
      (added'.foldl (fun flats flat => putNode flat flats) others) := by
  induction hadded generalizing flats others with
  | nil => exact h
  | cons hflat _ ih => exact ih (putNode_like h hflat)

theorem copies_like {nodes others : List Node} (h : List.Forall₂ (Node.Like L) nodes others)
    (debugId : String) (first : Int) :
    List.Forall₂ (FlatNode.Like L) (copies debugId first nodes) (copies debugId first others) := by
  induction h generalizing first with
  | nil => exact .nil
  | cons hn _ ih =>
    exact .cons ⟨rfl, hn.type_eq, hn.arity_eq, by rw [hn.id_eq], hn.properties⟩ (ih (first + 1))

variable {c d : Inlining} {patch other : Patch}

theorem addCopies_like (h : Like L c d)
    (hpatch : Patch.Like L c.closure.kinds d.closure.kinds patch other) (debugId : String) :
    Like L (c.addCopies patch debugId) (d.addCopies other debugId) where
  closure := h.closure
  nodes := by
    unfold addCopies
    rw [h.maxId_eq]
    exact putNodes_like (copies_like hpatch.sortedNodes debugId _) h.nodes
  edges := h.edges
  maxId_eq := by
    have hlength := hpatch.ids_perm.length_eq
    rw [List.length_map, List.length_map] at hlength
    unfold addCopies
    rw [h.maxId_eq, hlength]
  passes_eq := h.passes_eq

theorem moveLiterals_like (h : Like L c d)
    (hpatch : Patch.Like L c.closure.kinds d.closure.kinds patch other) (places : Places)
    (owner : Int) {literals literals' : Members}
    (hliterals : List.Forall₂ (Keyed.Corresponds L.value) literals literals') :
    Agree (StopsLike L) (fun c' d' => Like L c' d' ∧ c'.closure = c.closure ∧
        d'.closure = d.closure)
      (moveLiterals patch places owner c literals) (moveLiterals other places owner d literals') := by
  induction hliterals generalizing c d with
  | nil => exact .ok ⟨h, rfl, rfl⟩
  | @cons literal literal' rest rest' hliteral _ ih =>
    obtain ⟨key, v⟩ := literal
    obtain ⟨key', w⟩ := literal'
    obtain ⟨rfl, hvalue⟩ : key = key' ∧ L.value v w := hliteral
    unfold moveLiterals
    cases PinRef.read key with
    | error fault => exact .error (L.failure_refl _)
    | ok ref =>
      cases ref with
      | named name => exact ih h hpatch
      | boundary direction terminal =>
        have hplace := hpatch.terminalPlace h.closure.kinds places owner direction terminal
        dsimp only
        generalize terminalPlace c.closure.kinds patch places owner direction terminal = left
          at hplace
        generalize terminalPlace d.closure.kinds other places owner direction terminal = right
          at hplace
        cases hplace with
        | error hfail => exact .error hfail
        | @ok global _ hglobal =>
          subst hglobal
          have hset := setProperty_like h.nodes global Terminal.pinKey hvalue
          exact ih (c := { c with nodes := setProperty global Terminal.pinKey v c.nodes })
            (d := { d with nodes := setProperty global Terminal.pinKey w d.nodes })
            ⟨h.closure, hset, h.edges, h.maxId_eq, h.passes_eq⟩ hpatch

theorem takeNode_like (h : Like L c d) (id : Int) :
    Agree (StopsLike L) (fun p q => FlatNode.Like L p.1 q.1 ∧ Like L p.2 q.2 ∧
        p.2.closure = c.closure ∧ q.2.closure = d.closure)
      (c.takeNode id) (d.takeNode id) := by
  have hfilter : List.Forall₂ (FlatNode.Like L) (c.nodes.filter (·.id ≠ id))
      (d.nodes.filter (·.id ≠ id)) := by
    refine List.rel_filter (fun a b hab => Bool.eq_iff_iff.mp ?_) h.nodes
    rw [hab.id_eq]
  have hfound : Option.Rel (FlatNode.Like L) (c.nodes.find? (·.id = id))
      (d.nodes.find? (·.id = id)) := Matched.find? h.nodes fun _ _ hab => by rw [hab.id_eq]
  unfold takeNode
  generalize c.nodes.find? (·.id = id) = found at hfound
  generalize d.nodes.find? (·.id = id) = found' at hfound
  cases hfound with
  | none => exact .error (L.failure_refl _)
  | some hnode =>
    exact .ok ⟨hnode, ⟨h.closure, hfilter, h.edges, h.maxId_eq, h.passes_eq⟩, rfl, rfl⟩

theorem instancePatch_like {closure closure' : Closure} (h : Closure.Like L closure closure')
    (type : String) :
    Agree L.failure (Patch.Like L closure.kinds closure'.kinds) (instancePatch closure type)
      (instancePatch closure' (L.name type)) := by
  have hkind := h.kinds type
  unfold instancePatch
  generalize closure.kinds.kind type = kind at hkind
  generalize closure'.kinds.kind (L.name type) = kind' at hkind
  cases hkind with
  | error hfail => exact .error hfail
  | ok hkind =>
    cases hkind with
    | primitive hp => exact .error (L.failure_refl _)
    | subPatch path => exact h.patch path

theorem addLinks_like (h : Like L c d) {places places' : Places}
    (hlinks : Agree L.failure L.edges (linkEdges c.closure.kinds patch places)
      (linkEdges d.closure.kinds other places')) :
    Agree (StopsLike L) (Like L) (c.addLinks patch places) (d.addLinks other places') := by
  have hleft := addLinks_agree c patch places
  have hright := addLinks_agree d other places'
  generalize c.addLinks patch places = left at hleft ⊢
  generalize d.addLinks other places' = right at hright ⊢
  generalize linkEdges c.closure.kinds patch places = edges at hleft hlinks
  generalize linkEdges d.closure.kinds other places' = edges' at hright hlinks
  cases hlinks with
  | error hfail =>
    cases hleft with
    | error hl =>
      cases hright with
      | error hr => exact .error (by rwa [StopsLike, hl, hr])
  | ok hedges =>
    cases hleft with
    | ok hl =>
      cases hright with
      | ok hr =>
        subst hl hr
        exact .ok ⟨h.closure, h.nodes, L.edges_append h.edges hedges, h.maxId_eq, h.passes_eq⟩

theorem inline_like (h : Like L c d) (id : Int) :
    Agree (StopsLike L) (Like L) (c.inline id) (d.inline id) := by
  refine (takeNode_like h id).bind fun p q hpq => ?_
  obtain ⟨owner, c'⟩ := p
  obtain ⟨owner', d'⟩ := q
  obtain ⟨howner, h', hc, hd⟩ := hpq
  dsimp only at howner h' hc hd ⊢
  have hinst := instancePatch_like h'.closure owner.type
  rw [← howner.type_eq]
  generalize instancePatch c'.closure owner.type = left at hinst ⊢
  generalize instancePatch d'.closure (L.name owner.type) = right at hinst ⊢
  cases hinst with
  | error hfail => exact .error hfail
  | @ok patch other hpatch =>
    dsimp only
    rw [← howner.debugId_eq, ← h'.maxId_eq, ← hpatch.placesFrom]
    refine (moveLiterals_like (addCopies_like h' hpatch _) hpatch _ id
      (L.sorted howner.properties)).bind fun c'' d'' hlike => ?_
    obtain ⟨hlike, hc'', hd''⟩ := hlike
    have hpatch'' : Patch.Like L c''.closure.kinds d''.closure.kinds patch other := by
      rw [hc'', hd'']
      exact hpatch
    have hsplice := hpatch''.spliceEdges hlike.closure.kinds
      (placesFrom (c'.maxId + 1) patch.sortedNodes) id hlike.edges
    generalize spliceEdges c''.closure.kinds patch _ id c''.edges = edges at hsplice ⊢
    generalize spliceEdges d''.closure.kinds other _ id d''.edges = edges' at hsplice ⊢
    cases hsplice with
    | error hfail => exact .error hfail
    | @ok edges edges' hedges =>
      exact addLinks_like (c := { c'' with edges }) (d := { d'' with edges := edges' })
        ⟨hlike.closure, hlike.nodes, hedges, hlike.maxId_eq, hlike.passes_eq⟩ (hpatch''.links _)

theorem inlineAll_like (h : Like L c d) (ids : List Int) :
    Agree (StopsLike L) (Like L) (c.inlineAll ids) (d.inlineAll ids) := by
  induction ids generalizing c d with
  | nil => exact .ok h
  | cons id rest ih => exact (inline_like h id).bind fun _ _ h => ih h

theorem instances_like {kinds kinds' : Kinds} (hkinds : kinds.Like L kinds')
    {flats others : List FlatNode} (h : List.Forall₂ (FlatNode.Like L) flats others) :
    Agree L.failure Eq (instances kinds flats) (instances kinds' others) := by
  induction h with
  | nil => exact .ok rfl
  | @cons flat other _ _ hflat _ ih =>
    rw [instances, instances, ← hflat.type_eq, ← hflat.id_eq]
    refine (hkinds flat.type).bind fun kind kind' hkind => ?_
    refine ih.bind fun ids _ hids => ?_
    subst hids
    cases hkind with
    | subPatch path => exact .ok rfl
    | primitive hp => exact .ok rfl

theorem pending_like (h : Like L c d) : Agree L.failure Eq c.pending d.pending := by
  unfold pending
  refine (instances_like h.closure.kinds h.nodes).map fun ids _ hids => ?_
  rw [hids]

theorem expand_like (h : Like L c d) (fuel : Nat) :
    Agree (StopsLike L) (Like L) (expand fuel c) (expand fuel d) := by
  induction fuel generalizing c d with
  | zero => exact .ok h
  | succ fuel ih =>
    have hpending := pending_like h
    unfold expand
    rw [h.passes_eq]
    generalize c.pending = left at hpending
    generalize d.pending = right at hpending
    cases hpending with
    | error hfail => exact .error hfail
    | @ok ids _ hids =>
      subst hids
      cases ids with
      | nil => exact .ok h
      | cons id ids =>
        have hstart : Like L { c with passes := d.passes + 1 } { d with passes := d.passes + 1 } :=
          ⟨h.closure, h.nodes, h.edges, h.maxId_eq, rfl⟩
        exact (inlineAll_like hstart (id :: ids)).bind fun _ _ h => ih h

theorem entryNodes_like {kinds kinds' : Kinds} (h : Patch.Like L kinds kinds' patch other) :
    List.Forall₂ (FlatNode.Like L) (entryNodes patch) (entryNodes other) := by
  unfold entryNodes
  rw [List.forall₂_map_left_iff, List.forall₂_map_right_iff]
  refine h.sortedNodes.imp fun node node' hn => ?_
  exact ⟨hn.id_eq, hn.type_eq, hn.arity_eq, by rw [hn.id_eq], hn.properties⟩

theorem run_like {closure closure' : Closure} (h : Closure.Like L closure closure') :
    Agree (StopsLike L) (Like L) (start closure).run (start closure').run := by
  have hstart : Like L
      ⟨closure, (entryNodes closure.entry).foldl (fun flats flat => putNode flat flats) [], [],
        greatestId closure.entry, 0⟩
      ⟨closure', (entryNodes closure'.entry).foldl (fun flats flat => putNode flat flats) [], [],
        greatestId closure'.entry, 0⟩ :=
    ⟨h, putNodes_like (entryNodes_like h.entry) .nil, L.edges_nil, h.entry.greatestId, rfl⟩
  have hlinks := h.entry.links (ownPlaces closure.entry)
  rw [linkEdges_congr closure'.kinds h.entry.place_ownPlaces] at hlinks
  refine (addLinks_like hstart hlinks).bind fun c d hcd => ?_
  rw [hcd.closure.length_eq]
  exact expand_like hcd _

end Inlining

/-! ## Flat graphs -/

/-- Two flat graphs have nodes that are alike, and the same links. -/
structure FlatGraph.Like (L : Likeness) (graph other : FlatGraph) : Prop where
  nodes : List.Forall₂ (FlatNode.Like L) graph.nodes other.nodes
  links_eq : graph.links = other.links

theorem Inlining.Like.graph {c d : Inlining} (h : Inlining.Like L c d) :
    FlatGraph.Like L c.graph d.graph where
  nodes := Matched.mergeSort h.nodes fun a b a' b' ha hb => by rw [ha.id_eq, hb.id_eq]
  links_eq := by
    refine mergeSort_eraseDups_eq (fun a b c => ?_) (fun a b => ?_) (fun a b => ?_) fun l => ?_
    · simp only [FlatLink.le_iff]
      rintro (hab | rfl) (hbc | rfl)
      · exact .inl (hab.trans hbc)
      · exact .inl hab
      · exact .inl hbc
      · exact .inr rfl
    · simp only [FlatLink.le_iff]
      rcases FlatLink.before_total a b with h | h | h
      · exact .inl (.inl h)
      · exact .inl (.inr h)
      · exact .inr (.inl h)
    · simp only [FlatLink.le_iff]
      rintro (hab | rfl) (hba | hba)
      · exact absurd (hab.trans hba) (by simp [FlatLink.Before, Text.Before])
      · exact hba.symm
      · rfl
      · rfl
    · simp only [List.mem_map, L.edges_mem h.edges]

def FlatNode.renamed (σ : String → String) (node : FlatNode) : FlatNode :=
  { node with type := σ node.type }

def FlatGraph.renamed (σ : String → String) (graph : FlatGraph) : FlatGraph :=
  { graph with nodes := graph.nodes.map (FlatNode.renamed σ) }

section

variable {failure : Failure → Failure → Prop} {σ : String → String} {refl : ∀ f, failure f f}
  {trans : ∀ f g h, failure f g → failure g h → failure f h}
  {noTerminal : ∀ owner direction terminal path,
    failure (.noTerminal owner direction terminal path)
      (.noTerminal owner direction terminal (σ path))}

theorem FlatNode.Like.eq_renamed {node other : FlatNode}
    (h : FlatNode.Like (.same failure σ refl trans noTerminal) node other) :
    other = node.renamed σ := by
  obtain ⟨hid, htype, harity, hdebugId, hproperties⟩ := h
  cases node
  cases other
  simp_all [Likeness.same, FlatNode.renamed]

theorem FlatGraph.Like.eq_renamed {graph other : FlatGraph}
    (h : FlatGraph.Like (.same failure σ refl trans noTerminal) graph other) :
    other = graph.renamed σ := by
  have hmatch : List.Forall₂ Eq (graph.nodes.map (FlatNode.renamed σ)) other.nodes :=
    List.forall₂_map_left_iff.mpr (h.nodes.imp fun _ _ hn => hn.eq_renamed.symm)
  have hnodes : graph.nodes.map (FlatNode.renamed σ) = other.nodes := List.forall₂_eq_eq_eq ▸ hmatch
  have hlinks := h.links_eq
  cases graph
  cases other
  simp_all [FlatGraph.renamed]

end

/-- Closures that are alike are flattened alike. -/
theorem Closure.Like.flatten {closure other : Closure} (h : Closure.Like L closure other) :
    Agree L.failure (FlatGraph.Like L) closure.flatten other.flatten := by
  have hrun := Inlining.run_like h
  unfold Closure.flatten
  generalize (Inlining.start closure).run = left at hrun ⊢
  generalize (Inlining.start other).run = right at hrun ⊢
  cases hrun with
  | error hfail => exact .error hfail
  | ok hcd => exact .ok hcd.graph

end Patchbay
