import Patchbay.Flat.Typing
import Patchbay.Proofs.Flat.Graph

/-!
# Typing a sound graph

On a sound graph no lookup of the typing of terminals fails. All terminals get an entry, which they
keep, and the only failure is that of a linked terminal without a type (`resolve_cases`).
-/

namespace Patchbay.Typing

/-- A typing over a sound graph in which these ids have an entry. -/
structure Sound (kinds : Kinds) (graph : FlatGraph) (entered : List Int) (t : Typing) : Prop where
  kinds_eq : t.kinds = kinds
  graph_eq : t.graph = graph
  known : ∀ entry ∈ t.types, entry.1 ∈ graph.ids
  entered : ∀ id ∈ entered, ∃ type, t.types.lookup id = some type

variable {kinds : Kinds} {graph : FlatGraph} {entered : List Int} {t : Typing} {id : Int}

theorem lookup_putType (id : Int) (type : Option String) (types : List (Int × Option String))
    (other : Int) :
    (putType id type types).lookup other =
      if other = id then some type else types.lookup other := by
  induction types with
  | nil =>
    by_cases h : other = id
    · subst h
      simp [putType]
    · simp [putType, h, List.lookup_cons, beq_false_of_ne h]
  | cons head rest ih =>
    obtain ⟨k, found⟩ := head
    unfold putType
    by_cases hk : k = id
    · subst hk
      by_cases h : other = k
      · subst h
        simp
      · simp [h, List.lookup_cons, beq_false_of_ne h]
    · by_cases h : other = k
      · subst h
        simp [hk]
      · simp [hk, List.lookup_cons, beq_false_of_ne h, ih]

theorem mem_putType {id : Int} {type : Option String} {types : List (Int × Option String)}
    {entry : Int × Option String} (h : entry ∈ putType id type types) :
    entry.1 = id ∨ entry ∈ types := by
  induction types with
  | nil =>
    rw [List.mem_singleton.mp h]
    exact .inl rfl
  | cons head rest ih =>
    unfold putType at h
    split at h
    · next heq =>
      rcases List.mem_cons.mp h with rfl | h
      · exact .inl heq
      · exact .inr (List.mem_cons_of_mem _ h)
    · rcases List.mem_cons.mp h with rfl | h
      · exact .inr List.mem_cons_self
      · exact (ih h).imp_right (List.mem_cons_of_mem _)

namespace Sound

theorem set (h : Sound kinds graph entered t) (hid : id ∈ graph.ids) (type : Option String) :
    Sound kinds graph entered (t.set id type) where
  kinds_eq := h.kinds_eq
  graph_eq := h.graph_eq
  known entry hentry := by
    rcases mem_putType hentry with heq | hentry
    · exact heq ▸ hid
    · exact h.known entry hentry
  entered other hother := by
    obtain ⟨found, hfound⟩ := h.entered other hother
    simp only [Typing.set, lookup_putType]
    split
    · exact ⟨type, rfl⟩
    · exact ⟨found, hfound⟩

theorem enter (h : Sound kinds graph entered t) (hid : id ∈ graph.ids) (type : Option String) :
    Sound kinds graph (entered ++ [id]) (t.set id type) where
  kinds_eq := h.kinds_eq
  graph_eq := h.graph_eq
  known := (h.set hid type).known
  entered other hother := by
    rcases List.mem_append.mp hother with hother | hother
    · exact (h.set hid type).entered other hother
    · obtain rfl := List.mem_singleton.mp hother
      exact ⟨type, by simp only [Typing.set, lookup_putType, if_true]⟩

theorem keys_subset (h : Sound kinds graph entered t) : ∀ id ∈ t.keys, id ∈ graph.ids := by
  intro id hid
  have hid : id ∈ t.types.map (·.1) := (List.mergeSort_perm _ _).mem_iff.mp hid
  obtain ⟨entry, hentry, rfl⟩ := List.mem_map.mp hid
  exact h.known entry hentry

theorem node_eq_ok (h : Sound kinds graph entered t) (hid : id ∈ graph.ids) :
    ∃ node ∈ graph.nodes, t.node id = .ok node ∧ node.id = id := by
  obtain ⟨node, hnode, hfound, hnid⟩ := FlatGraph.exists_node? hid
  refine ⟨node, hnode, ?_, hnid⟩
  unfold Typing.node
  rw [h.graph_eq, hfound]

/-- Every node of the graph is of a primitive. -/
theorem primitive_eq_ok (h : Sound kinds graph entered t) (hg : graph.Sound kinds)
    (hid : id ∈ graph.ids) : ∃ node ∈ graph.nodes, ∃ p, t.primitive id = .ok p ∧
      kinds.primitive node.type = .ok p ∧ p.type = node.type := by
  obtain ⟨node, hnode, hfound, _⟩ := h.node_eq_ok hid
  obtain ⟨p, hp, htype⟩ := hg.primitive node hnode
  refine ⟨node, hnode, p, ?_, hp, htype⟩
  unfold Typing.primitive
  rw [hfound, h.kinds_eq]
  exact hp

end Sound

/-! ## Far ends -/

theorem farEnds_known (hg : graph.Sound kinds) (id : Int) :
    ∀ far ∈ farEnds graph id, far.1 ∈ graph.ids := by
  intro far hfar
  rcases List.mem_append.mp hfar with hfar | hfar
  · obtain ⟨l, hl, rfl⟩ := List.mem_map.mp hfar
    exact (hg.ends_known l (List.mem_of_mem_filter hl)).1
  · obtain ⟨l, hl, rfl⟩ := List.mem_map.mp hfar
    exact (hg.ends_known l (List.mem_of_mem_filter hl)).2

theorem farPin_eq_ok (h : Sound kinds graph entered t) (hg : graph.Sound kinds)
    (hid : id ∈ graph.ids) (pin : String) : ∃ far, t.farPin id pin = .ok far := by
  obtain ⟨_, _, p, hp, _⟩ := h.primitive_eq_ok hg hid
  simp only [farPin, hp, bind, Except.bind, pure, Except.pure]
  split
  · exact ⟨_, rfl⟩
  · exact ⟨_, rfl⟩

theorem farPins_eq_ok (h : Sound kinds graph entered t) (hg : graph.Sound kinds)
    {ends : List (Int × String)} (hends : ∀ far ∈ ends, far.1 ∈ graph.ids) :
    ∃ found, t.farPins ends = .ok found := by
  induction ends with
  | nil => exact ⟨[], rfl⟩
  | cons head rest ih =>
    obtain ⟨far, hfar⟩ := farPin_eq_ok h hg (hends head List.mem_cons_self) head.2
    obtain ⟨others, hothers⟩ := ih fun e he => hends e (List.mem_cons_of_mem _ he)
    refine ⟨far :: others, ?_⟩
    simp only [farPins, hfar, hothers, bind, Except.bind, pure, Except.pure]

theorem deduce_eq_ok (h : Sound kinds graph entered t) (hg : graph.Sound kinds) (id : Int) :
    ∃ type, t.deduce id = .ok type := by
  obtain ⟨found, hfound⟩ := farPins_eq_ok h hg (farEnds_known hg id)
  refine ⟨choose found, ?_⟩
  unfold deduce candidates
  rw [h.graph_eq, hfound]
  rfl

theorem meetsPlainPin_eq_ok (h : Sound kinds graph entered t) (hg : graph.Sound kinds)
    {ends : List (Int × String)} (hends : ∀ far ∈ ends, far.1 ∈ graph.ids) :
    ∃ meets, t.meetsPlainPin ends = .ok meets := by
  induction ends with
  | nil => exact ⟨false, rfl⟩
  | cons head rest ih =>
    obtain ⟨far, hfar⟩ := farPin_eq_ok h hg (hends head List.mem_cons_self) head.2
    simp only [meetsPlainPin, hfar, bind, Except.bind, pure, Except.pure]
    split
    · exact ih fun e he => hends e (List.mem_cons_of_mem _ he)
    · exact ⟨true, rfl⟩

/-! ## Rounds -/

theorem round_eq_ok (hg : graph.Sound kinds) {ids : List Int} (hids : ∀ id ∈ ids, id ∈ graph.ids)
    (h : Sound kinds graph entered t) :
    ∃ t', t.round ids = .ok t' ∧ Sound kinds graph entered t' := by
  induction ids generalizing t with
  | nil => exact ⟨t, rfl, h⟩
  | cons id rest ih =>
    have hrest := fun other hother => hids other (List.mem_cons_of_mem _ hother)
    unfold round
    split
    · exact ih hrest h
    · obtain ⟨type, htype⟩ := deduce_eq_ok h hg id
      rw [htype]
      cases type with
      | none => exact ih hrest h
      | some type => exact ih hrest (h.set (hids id List.mem_cons_self) _)

theorem settleWithin_eq_ok (hg : graph.Sound kinds) {fuel : Nat}
    (h : Sound kinds graph entered t) :
    ∃ t', settleWithin fuel t = .ok t' ∧ Sound kinds graph entered t' := by
  -- The rounds keep the typing sound, however many of them there are.
  induction fuel generalizing t with
  | zero => exact ⟨t, rfl, h⟩
  | succ fuel ih =>
    obtain ⟨next, hnext, hsound⟩ := round_eq_ok hg h.keys_subset h
    simp only [settleWithin, hnext, bind, Except.bind, pure, Except.pure]
    split
    · exact ⟨next, rfl, hsound⟩
    · exact ih hsound

/-- The typing settles. -/
theorem settle_eq_ok (hg : graph.Sound kinds) (h : Sound kinds graph entered t) :
    ∃ t', t.settle = .ok t' ∧ Sound kinds graph entered t' :=
  settleWithin_eq_ok hg h

theorem widen_eq_ok (hg : graph.Sound kinds) {ids : List Int} (hids : ∀ id ∈ ids, id ∈ graph.ids)
    (h : Sound kinds graph entered t) :
    ∃ t', t.widen ids = .ok t' ∧ Sound kinds graph entered t' := by
  induction ids generalizing t with
  | nil => exact ⟨t, rfl, h⟩
  | cons id rest ih =>
    have hrest := fun other hother => hids other (List.mem_cons_of_mem _ hother)
    unfold widen
    split
    · exact ih hrest h
    · obtain ⟨meets, hmeets⟩ := meetsPlainPin_eq_ok h hg (farEnds_known hg id)
      rw [h.graph_eq, hmeets]
      cases meets with
      | false => exact ih hrest h
      | true => exact ih hrest (h.set (hids id List.mem_cons_self) _)

theorem close_cases {ids : List Int} (hids : ∀ id ∈ ids, id ∈ graph.ids)
    (h : Sound kinds graph entered t) :
    (∃ stopped, t.close ids = .error stopped ∧
      stopped.failure.kind = .unresolvableTerminalType) ∨
    (∃ t', t.close ids = .ok t' ∧ Sound kinds graph entered t') := by
  induction ids generalizing t with
  | nil => exact .inr ⟨t, rfl, h⟩
  | cons id rest ih =>
    have hrest := fun other hother => hids other (List.mem_cons_of_mem _ hother)
    unfold close
    split
    · exact ih hrest h
    · obtain ⟨node, _, hnode, _⟩ := h.node_eq_ok (hids id List.mem_cons_self)
      simp only [hnode]
      split
      · exact .inl ⟨_, rfl, rfl⟩
      · split
        · exact ih hrest (h.set (hids id List.mem_cons_self) _)
        · exact ih hrest h

/-! ## All terminals -/

/-- Every node among these that is of a terminal type has an entry. -/
theorem declare_eq_ok (hg : graph.Sound kinds) {nodes : List FlatNode}
    (hnodes : ∀ node ∈ nodes, node.id ∈ graph.ids) (h : Sound kinds graph entered t) :
    ∃ t' entered', t.declare nodes = .ok t' ∧ Sound kinds graph entered' t' ∧
      (∀ id ∈ entered, id ∈ entered') ∧
      ∀ node ∈ nodes, ∀ p, t.primitive node.id = .ok p → p.isTerminal = true →
        node.id ∈ entered' := by
  induction nodes generalizing t entered with
  | nil => exact ⟨t, entered, rfl, h, fun _ hid => hid, by simp⟩
  | cons head rest ih =>
    have hrest := fun node hnode => hnodes node (List.mem_cons_of_mem _ hnode)
    obtain ⟨_, _, p, hp, _⟩ := h.primitive_eq_ok hg (hnodes head List.mem_cons_self)
    unfold declare
    simp only [hp]
    cases hterminal : p.terminal with
    | none =>
      obtain ⟨t', entered', hok, hsound, hkept, hall⟩ := ih hrest h
      refine ⟨t', entered', hok, hsound, hkept, fun node hnode q hq hterm => ?_⟩
      rcases List.mem_cons.mp hnode with rfl | hnode
      · obtain rfl := Except.ok.inj (hp.symm.trans hq)
        exact absurd hterm (by simp [Primitive.isTerminal, hterminal])
      · exact hall node hnode q hq hterm
    | some terminal =>
      have hentered := h.enter (hnodes head List.mem_cons_self) (declaredType p terminal)
      obtain ⟨t', entered', hok, hsound, hkept, hall⟩ := ih hrest hentered
      refine ⟨t', entered', hok, hsound, fun id hid => hkept id (List.mem_append_left _ hid),
        fun node hnode q hq hterm => ?_⟩
      rcases List.mem_cons.mp hnode with rfl | hnode
      · exact hkept _ (List.mem_append_right _ (List.mem_singleton_self _))
      · exact hall node hnode q hq hterm

/-- The terminals of a sound graph are typed, and each has an entry, unless a linked one has no
type. -/
theorem resolve_cases (hg : graph.Sound kinds) :
    (∃ stopped, (start kinds graph).resolve = .error stopped ∧
      stopped.failure.kind = .unresolvableTerminalType) ∨
    (∃ t entered, (start kinds graph).resolve = .ok t ∧ Sound kinds graph entered t ∧
      ∀ node ∈ graph.nodes, ∀ p, t.primitive node.id = .ok p → p.isTerminal = true →
        node.id ∈ entered) := by
  have hstart : Sound kinds graph [] (start kinds graph) := ⟨rfl, rfl, by simp [start], by simp⟩
  obtain ⟨t₁, entered, h₁, hs₁, _, hall⟩ :=
    declare_eq_ok hg (fun node hnode => List.mem_map_of_mem hnode) hstart
  obtain ⟨t₂, h₂, hs₂⟩ := settle_eq_ok hg hs₁
  obtain ⟨t₃, h₃, hs₃⟩ := widen_eq_ok hg hs₂.keys_subset hs₂
  obtain ⟨t₄, h₄, hs₄⟩ := settle_eq_ok hg hs₃
  have hstep : (start kinds graph).resolve = t₄.close t₄.keys := by
    unfold resolve
    simp only [start] at h₁
    simp only [start, h₁, h₂, h₃, h₄, bind, Except.bind]
  rw [hstep]
  rcases close_cases hs₄.keys_subset hs₄ with ⟨stopped, hstop, hkind⟩ | ⟨t, hok, hs⟩
  · exact .inl ⟨stopped, hstop, hkind⟩
  · refine .inr ⟨t, entered, hok, hs, fun node hnode p hp => hall node hnode p ?_⟩
    have hsame : t.primitive node.id = (start kinds graph).primitive node.id := by
      unfold Typing.primitive Typing.node
      rw [hs.graph_eq, hs.kinds_eq]
      rfl
    exact hsame ▸ hp

/-- A typing that succeeds is sound, and has an entry for each terminal. -/
theorem exists_sound (hg : graph.Sound kinds) (h : (start kinds graph).resolve = .ok t) :
    ∃ entered, Sound kinds graph entered t ∧
      ∀ node ∈ graph.nodes, ∀ p, t.primitive node.id = .ok p → p.isTerminal = true →
        node.id ∈ entered := by
  rcases resolve_cases hg with ⟨stopped, hstop, _⟩ | ⟨t', entered, hok, hs, hentered⟩
  · exact absurd (hstop.symm.trans h) (by simp)
  obtain rfl := Except.ok.inj (hok.symm.trans h)
  exact ⟨entered, hs, hentered⟩

end Patchbay.Typing
