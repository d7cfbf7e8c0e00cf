import Patchbay.Proofs.Flat.Settling
import Patchbay.Proofs.Project.Closure

/-!
# The types of terminals

A linked terminal gets a definite type if its group knows one, and such a type only
(`Resolved.definite_iff`); where the group knows none, it carries anything if a member is linked to
a pin off terminals (`Resolved.any_iff`). A group with links and neither is refused, by the least
id of all such groups (`resolve_terminals`).
-/

namespace Patchbay

namespace Typing

variable {kinds : Kinds} {graph : FlatGraph} {t t' : Typing} {id : Int} {type : String}

/-! ## Declarations -/

/-- One node at a time gets its entry, if it is a terminal. -/
theorem declare_step {head : FlatNode} {rest : List FlatNode}
    (h : t.declare (head :: rest) = .ok t') :
    ∃ p, ∃ next : Typing, t.primitive head.id = .ok p ∧ next.declare rest = .ok t' ∧
      next.kinds = t.kinds ∧ next.graph = t.graph ∧
      ∀ id, next.types.lookup id = if id = head.id
        then (p.terminal.map (declaredType p)).or (t.types.lookup id) else t.types.lookup id := by
  unfold declare at h
  split at h
  · exact absurd h (by simp)
  · next p hp =>
    split at h
    · next terminal hterminal =>
      refine ⟨p, _, hp, h, rfl, rfl, fun id => ?_⟩
      rw [Typing.set, lookup_putType, hterminal]
      rfl
    · next hplain =>
      refine ⟨p, t, hp, h, rfl, rfl, fun id => ?_⟩
      rw [hplain, Option.map_none, Option.none_or, ite_self]

theorem lookup_declare {nodes : List FlatNode} (hn : (nodes.map FlatNode.id).Nodup)
    (h : t.declare nodes = .ok t') :
    t'.kinds = t.kinds ∧ t'.graph = t.graph ∧
      (∀ id, id ∉ nodes.map FlatNode.id → t'.types.lookup id = t.types.lookup id) ∧
      ∀ node ∈ nodes, ∃ p, t.primitive node.id = .ok p ∧ t'.types.lookup node.id =
        (p.terminal.map (declaredType p)).or (t.types.lookup node.id) := by
  induction nodes generalizing t with
  | nil =>
    obtain rfl := Except.ok.inj h
    simp
  | cons head rest ih =>
    rw [List.map_cons, List.nodup_cons] at hn
    obtain ⟨hfresh, hn⟩ := hn
    obtain ⟨p, next, hp, hnext, hkinds, hgraph, hlookup⟩ := declare_step h
    have hprimitive : ∀ id, next.primitive id = t.primitive id := by
      intro id
      rw [primitive, primitive, Typing.node, Typing.node, hkinds, hgraph]
    obtain ⟨hkinds', hgraph', hother, hnodes⟩ := ih hn hnext
    refine ⟨hkinds'.trans hkinds, hgraph'.trans hgraph, fun id hid => ?_, fun node hnode => ?_⟩
    · rw [List.map_cons, List.mem_cons, not_or] at hid
      rw [hother id hid.2, hlookup, if_neg hid.1]
    · rcases List.mem_cons.mp hnode with rfl | hnode
      · exact ⟨p, hp, by rw [hother _ hfresh, hlookup, if_pos rfl]⟩
      · have hne : node.id ≠ head.id := fun heq => hfresh (heq ▸ List.mem_map_of_mem hnode)
        obtain ⟨q, hq, hfound⟩ := hnodes node hnode
        rw [hlookup, if_neg hne] at hfound
        exact ⟨q, (hprimitive node.id).symm.trans hq, hfound⟩

/-- At first each terminal has the type that it declares. -/
theorem start_declare (hg : graph.Sound kinds) (hn : graph.ids.Nodup)
    (h : (start kinds graph).declare graph.nodes = .ok t) :
    Covers kinds graph t ∧ ∀ id p, graph.IsOf kinds id p → p.isTerminal = true →
      ∀ type, t.typeOf id = some type ↔ p.Declares type := by
  obtain ⟨hkinds, hgraph, hother, hnodes⟩ := lookup_declare hn h
  have hstart : Sound kinds graph [] (start kinds graph) := ⟨rfl, rfl, by simp [start], by simp⟩
  have hentry : ∀ id p, graph.IsOf kinds id p →
      t.types.lookup id = p.terminal.map (declaredType p) := by
    intro id p hp
    have hfound := hstart.primitive_of_isOf hn hp
    obtain ⟨node, hnode, rfl, _⟩ := hp
    obtain ⟨q, hq, hlookup⟩ := hnodes node hnode
    obtain rfl := Except.ok.inj (hfound.symm.trans hq)
    rw [hlookup]
    exact Option.or_none
  refine ⟨⟨hkinds, hgraph, fun id => ?_⟩, fun id p hp hterminal type => ?_⟩
  · rw [mem_keys_iff]
    constructor
    · rintro ⟨found, hfound⟩
      by_cases hid : id ∈ graph.ids
      · obtain ⟨p, hp⟩ := hg.exists_isOf hid
        obtain ⟨terminal, hterminal, _⟩ :=
          Option.map_eq_some_iff.mp ((hentry id p hp).symm.trans hfound)
        exact ⟨p, hp, by rw [Primitive.isTerminal, hterminal]; rfl⟩
      · rw [hother id hid] at hfound
        exact absurd hfound (by simp [start])
    · rintro ⟨p, hp, hterminal⟩
      obtain ⟨terminal, hterminal⟩ := Option.isSome_iff_exists.mp hterminal
      exact ⟨declaredType p terminal, by rw [hentry id p hp, hterminal]; rfl⟩
  · obtain ⟨terminal, hterminal⟩ := Option.isSome_iff_exists.mp hterminal
    rw [← declaredType_eq_some_iff hterminal, typeOf, hentry id p hp, hterminal]
    rfl

/-! ## Settling -/

/-- What holds of each pin off terminals that a terminal is linked to, and passes between joined
terminals, still holds of all types found after some steps. -/
theorem typed_of_fills {P : Int → String → Prop} (hg : graph.Sound kinds) (hn : graph.ids.Nodup)
    (hplain : ∀ id type, graph.MeetsType kinds id type → P id type)
    (hjoined : ∀ a b type, graph.Joined kinds a b → P b type → P a type)
    (hc : Covers kinds graph t) (ht : ∀ id type, t.typeOf id = some type → P id type)
    (h : Relation.ReflTransGen Fills t t') : ∀ id type, t'.typeOf id = some type → P id type := by
  induction h with
  | refl => exact ht
  | @tail mid last hsteps hstep ih =>
    have hmid := hc.of_extends (extends_of_fills hsteps)
    cases hstep with
    | @fill id type lacks deduced =>
      intro other found hfound
      rw [typeOf_set] at hfound
      split at hfound
      · next heq =>
        obtain rfl := Option.some.inj hfound
        subst heq
        cases (hmid.sound.deduce_iff hg hn deduced).1 type rfl with
        | plain hmeets =>
          rw [hmid.graph_eq, hmid.kinds_eq] at hmeets
          exact hplain other type hmeets
        | @terminal far pin hmeets hterminal htyped =>
          rw [hmid.graph_eq] at hmeets
          rw [hmid.graph_eq, hmid.kinds_eq] at hterminal
          have hid := (hmid.mem_keys other).mp (lacks_iff.mp lacks).1
          exact hjoined other far type ⟨hid, hterminal, pin, hmeets⟩ (ih far type htyped)
      · exact ih other found hfound

/-- Once the declarations are settled, the types found are those that groups know, and they are
found for all groups that know any. -/
theorem settled_declare (hg : graph.Sound kinds) (hn : graph.ids.Nodup)
    (hd : (start kinds graph).declare graph.nodes = .ok t) (h : t.settle = .ok t') :
    Covers kinds graph t' ∧ (∀ id type, t'.typeOf id = some type → graph.GroupKnows kinds id type) ∧
      ∀ id, t'.Lacks id → ¬ ∃ type, graph.GroupKnows kinds id type := by
  obtain ⟨hc, hdeclared⟩ := start_declare hg hn hd
  obtain ⟨hsteps, hstable⟩ := settle_fills h
  have hext := extends_of_fills hsteps
  have hc' := hc.of_extends hext
  refine ⟨hc', ?_, ?_⟩
  · refine typed_of_fills hg hn (fun id type hmeets => ⟨id, .refl, .inr hmeets⟩)
      (fun a b type hab hb => hb.of_grouped (.single hab)) hc (fun id type htype => ?_) hsteps
    obtain ⟨p, hp, hterminal⟩ := (hc.mem_keys id).mp (mem_keys_of_typeOf htype)
    exact ⟨id, .refl, .inl ⟨p, hp, (hdeclared id p hp hterminal type).mp htype⟩⟩
  · rintro id hlacks ⟨type, member, hgrouped, hknows⟩
    have hmember := hstable.lacks_of_grouped hc' hg hn hlacks hgrouped
    rcases hknows with ⟨p, hp, hdeclares⟩ | hmeets
    · obtain ⟨q, hq, hterminal⟩ := (hc'.mem_keys member).mp (lacks_iff.mp hmember).1
      obtain rfl := hq.unique hn hp
      have htype := hext.kept _ _ ((hdeclared member q hq hterminal type).mpr hdeclares)
      exact absurd (htype.symm.trans (lacks_iff.mp hmember).2) (by simp)
    · refine hstable.not_tells hc' hg hn hmember ⟨type, .plain ?_⟩
      rw [hc'.graph_eq, hc'.kinds_eq]
      exact hmeets

/-! ## Pins that carry anything -/

theorem meetsPlainPin_iff {ends : List (Int × String)} {meets : Bool}
    (h : t.meetsPlainPin ends = .ok meets) (hall : ∀ e ∈ ends, ∃ far, t.farPin e.1 e.2 = .ok far) :
    meets = true ↔ ∃ e ∈ ends, ∃ far, t.farPin e.1 e.2 = .ok far ∧ far.onTerminal = false := by
  induction ends with
  | nil =>
    obtain rfl := Except.ok.inj h
    simp
  | cons head rest ih =>
    obtain ⟨far, hfar, h⟩ := bind_eq_ok.mp h
    rw [List.exists_mem_cons_iff]
    split at h
    · next hterminal =>
      rw [ih h fun e he => hall e (List.mem_cons_of_mem _ he)]
      refine ⟨.inr, fun hor => hor.resolve_left ?_⟩
      rintro ⟨other, hother, hplain⟩
      obtain rfl := Except.ok.inj (hfar.symm.trans hother)
      exact absurd (hterminal.symm.trans hplain) (by simp)
    · next hplain =>
      obtain rfl := pure_eq_ok.mp h
      exact ⟨fun _ => .inl ⟨far, hfar, by simpa using hplain⟩, fun _ => rfl⟩

theorem Sound.meetsPlainPin_iff (h : Sound kinds graph [] t) (hg : graph.Sound kinds)
    (hn : graph.ids.Nodup) {meets : Bool} (hm : t.meetsPlainPin (farEnds graph id) = .ok meets) :
    meets = true ↔ ∃ q key, graph.MeetsPlain kinds id q key := by
  rw [Typing.meetsPlainPin_iff hm fun e he => farPin_eq_ok h hg (farEnds_known hg id e he) e.2]
  constructor
  · rintro ⟨⟨far, pin⟩, hend, found, hfound, hplain⟩
    rcases h.meets_cases hg hn (FlatGraph.mem_farEnds_iff.mp hend) with
      ⟨_, hpin⟩ | ⟨q, hmeets, _⟩
    · obtain rfl := Except.ok.inj (hpin.symm.trans hfound)
      exact absurd hplain (by simp)
    · exact ⟨q, pin, hmeets⟩
  · rintro ⟨q, key, far, hmeets, hq, hplain⟩
    exact ⟨(far, key), FlatGraph.mem_farEnds_iff.mpr hmeets, _,
      h.farPin_of_plain hn hq hplain key, rfl⟩

/-- One entry at a time is given the type that carries anything, if it has none and is linked to a
pin off terminals. -/
theorem widen_step (hg : graph.Sound kinds) (hn : graph.ids.Nodup) (hid : id ∈ t.keys)
    (hs : Sound kinds graph [] t) {rest : List Int} (h : t.widen (id :: rest) = .ok t') :
    ∃ next : Typing, next.widen rest = .ok t' ∧ t.Extends next ∧
      (∀ other type, next.typeOf other = some type → t.typeOf other = some type ∨
        t.Lacks other ∧ type = anyType ∧ ∃ q key, graph.MeetsPlain kinds other q key) ∧
      ((∃ q key, graph.MeetsPlain kinds id q key) → ¬ next.Lacks id) := by
  unfold widen at h
  split at h
  · next htyped =>
    refine ⟨t, h, .refl t, fun _ _ htype => .inl htype, fun _ hlacks => ?_⟩
    rw [(lacks_iff.mp hlacks).2] at htyped
    exact absurd htyped (by simp)
  · next htyped =>
    rw [hs.graph_eq] at h
    split at h
    · exact absurd h (by simp)
    · next hmeets =>
      have hlacks : t.Lacks id := lacks_iff.mpr ⟨hid, by simpa using htyped⟩
      refine ⟨_, h, .set hlacks (some anyType), fun other type htype => ?_, fun _ hstill => ?_⟩
      · rw [typeOf_set] at htype
        split at htype
        · next heq =>
          obtain rfl := Option.some.inj htype
          exact .inr ⟨heq ▸ hlacks, rfl, heq ▸ (hs.meetsPlainPin_iff hg hn hmeets).mp rfl⟩
        · exact .inl htype
      · exact absurd (((lacks_set_iff hlacks).mp hstill).2 rfl) (by simp)
    · next hmeets =>
      refine ⟨t, h, .refl t, fun _ _ htype => .inl htype, fun hplain => ?_⟩
      exact absurd ((hs.meetsPlainPin_iff hg hn hmeets).mpr hplain) (by simp)

/-- Widening gives the type that carries anything to the entries without a type that are linked to
a pin off terminals. -/
theorem widen_extends (hg : graph.Sound kinds) (hn : graph.ids.Nodup) {ids : List Int}
    (hids : ∀ id ∈ ids, id ∈ t.keys) (hs : Sound kinds graph [] t) (h : t.widen ids = .ok t') :
    t.Extends t' ∧
      (∀ id type, t'.typeOf id = some type → t.typeOf id = some type ∨
        t.Lacks id ∧ type = anyType ∧ ∃ q key, graph.MeetsPlain kinds id q key) ∧
      ∀ id ∈ ids, (∃ q key, graph.MeetsPlain kinds id q key) → ¬ t'.Lacks id := by
  induction ids generalizing t with
  | nil =>
    obtain rfl := Except.ok.inj h
    exact ⟨.refl t, fun _ _ htype => .inl htype, by simp⟩
  | cons id rest ih =>
    obtain ⟨next, hnext, hstep, hfirst, hmet⟩ :=
      widen_step hg hn (hids id List.mem_cons_self) hs h
    have hrest : ∀ other ∈ rest, other ∈ next.keys := fun other hother =>
      (hstep.keys_iff other).mpr (hids other (List.mem_cons_of_mem _ hother))
    obtain ⟨hext, hfound, hothers⟩ := ih hrest (hstep.sound hs) hnext
    refine ⟨hstep.trans hext, fun other type htype => ?_, fun other hother hmeets => ?_⟩
    · rcases hfound other type htype with htype | ⟨hlacks, hany, hmeets⟩
      · exact hfirst other type htype
      · exact .inr ⟨hstep.lacks_of hlacks, hany, hmeets⟩
    · rcases List.mem_cons.mp hother with rfl | hother
      · exact fun hlacks => hmet hmeets (hext.lacks_of hlacks)
      · exact hothers other hother hmeets

/-- A typing in which each terminal has what its group comes to. -/
structure Resolved (kinds : Kinds) (graph : FlatGraph) (t : Typing) : Prop
    extends Covers kinds graph t where
  /-- A type is one that the group knows, or the one that carries anything, in a group that knows
  none and is linked to a pin off terminals. -/
  typed : ∀ id type, t.typeOf id = some type → graph.GroupKnows kinds id type ∨
    type = anyType ∧ (¬ ∃ known, graph.GroupKnows kinds id known) ∧ graph.GroupMeetsPlain kinds id
  lacking : ∀ id, t.Lacks id →
    (¬ ∃ type, graph.GroupKnows kinds id type) ∧ ¬ graph.GroupMeetsPlain kinds id

/-- The last typing before literals are looked at is resolved. -/
theorem resolved_settle {t₁ t₂ t₃ t₄ : Typing} (hg : graph.Sound kinds) (hn : graph.ids.Nodup)
    (hdeclare : (start kinds graph).declare graph.nodes = .ok t₁) (hfirst : t₁.settle = .ok t₂)
    (hwiden : t₂.widen t₂.keys = .ok t₃) (hlast : t₃.settle = .ok t₄) :
    Resolved kinds graph t₄ := by
  obtain ⟨hc₂, htyped, hlacking⟩ := settled_declare hg hn hdeclare hfirst
  obtain ⟨hext₃, hwidened, hmet⟩ := widen_extends hg hn (fun _ hid => hid) hc₂.sound hwiden
  have hc₃ := hc₂.of_extends hext₃
  obtain ⟨hsteps, hstable⟩ := settle_fills hlast
  have hext₄ := extends_of_fills hsteps
  have hc₄ := hc₃.of_extends hext₄
  refine ⟨hc₄, ?_, ?_⟩
  · refine typed_of_fills hg hn (fun id type hmeets => .inl ⟨id, .refl, .inr hmeets⟩)
      (fun a b type hab hb => ?_) hc₃ (fun id type htype => ?_) hsteps
    · rcases hb with hknows | ⟨hany, hunknown, hmeets⟩
      · exact .inl (hknows.of_grouped (.single hab))
      · refine .inr ⟨hany, ?_, hmeets.of_grouped (.single hab)⟩
        rintro ⟨known, hknows⟩
        exact hunknown ⟨known, hknows.of_grouped (.single hab.symm)⟩
    · rcases hwidened id type htype with htype | ⟨hlacks, hany, q, key, hmeets⟩
      · exact .inl (htyped id type htype)
      · exact .inr ⟨hany, hlacking id hlacks, id, q, key, .refl, hmeets⟩
  · intro id hlacks
    refine ⟨hlacking id (hext₃.lacks_of (hext₄.lacks_of hlacks)), ?_⟩
    rintro ⟨member, q, key, hgrouped, hmeets⟩
    have hmember := hext₄.lacks_of (hstable.lacks_of_grouped hc₄ hg hn hlacks hgrouped)
    have hkey := (lacks_iff.mp (hext₃.lacks_of hmember)).1
    exact hmet member hkey ⟨q, key, hmeets⟩ hmember

namespace Resolved

/-- A terminal has a definite type if its group knows one. -/
theorem definite_iff (h : Resolved kinds graph t) (hid : graph.IsTerminal kinds id)
    (hne : ∀ type, graph.GroupKnows kinds id type → type ≠ anyType) :
    (∃ type, t.typeOf id = some type ∧ type ≠ anyType) ↔
      ∃ type, graph.GroupKnows kinds id type := by
  constructor
  · rintro ⟨type, htype, hdefinite⟩
    rcases h.typed id type htype with hknows | ⟨hany, _⟩
    · exact ⟨type, hknows⟩
    · exact absurd hany hdefinite
  · rintro ⟨known, hknows⟩
    rcases h.typed_or_lacks hid with ⟨type, htype⟩ | hlacks
    · rcases h.typed id type htype with hfound | ⟨_, hunknown, _⟩
      · exact ⟨type, htype, hne type hfound⟩
      · exact absurd ⟨known, hknows⟩ hunknown
    · exact absurd ⟨known, hknows⟩ (h.lacking id hlacks).1

/-- A terminal carries anything if its group knows no type and is linked to a pin off
terminals. -/
theorem any_iff (h : Resolved kinds graph t) (hid : graph.IsTerminal kinds id)
    (hne : ∀ type, graph.GroupKnows kinds id type → type ≠ anyType) :
    t.typeOf id = some anyType ↔
      (¬ ∃ type, graph.GroupKnows kinds id type) ∧ graph.GroupMeetsPlain kinds id := by
  constructor
  · intro htype
    rcases h.typed id anyType htype with hknows | ⟨_, hunknown, hmeets⟩
    · exact absurd rfl (hne anyType hknows)
    · exact ⟨hunknown, hmeets⟩
  · rintro ⟨hunknown, hmeets⟩
    rcases h.typed_or_lacks hid with ⟨type, htype⟩ | hlacks
    · rcases h.typed id type htype with hknows | ⟨rfl, _⟩
      · exact absurd ⟨type, hknows⟩ hunknown
      · exact htype
    · exact absurd hmeets (h.lacking id hlacks).2

/-- The linked terminals without a type are those of the groups that are refused. -/
theorem untypable_iff (h : Resolved kinds graph t) :
    graph.IsUntypable kinds id ↔ t.Lacks id ∧ graph.IsLinked id := by
  constructor
  · intro hid
    obtain ⟨member, hgrouped, hlinked⟩ := hid.linked
    refine ⟨?_, hlinked.of_grouped hgrouped⟩
    rcases h.typed_or_lacks hid.terminal with ⟨type, htype⟩ | hlacks
    · rcases h.typed id type htype with hknows | ⟨_, _, hmeets⟩
      · exact absurd ⟨type, hknows⟩ hid.unknown
      · exact absurd hmeets hid.apart
    · exact hlacks
  · rintro ⟨hlacks, hlinked⟩
    obtain ⟨hunknown, hapart⟩ := h.lacking id hlacks
    exact ⟨(h.mem_keys id).mp (lacks_iff.mp hlacks).1, ⟨id, .refl, hlinked⟩, hunknown, hapart⟩

end Resolved

/-! ## Literals -/

/-- An entry without links gets at most a type of its own, and a linked one without a type is
refused. -/
theorem close_step (hs : Sound kinds graph [] t) (hid : id ∈ t.keys) (rest : List Int) :
    (∃ next, t.close (id :: rest) = next.close rest ∧ t.Extends next ∧
      (graph.IsLinked id → ¬ t.Lacks id) ∧
      ∀ other, graph.IsLinked other → next.typeOf other = t.typeOf other) ∨
    (t.Lacks id ∧ graph.IsLinked id ∧ ∃ node ∈ graph.nodes,
      t.close (id :: rest) = .error ⟨t, .untypedTerminal id node.type node.debugId⟩) := by
  obtain ⟨node, hnode, hfound, _⟩ := hs.node_eq_ok (hs.keys_subset id hid)
  rcases htype : t.typeOf id with _ | type
  · have hlacks : t.Lacks id := lacks_iff.mpr ⟨hid, htype⟩
    rw [close, htype, hfound, hs.graph_eq]
    by_cases hlinked : graph.IsLinked id
    · have hends := FlatGraph.isLinked_iff.mp hlinked
      exact .inr ⟨hlacks, hlinked, node, hnode, by simp [hends]⟩
    · have hends : farEnds graph id = [] := by
        by_contra hends
        exact hlinked (FlatGraph.isLinked_iff.mpr hends)
      rw [hends]
      cases hvalue : node.properties.lookup Terminal.pinKey with
      | none =>
        exact .inl ⟨t, by simp [hvalue], .refl t, fun h => absurd h hlinked, fun _ _ => rfl⟩
      | some value =>
        refine .inl ⟨t.set id (literalType value), by simp [hvalue], .set hlacks _,
          fun h => absurd h hlinked, fun other hother => ?_⟩
        rw [typeOf_set, if_neg]
        rintro rfl
        exact hlinked hother
  · refine .inl ⟨t, ?_, .refl t, fun _ hlacks => ?_, fun _ _ => rfl⟩
    · rw [close, htype]
      rfl
    · exact absurd ((lacks_iff.mp hlacks).2.symm.trans htype) (by simp)

/-- The types of linked terminals stay as they are, and the least linked one without a type, if
any, is refused. -/
theorem close_linked {ids : List Int} (hids : ∀ id ∈ ids, id ∈ t.keys)
    (hsorted : ids.Pairwise (· ≤ ·)) (hs : Sound kinds graph [] t) :
    (∃ t', t.close ids = .ok t' ∧ (∀ id ∈ ids, graph.IsLinked id → ¬ t.Lacks id) ∧
      ∀ id, graph.IsLinked id → t'.typeOf id = t.typeOf id) ∨
    ∃ stopped, ∃ id ∈ ids, ∃ node ∈ graph.nodes, t.close ids = .error stopped ∧
      stopped.failure = .untypedTerminal id node.type node.debugId ∧
      t.Lacks id ∧ graph.IsLinked id ∧
      ∀ other ∈ ids, graph.IsLinked other → t.Lacks other → id ≤ other := by
  induction ids generalizing t with
  | nil => exact .inl ⟨t, rfl, by simp, fun _ _ => rfl⟩
  | cons id rest ih =>
    rw [List.pairwise_cons] at hsorted
    have hrest := fun other hother => hids other (List.mem_cons_of_mem _ hother)
    rcases close_step hs (hids id List.mem_cons_self) rest with
      ⟨next, hnext, hext, hhead, hsame⟩ | ⟨hlacks, hlinked, node, hnode, hstop⟩
    · have hlacks_iff : ∀ other ∈ rest, graph.IsLinked other →
          (next.Lacks other ↔ t.Lacks other) := by
        intro other hother hlinked
        rw [lacks_iff, lacks_iff, hext.keys_iff, hsame other hlinked]
      rw [hnext]
      rcases ih (fun other hother => (hext.keys_iff other).mpr (hrest other hother)) hsorted.2
          (hext.sound hs) with
        ⟨t', hok, hnone, hkept⟩ |
          ⟨stopped, least, hleast, node, hnode, hstop, hfailure, hlacks, hlinked, hle⟩
      · refine .inl ⟨t', hok, fun other hother hlinked => ?_, fun other hlinked => ?_⟩
        · rcases List.mem_cons.mp hother with rfl | hother
          · exact hhead hlinked
          · exact fun hlacks =>
              hnone other hother hlinked ((hlacks_iff other hother hlinked).mpr hlacks)
        · rw [hkept other hlinked, hsame other hlinked]
      · refine .inr ⟨stopped, least, List.mem_cons_of_mem _ hleast, node, hnode, hstop, hfailure,
          (hlacks_iff least hleast hlinked).mp hlacks, hlinked, fun other hother hlinked' => ?_⟩
        rcases List.mem_cons.mp hother with rfl | hother
        · exact fun hlacks' => absurd hlacks' (hhead hlinked')
        · exact fun hlacks' =>
            hle other hother hlinked' ((hlacks_iff other hother hlinked').mpr hlacks')
    · refine .inr ⟨_, id, List.mem_cons_self, node, hnode, hstop, rfl, hlacks, hlinked,
        fun other hother _ _ => ?_⟩
      rcases List.mem_cons.mp hother with rfl | hother
      · exact le_rfl
      · exact hsorted.1 other hother

/-! ## All terminals -/

/-- Either all terminals are typed, each linked one by what its group comes to, or the least
terminal of the groups that come to nothing is refused. -/
theorem resolve_groups (hg : graph.Sound kinds) (hn : graph.ids.Nodup) :
    ∃ settled, Resolved kinds graph settled ∧
      ((∃ t, (start kinds graph).resolve = .ok t ∧ (¬ ∃ id, graph.IsUntypable kinds id) ∧
        ∀ id, graph.IsLinked id → t.typeOf id = settled.typeOf id) ∨
      ∃ stopped id, ∃ node ∈ graph.nodes, (start kinds graph).resolve = .error stopped ∧
        stopped.failure = .untypedTerminal id node.type node.debugId ∧
        graph.IsUntypable kinds id ∧ ∀ other, graph.IsUntypable kinds other → id ≤ other) := by
  have hstart : Sound kinds graph [] (start kinds graph) := ⟨rfl, rfl, by simp [start], by simp⟩
  obtain ⟨t₁, entered, h₁, hs₁, _⟩ :=
    declare_eq_ok hg (fun node hnode => List.mem_map_of_mem hnode) hstart
  obtain ⟨t₂, h₂, hs₂⟩ := settle_eq_ok hg hs₁
  obtain ⟨t₃, h₃, hs₃⟩ := widen_eq_ok hg hs₂.keys_subset hs₂
  obtain ⟨t₄, h₄, _⟩ := settle_eq_ok hg hs₃
  have hstep : (start kinds graph).resolve = t₄.close t₄.keys := by
    unfold resolve
    simp only [start] at h₁
    simp only [start, h₁, h₂, h₃, h₄, bind, Except.bind]
  have hresolved := resolved_settle hg hn h₁ h₂ h₃ h₄
  have hsorted : t₄.keys.Pairwise (· ≤ ·) := Keyed.pairwise_mergeSort_le (fun id => id) _
  refine ⟨t₄, hresolved, ?_⟩
  rw [hstep]
  rcases close_linked (fun _ hid => hid) hsorted hresolved.toCovers.sound with
    ⟨t, hok, hnone, hsame⟩ | ⟨stopped, id, _, node, hnode, hstop, hfailure, hlacks, hlinked, hle⟩
  · refine .inl ⟨t, hok, ?_, hsame⟩
    rintro ⟨id, hid⟩
    obtain ⟨hlacks, hlinked⟩ := hresolved.untypable_iff.mp hid
    exact hnone id (lacks_iff.mp hlacks).1 hlinked hlacks
  · refine .inr ⟨stopped, id, node, hnode, hstop, hfailure,
      hresolved.untypable_iff.mpr ⟨hlacks, hlinked⟩, fun other hother => ?_⟩
    obtain ⟨hlacks', hlinked'⟩ := hresolved.untypable_iff.mp hother
    exact hle other (lacks_iff.mp hlacks').1 hlinked' hlacks'

end Typing

/-- No terminal of a closure has a type id that names the type that carries anything. -/
theorem Closure.dataType_ne_any {project : Project} {entryPath : String} {strict : Bool}
    {closure : Closure} (hc : Closure.ofEntry project entryPath strict = .ok closure)
    {type : String} {p : Primitive} {t : Terminal} (hp : closure.kinds.primitive type = .ok p)
    (ht : p.terminal = some t) : t.dataType ≠ some anyType := by
  obtain ⟨_, rfl⟩ := Closure.primitive_of_ofEntry hc hp
  exact Terminal.dataType_ne_any ht

/-! ## A patch without types -/

namespace Relay

/-- A lamp behind a patch whose terminals declare no type; its pin is of this type. -/
def document (type : String) : Value :=
  .obj [
    ("patches", .obj [
      ("@/main", .obj [
        ("nodes", .obj [("1", .obj [("type", .str "@/relay")]), ("2", .obj [("type", .str "led")])]),
        ("links", .obj [("1", .obj [("pins", .arr [
          .obj [("nodeId", .int 1), ("pinKey", .str "output_42")],
          .obj [("nodeId", .int 2), ("pinKey", .str "IN")]])])])]),
      ("@/relay", .obj [
        ("nodes", .obj [("41", .obj [("type", .str "core/input")]),
          ("42", .obj [("type", .str "core/output")])]),
        ("links", .obj [("1", .obj [("pins", .arr [
          .obj [("nodeId", .int 41), ("pinKey", .str "PIN")],
          .obj [("nodeId", .int 42), ("pinKey", .str "PIN")]])])])])]),
    ("nodeTypes", .obj [("led", .obj [("pins", .obj [
      ("IN", .obj [("direction", .str "input"), ("type", .str type)])])])])]

def main : Patch where
  path := "@/main"
  id := none
  nodes := [⟨1, "@/relay", [], 1⟩, ⟨2, "led", [], 1⟩]
  links := [⟨"1", ⟨1, .boundary .output 42⟩, ⟨2, .named "IN"⟩⟩]

def relay : Patch where
  path := "@/relay"
  id := none
  nodes := [⟨41, "core/input", [], 1⟩, ⟨42, "core/output", [], 1⟩]
  links := [⟨"1", ⟨41, .named "PIN"⟩, ⟨42, .named "PIN"⟩⟩]

def led (type : String) : NodeType :=
  ⟨"led", [("IN", ⟨.str "IN", .input, type, none, false⟩)], false, false, []⟩

def project (type : String) : Project := ⟨"", [main, relay], [led type]⟩

def closure (type : String) : Closure where
  entry := main
  patches := [relay, main]
  kinds := [
    ("core/input", .primitive ⟨"core/input", none, some ⟨.input, none⟩⟩),
    ("core/output", .primitive ⟨"core/output", none, some ⟨.output, none⟩⟩),
    ("@/relay", .subPatch "@/relay"), ("led", .primitive ⟨"led", some (led type), none⟩)]

def graph : FlatGraph where
  nodes := [⟨2, "led", [], 1, "2"⟩, ⟨3, "core/input", [], 1, "1~41"⟩,
    ⟨4, "core/output", [], 1, "1~42"⟩]
  links := [⟨3, "PIN", 4, "PIN"⟩, ⟨4, "PIN", 2, "IN"⟩]

theorem project_document : Document.project (document "bool") = .ok (project "bool") := by cbv

theorem ofEntry_project :
    Closure.ofEntry (project "bool") "@/main" false = .ok (closure "bool") := by
  cbv

theorem flatten_closure : (closure "bool").flatten = .ok graph := by cbv

end Relay

/-- The typing of terminals is exact for each group. A linked terminal gets a definite type if and
only if its group knows one, and then one that the group knows; it carries anything if and only if
the group knows none and is linked to a pin off terminals. The typing is refused if and only if
some group has links and neither, for the least terminal of all such groups. -/
theorem resolve_terminals {document : Value} {project : Project} {entryPath : String}
    {strict : Bool} {closure : Closure} {graph : FlatGraph}
    (hp : Document.project document = .ok project)
    (hc : Closure.ofEntry project entryPath strict = .ok closure)
    (hf : closure.flatten = .ok graph) :
    (∀ t, (Typing.start closure.kinds graph).resolve = .ok t →
      ∀ id, graph.IsTerminal closure.kinds id → graph.IsLinked id →
        ((∃ type, t.typeOf id = some type ∧ type ≠ anyType) ↔
          ∃ type, graph.GroupKnows closure.kinds id type) ∧
        (∀ type, t.typeOf id = some type → type ≠ anyType →
          graph.GroupKnows closure.kinds id type) ∧
        (t.typeOf id = some anyType ↔ (¬ ∃ type, graph.GroupKnows closure.kinds id type) ∧
          graph.GroupMeetsPlain closure.kinds id)) ∧
    ((∃ stopped, (Typing.start closure.kinds graph).resolve = .error stopped) ↔
      ∃ id, graph.IsUntypable closure.kinds id) ∧
    ∀ stopped, (Typing.start closure.kinds graph).resolve = .error stopped →
      stopped.failure.kind = .unresolvableTerminalType ∧
      ∃ id, stopped.failure.payload.lookup "nodeId" = some (.int id) ∧
        graph.IsUntypable closure.kinds id ∧
        ∀ other, graph.IsUntypable closure.kinds other → id ≤ other := by
  have hs := Closure.sound_of_ofEntry hp hc
  have hne : ∀ id type, graph.GroupKnows closure.kinds id type → type ≠ anyType :=
    fun id type hknows => hknows.ne_any fun _ _ _ hprim => Closure.dataType_ne_any hc hprim
  obtain ⟨settled, hresolved, hcases⟩ :=
    Typing.resolve_groups (hs.sound_of_flatten hf) (hs.nodup_of_flatten hf)
  rcases hcases with ⟨t, hok, hnone, hsame⟩ |
    ⟨stopped, least, node, _, hstop, hfailure, hleast, hle⟩
  · refine ⟨fun t' hok' id hid hlinked => ?_, ⟨?_, fun hbad => absurd hbad hnone⟩, ?_⟩
    · obtain rfl := Except.ok.inj (hok.symm.trans hok')
      rw [hsame id hlinked]
      refine ⟨hresolved.definite_iff hid (hne id), fun type htype hdefinite => ?_,
        hresolved.any_iff hid (hne id)⟩
      exact (hresolved.typed id type htype).resolve_right fun hany => hdefinite hany.1
    · rintro ⟨stopped, hstop⟩
      exact absurd (hok.symm.trans hstop) (by simp)
    · intro stopped hstop
      exact absurd (hok.symm.trans hstop) (by simp)
  · refine ⟨fun t hok => absurd (hok.symm.trans hstop) (by simp),
      ⟨fun _ => ⟨least, hleast⟩, fun _ => ⟨stopped, hstop⟩⟩, fun stopped' hstop' => ?_⟩
    obtain rfl := Except.error.inj (hstop.symm.trans hstop')
    rw [hfailure]
    exact ⟨rfl, least, by simp [Failure.payload], hleast, hle⟩

theorem resolve_terminals_relay :
    Document.project (Relay.document "bool") = .ok (Relay.project "bool") ∧
    Closure.ofEntry (Relay.project "bool") "@/main" false = .ok (Relay.closure "bool") ∧
    (Relay.closure "bool").flatten = .ok Relay.graph ∧
    ∃ t, (Typing.start (Relay.closure "bool").kinds Relay.graph).resolve = .ok t ∧
      t.typeOf 3 = some "bool" ∧
      Relay.graph.GroupKnows (Relay.closure "bool").kinds 3 "bool" ∧
      ¬ ∃ id, Relay.graph.IsUntypable (Relay.closure "bool").kinds id := by
  have hp := Relay.project_document
  have hc := Relay.ofEntry_project
  have hf := Relay.flatten_closure
  have hresolve : ∃ t, (Typing.start (Relay.closure "bool").kinds Relay.graph).resolve = .ok t ∧
      t.typeOf 3 = some "bool" := ⟨_, by cbv, by cbv⟩
  obtain ⟨t, hok, htype⟩ := hresolve
  obtain ⟨htyped, hstops, _⟩ := resolve_terminals hp hc hf
  have hterminal : Relay.graph.IsTerminal (Relay.closure "bool").kinds 3 :=
    ⟨_, ⟨⟨3, "core/input", [], 1, "1~41"⟩, by simp [Relay.graph], rfl, rfl⟩, rfl⟩
  have hlinked : Relay.graph.IsLinked 3 :=
    ⟨4, "PIN", ⟨3, "PIN", 4, "PIN"⟩, by simp [Relay.graph], .inr ⟨rfl, rfl, rfl⟩⟩
  refine ⟨hp, hc, hf, t, hok, htype,
    (htyped t hok 3 hterminal hlinked).2.1 "bool" htype (by decide), fun hbad => ?_⟩
  obtain ⟨stopped, hstop⟩ := hstops.mpr hbad
  exact absurd (hok.symm.trans hstop) (by simp)

end Patchbay
