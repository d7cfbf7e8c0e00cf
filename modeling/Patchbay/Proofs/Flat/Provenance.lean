import Patchbay.Proofs.Flat.Assembly
import Patchbay.Proofs.Flat.TerminalTypes

/-!
# Where the types of terminals come from

Types are found in place, and a type found counts at once for the terminals after it, so what a
terminal takes over from its neighbours depends on the order of the ids. What does not depend on it
is said here (`Warranted`): a declaration stands, the first pin off terminals wins over all
neighbours, and a type that is taken over has come along a chain of terminals of that type, from one
that knows it. The invariant is that each type found so far has a source (`Sourced`), which later
steps keep.
-/

namespace Patchbay

namespace FlatGraph

variable (kinds : Kinds) (graph : FlatGraph)

/-- The terminal declares no type. -/
def Undeclared (id : Int) : Prop :=
  ∀ p type, graph.IsOf kinds id p → ¬ p.Declares type

/-- The pin of this key is of this definite type, on a node that is no terminal. -/
def HasPinType (far : Int) (key type : String) : Prop :=
  ∃ q pin, graph.IsOf kinds far q ∧ q.isTerminal = false ∧ q.pin? key = some pin ∧
    pin.type = type ∧ type ≠ anyType

/-- The pins that a node is linked to: those at the sources of the links that end on it, in the order
of the links, and then those at the targets of the links that start on it. -/
def pinsLinkedTo (id : Int) : List (Int × String) :=
  (graph.links.filter (·.target = id)).map (fun l => (l.source, l.sourcePin)) ++
    (graph.links.filter (·.source = id)).map fun l => (l.target, l.targetPin)

/-- The first of some far ends that is a pin of a definite type off terminals has this type. -/
def FirstPinType (ends : List (Int × String)) (type : String) : Prop :=
  ∃ before far key after, ends = before ++ (far, key) :: after ∧
    graph.HasPinType kinds far key type ∧
    ∀ e ∈ before, ∀ other, ¬ graph.HasPinType kinds e.1 e.2 other

variable {kinds graph} {id far : Int} {key type : String} {ends : List (Int × String)}

theorem meetsType_iff : graph.MeetsType kinds id type ↔
    ∃ far key, graph.Meets id far key ∧ graph.HasPinType kinds far key type := by
  constructor
  · rintro ⟨q, key, pin, ⟨far, hmeets, hq, hplain⟩, hpin, htype, hne⟩
    exact ⟨far, key, hmeets, q, pin, hq, hplain, hpin, htype, hne⟩
  · rintro ⟨far, key, hmeets, q, pin, hq, hplain, hpin, htype, hne⟩
    exact ⟨q, key, pin, ⟨far, hmeets, hq, hplain⟩, hpin, htype, hne⟩

theorem firstPinType_cons_iff {rest : List (Int × String)} :
    graph.FirstPinType kinds ((far, key) :: rest) type ↔
      graph.HasPinType kinds far key type ∨
        (∀ other, ¬ graph.HasPinType kinds far key other) ∧
          graph.FirstPinType kinds rest type := by
  constructor
  · rintro ⟨before, far', key', after, heq, hpin, hbefore⟩
    cases before with
    | nil =>
      obtain ⟨⟨rfl, rfl⟩, _⟩ := (by simpa using heq : (far = far' ∧ key = key') ∧ rest = after)
      exact .inl hpin
    | cons head before =>
      obtain ⟨rfl, rfl⟩ := List.cons.inj heq
      obtain ⟨hhead, hbefore⟩ := List.forall_mem_cons.mp hbefore
      exact .inr ⟨hhead, before, far', key', after, rfl, hpin, hbefore⟩
  · rintro (hpin | ⟨hhead, before, far', key', after, rfl, hpin, hbefore⟩)
    · exact ⟨[], far, key, rest, rfl, hpin, by simp⟩
    · exact ⟨(far, key) :: before, far', key', after, rfl, hpin,
        List.forall_mem_cons.mpr ⟨hhead, hbefore⟩⟩

/-- Among far ends of which one is a pin of a definite type off terminals, one is the first. -/
theorem exists_firstPinType (h : ∃ e ∈ ends, ∃ type, graph.HasPinType kinds e.1 e.2 type) :
    ∃ type, graph.FirstPinType kinds ends type := by
  induction ends with
  | nil => simp at h
  | cons head rest ih =>
    by_cases hhead : ∃ type, graph.HasPinType kinds head.1 head.2 type
    · obtain ⟨type, hpin⟩ := hhead
      exact ⟨type, firstPinType_cons_iff.mpr (.inl hpin)⟩
    · obtain ⟨type, hfirst⟩ := ih (((List.exists_mem_cons_iff ..).mp h).resolve_left hhead)
      exact ⟨type, firstPinType_cons_iff.mpr (.inr ⟨not_exists.mp hhead, hfirst⟩)⟩

theorem exists_firstPin (h : graph.MeetsType kinds id type) :
    ∃ first, graph.FirstPinType kinds (Typing.farEnds graph id) first := by
  obtain ⟨far, key, hmeets, hpin⟩ := meetsType_iff.mp h
  exact exists_firstPinType ⟨(far, key), mem_farEnds_iff.mpr hmeets, type, hpin⟩

theorem MeetsType.of_firstPin
    (h : graph.FirstPinType kinds (Typing.farEnds graph id) type) :
    graph.MeetsType kinds id type := by
  obtain ⟨before, far, key, after, heq, hpin, _⟩ := h
  refine meetsType_iff.mpr ⟨far, key, mem_farEnds_iff.mp ?_, hpin⟩
  rw [heq]
  simp

end FlatGraph

/-- The definite type that a far end gives as a pin off terminals. -/
def FarPin.plainType (far : FarPin) : Option String := if far.onTerminal then none else far.type

namespace Typing

open FlatGraph (FirstPinType HasPinType)

variable {kinds : Kinds} {graph : FlatGraph} {t t' : Typing} {id far : Int} {key type : String}

/-! ## Which far end tells -/

/-- Far ends are looked through in the order of the links. -/
theorem farEnds_eq (graph : FlatGraph) (id : Int) : farEnds graph id = graph.pinsLinkedTo id := rfl

theorem choose_eq (found : List FarPin) : choose found =
    (found.findSome? FarPin.plainType).or (found.findSome? FarPin.type) := by
  unfold choose FarPin.plainType
  cases found.findSome? fun far => if far.onTerminal then none else far.type <;> rfl

/-- A far end gives a type as a pin off terminals if it is one of that type. -/
theorem Sound.plainType_iff (h : Sound kinds graph [] t) (hn : graph.ids.Nodup) {q : Primitive}
    (hq : graph.IsOf kinds far q) {found : FarPin} (hfound : t.farPin far key = .ok found) :
    found.plainType = some type ↔ graph.HasPinType kinds far key type := by
  cases hterminal : q.isTerminal with
  | true =>
    obtain rfl := Except.ok.inj
      ((h.farPin_of_terminal hn ⟨q, hq, hterminal⟩ key).symm.trans hfound)
    refine ⟨fun htype => absurd htype (by simp [FarPin.plainType]), ?_⟩
    rintro ⟨q', pin, hq', hplain, _⟩
    obtain rfl := hq.unique hn hq'
    exact absurd (hterminal.symm.trans hplain) (by simp)
  | false =>
    obtain rfl := Except.ok.inj ((h.farPin_of_plain hn hq hterminal key).symm.trans hfound)
    simp only [FarPin.plainType, Bool.false_eq_true, if_false, Option.bind_eq_some_iff,
      definite_eq_some_iff]
    constructor
    · rintro ⟨pin, hpin, htype, hne⟩
      exact ⟨q, pin, hq, hterminal, hpin, htype, hne⟩
    · rintro ⟨q', pin, hq', _, hpin, htype, hne⟩
      obtain rfl := hq.unique hn hq'
      exact ⟨pin, hpin, htype, hne⟩

/-- The first far end that gives a type as a pin off terminals is the first such pin. -/
theorem Sound.findSome?_plainType_iff (h : Sound kinds graph [] t) (hg : graph.Sound kinds)
    (hn : graph.ids.Nodup) {ends : List (Int × String)} (hends : ∀ e ∈ ends, e.1 ∈ graph.ids)
    {found : List FarPin} (hfound : t.farPins ends = .ok found) :
    found.findSome? FarPin.plainType = some type ↔ graph.FirstPinType kinds ends type := by
  induction ends generalizing found with
  | nil =>
    obtain rfl := Except.ok.inj hfound
    simp [FirstPinType]
  | cons head rest ih =>
    obtain ⟨far, key⟩ := head
    obtain ⟨first, hfirst, hrest⟩ := bind_eq_ok.mp hfound
    obtain ⟨others, hothers, hpure⟩ := bind_eq_ok.mp hrest
    obtain rfl := pure_eq_ok.mp hpure
    obtain ⟨q, hq⟩ := hg.exists_isOf (hends _ List.mem_cons_self)
    have hpin (other : String) :
        first.plainType = some other ↔ graph.HasPinType kinds far key other :=
      h.plainType_iff hn hq hfirst
    rw [FlatGraph.firstPinType_cons_iff, List.findSome?_cons]
    cases htype : first.plainType with
    | some known =>
      have hknown := (hpin known).mp htype
      refine ⟨fun heq => .inl (Option.some.inj heq ▸ hknown), ?_⟩
      rintro (hhas | ⟨hnone, _⟩)
      · exact htype.symm.trans ((hpin type).mpr hhas)
      · exact absurd hknown (hnone known)
    | none =>
      have hnone : ∀ other, ¬ graph.HasPinType kinds far key other := fun other hhas =>
        absurd (htype.symm.trans ((hpin other).mpr hhas)) (by simp)
      dsimp only
      rw [ih (fun e he => hends e (List.mem_cons_of_mem _ he)) hothers]
      exact ⟨fun hlater => .inr ⟨hnone, hlater⟩,
        fun hor => (hor.resolve_left (hnone type)).2⟩

/-- What is deduced is the type of the first pin off terminals that has one, and that of a terminal
only where no far end is such a pin. -/
theorem Sound.deduce_cases (h : Sound kinds graph [] t) (hg : graph.Sound kinds)
    (hn : graph.ids.Nodup) (hd : t.deduce id = .ok (some type)) :
    graph.FirstPinType kinds (farEnds graph id) type ∨
    (¬ ∃ known, graph.MeetsType kinds id known) ∧
      ∃ far pin, graph.Meets id far pin ∧ graph.IsTerminal kinds far ∧
        t.typeOf far = some type := by
  obtain ⟨found, hfound, hchosen⟩ := map_eq_ok.mp hd
  rw [candidates, h.graph_eq] at hfound
  have hfirst (other : String) : found.findSome? FarPin.plainType = some other ↔
      graph.FirstPinType kinds (farEnds graph id) other :=
    h.findSome?_plainType_iff hg hn (farEnds_known hg id) hfound
  rw [choose_eq] at hchosen
  cases hplain : found.findSome? FarPin.plainType with
  | some known =>
    rw [hplain, Option.some_or] at hchosen
    exact .inl ((hfirst type).mp (hplain.trans hchosen))
  | none =>
    have hnone : ¬ ∃ known, graph.MeetsType kinds id known := by
      rintro ⟨known, hmeets⟩
      obtain ⟨other, hother⟩ := FlatGraph.exists_firstPin hmeets
      exact absurd (hplain.symm.trans ((hfirst other).mpr hother)) (by simp)
    refine .inr ⟨hnone, ?_⟩
    cases (h.deduce_iff hg hn hd).1 type rfl with
    | plain hmeets => exact absurd ⟨type, h.graph_eq ▸ h.kinds_eq ▸ hmeets⟩ hnone
    | @terminal far pin hmeets hterminal htyped =>
      exact ⟨far, pin, h.graph_eq ▸ hmeets, h.graph_eq ▸ h.kinds_eq ▸ hterminal, htyped⟩

/-! ## Sources -/

/-- What the type of a terminal comes from. -/
inductive Sourced (kinds : Kinds) (graph : FlatGraph) (t : Typing) : Int → String → Prop
  /-- The terminal declares it. -/
  | declared {id : Int} {p : Primitive} {type : String} (isOf : graph.IsOf kinds id p)
      (declares : p.Declares type) : Sourced kinds graph t id type
  /-- It is that of the first pin off terminals that has one. -/
  | pin {id : Int} {type : String} (undeclared : graph.Undeclared kinds id)
      (first : graph.FirstPinType kinds (farEnds graph id) type) : Sourced kinds graph t id type
  /-- There is no such pin, and a neighbour has the type. -/
  | passed {id far : Int} {type : String} (undeclared : graph.Undeclared kinds id)
      (apart : ¬ ∃ known, graph.MeetsType kinds id known) (joined : graph.Joined kinds id far)
      (typed : t.typeOf far = some type) (source : Sourced kinds graph t far type) :
      Sourced kinds graph t id type
  /-- There is no such pin, and the terminal carries anything. -/
  | anything {id : Int} (undeclared : graph.Undeclared kinds id)
      (apart : ¬ ∃ known, graph.MeetsType kinds id known) : Sourced kinds graph t id anyType

theorem Sourced.mono (h : t.Sourced kinds graph id type) (hext : t.Extends t') :
    t'.Sourced kinds graph id type := by
  induction h with
  | declared isOf declares => exact .declared isOf declares
  | pin undeclared first => exact .pin undeclared first
  | passed undeclared apart joined typed _ ih =>
    exact .passed undeclared apart joined (hext.kept _ _ typed) ih
  | anything undeclared apart => exact .anything undeclared apart

/-- A terminal of the type next to one that has it too. -/
def Shares (kinds : Kinds) (graph : FlatGraph) (t : Typing) (type : String) (a b : Int) : Prop :=
  graph.Joined kinds a b ∧ t.typeOf a = some type ∧ t.typeOf b = some type

/-- Followed to its end, the source of a definite type is a terminal that knows it. -/
theorem Sourced.exists_origin (h : t.Sourced kinds graph id type) (hid : t.typeOf id = some type)
    (hne : type ≠ anyType) :
    ∃ origin, Relation.ReflTransGen (t.Shares kinds graph type) id origin ∧
      graph.Knows kinds origin type := by
  induction h with
  | @declared id p _ isOf declares => exact ⟨id, .refl, .inl ⟨p, isOf, declares⟩⟩
  | @pin id _ _ first => exact ⟨id, .refl, .inr (.of_firstPin first)⟩
  | passed _ _ joined typed _ ih =>
    obtain ⟨origin, hchain, hknows⟩ := ih typed hne
    exact ⟨origin, .head ⟨joined, hid, typed⟩ hchain, hknows⟩
  | anything => exact absurd rfl hne

/-- A typing in which declarations stand and each type found has a source. -/
structure Accounted (kinds : Kinds) (graph : FlatGraph) (t : Typing) : Prop
    extends Covers kinds graph t where
  declared : ∀ id p type, graph.IsOf kinds id p → p.isTerminal = true → p.Declares type →
    t.typeOf id = some type
  sourced : ∀ id type, t.typeOf id = some type → t.Sourced kinds graph id type

namespace Accounted

theorem undeclared_of_lacks (h : Accounted kinds graph t) (hn : graph.ids.Nodup)
    (hlacks : t.Lacks id) : graph.Undeclared kinds id := by
  intro p type hp hdeclares
  obtain ⟨hkey, hnone⟩ := lacks_iff.mp hlacks
  obtain ⟨q, hq, hterminal⟩ := (h.mem_keys id).mp hkey
  obtain rfl := hq.unique hn hp
  exact absurd ((h.declared id q type hq hterminal hdeclares).symm.trans hnone) (by simp)

/-- A typing that extends one keeps its account, if the types that are new have a source. -/
theorem of_extends (h : Accounted kinds graph t) (hext : t.Extends t')
    (hnew : ∀ id type, t.Lacks id → t'.typeOf id = some type → t'.Sourced kinds graph id type) :
    Accounted kinds graph t' where
  toCovers := h.toCovers.of_extends hext
  declared id p type hp hterminal hdeclares :=
    hext.kept _ _ (h.declared id p type hp hterminal hdeclares)
  sourced id type htype := by
    have hkey := (hext.keys_iff id).mp (mem_keys_of_typeOf htype)
    rcases h.typed_or_lacks ((h.mem_keys id).mp hkey) with ⟨old, hold⟩ | hlacks
    · obtain rfl := Option.some.inj ((hext.kept _ _ hold).symm.trans htype)
      exact (h.sourced id old hold).mono hext
    · exact hnew id type hlacks htype

theorem fills (h : Accounted kinds graph t) (hg : graph.Sound kinds) (hn : graph.ids.Nodup)
    (hstep : Fills t t') : Accounted kinds graph t' := by
  have hext := hstep.extends
  refine h.of_extends hext fun other found hother hfound => ?_
  cases hstep with
  | @fill id type lacks deduced =>
    rw [typeOf_set] at hfound
    split at hfound
    · next heq =>
      obtain rfl := Option.some.inj hfound
      subst heq
      have hundeclared := h.undeclared_of_lacks hn lacks
      have hterminal := (h.mem_keys other).mp (lacks_iff.mp lacks).1
      rcases h.toCovers.sound.deduce_cases hg hn deduced with
        hfirst | ⟨hapart, far, pin, hmeets, hfar, htyped⟩
      · exact .pin hundeclared hfirst
      · exact .passed hundeclared hapart ⟨hterminal, hfar, pin, hmeets⟩
          (hext.kept _ _ htyped) ((h.sourced far type htyped).mono hext)
    · exact absurd (hfound.symm.trans (lacks_iff.mp hother).2) (by simp)

theorem steps (h : Accounted kinds graph t) (hg : graph.Sound kinds) (hn : graph.ids.Nodup)
    (hsteps : Relation.ReflTransGen Fills t t') : Accounted kinds graph t' := by
  induction hsteps with
  | refl => exact h
  | tail _ hstep ih => exact ih.fills hg hn hstep

/-- To widen a settled typing leaves each type with a source. -/
theorem widen (h : Accounted kinds graph t) (hg : graph.Sound kinds) (hn : graph.ids.Nodup)
    (hstable : t.Stable) (hw : t.widen t.keys = .ok t') : Accounted kinds graph t' := by
  obtain ⟨hext, hwidened, _⟩ := widen_extends hg hn (fun _ hid => hid) h.toCovers.sound hw
  refine h.of_extends hext fun id type hlacks htype => ?_
  rcases hwidened id type htype with hold | ⟨_, rfl, _⟩
  · exact absurd (hold.symm.trans (lacks_iff.mp hlacks).2) (by simp)
  · refine .anything (h.undeclared_of_lacks hn hlacks) ?_
    rintro ⟨known, hmeets⟩
    refine hstable.not_tells h.toCovers hg hn hlacks ⟨known, .plain ?_⟩
    rwa [h.graph_eq, h.kinds_eq]

/-- In a settled typing, the first pin off terminals that has a type decides. -/
theorem firstPin (h : Accounted kinds graph t) (hg : graph.Sound kinds) (hn : graph.ids.Nodup)
    (hstable : t.Stable) (hid : graph.IsTerminal kinds id) (hundeclared : graph.Undeclared kinds id)
    (hmeets : ∃ known, graph.MeetsType kinds id known) :
    ∃ type, graph.FirstPinType kinds (farEnds graph id) type ∧ t.typeOf id = some type := by
  rcases h.typed_or_lacks hid with ⟨type, htype⟩ | hlacks
  · refine ⟨type, ?_, htype⟩
    cases h.sourced id type htype with
    | declared isOf declares => exact absurd declares (hundeclared _ _ isOf)
    | pin _ first => exact first
    | passed _ apart => exact absurd hmeets apart
    | anything _ apart => exact absurd hmeets apart
  · obtain ⟨known, hmeets⟩ := hmeets
    refine absurd ⟨known, .plain ?_⟩ (hstable.not_tells h.toCovers hg hn hlacks)
    rwa [h.graph_eq, h.kinds_eq]

end Accounted

/-! ## All terminals -/

/-- The stages of a typing that succeeds. -/
theorem stages_of_resolve (h : (start kinds graph).resolve = .ok t) :
    ∃ t₁ t₂ t₃ t₄ : Typing, (start kinds graph).declare graph.nodes = .ok t₁ ∧
      t₁.settle = .ok t₂ ∧ t₂.widen t₂.keys = .ok t₃ ∧ t₃.settle = .ok t₄ ∧
      t₄.close t₄.keys = .ok t := by
  obtain ⟨t₁, h₁, h⟩ := bind_eq_ok.mp h
  obtain ⟨t₂, h₂, h⟩ := bind_eq_ok.mp h
  obtain ⟨t₃, h₃, h⟩ := bind_eq_ok.mp h
  obtain ⟨t₄, h₄, h⟩ := bind_eq_ok.mp h
  exact ⟨t₁, t₂, t₃, t₄, h₁, h₂, h₃, h₄, h⟩

theorem extends_of_close {ids : List Int} (hids : ∀ id ∈ ids, id ∈ t.keys)
    (hs : Sound kinds graph [] t) (h : t.close ids = .ok t') : t.Extends t' := by
  induction ids generalizing t with
  | nil => exact Except.ok.inj h ▸ .refl t
  | cons id rest ih =>
    rcases close_step hs (hids id List.mem_cons_self) rest with
      ⟨next, hnext, hext, _⟩ | ⟨_, _, node, _, hstop⟩
    · refine hext.trans (ih (fun other hother => ?_) (hext.sound hs) (hnext.symm.trans h))
      exact (hext.keys_iff other).mpr (hids other (List.mem_cons_of_mem _ hother))
    · exact absurd (hstop.symm.trans h) (by simp)

/-- The graph is sound if the types of its nodes are primitive, as a typing that succeeds shows. -/
theorem sound_of_resolve (hn : graph.ids.Nodup)
    (hends : ∀ l ∈ graph.links, l.source ∈ graph.ids ∧ l.target ∈ graph.ids)
    (hkinds : ∀ type p, kinds.primitive type = .ok p → p.type = type)
    (h : (start kinds graph).resolve = .ok t) : graph.Sound kinds := by
  obtain ⟨t₁, _, _, _, hdeclare, _⟩ := stages_of_resolve h
  obtain ⟨_, _, _, hnodes⟩ := lookup_declare hn hdeclare
  refine ⟨hends, fun node hnode => ?_⟩
  obtain ⟨p, hp, _⟩ := hnodes node hnode
  have hfound : (start kinds graph).node node.id = .ok node := by
    unfold Typing.node start
    rw [(FlatGraph.node?_eq_some_iff hn).mpr ⟨hnode, rfl⟩]
  obtain ⟨found, hfound', hprimitive⟩ := bind_eq_ok.mp hp
  obtain rfl := Except.ok.inj (hfound.symm.trans hfound')
  exact ⟨p, hprimitive, hkinds _ _ hprimitive⟩

/-- A typing in which no type of a terminal is invented or overridden: declared types stand; where
none is declared, the first pin off terminals that has a type decides; and where there is no such
pin, a definite type of a linked terminal has come along a chain of terminals that all have it, from
one that declares it or is linked to a pin off terminals of that type. -/
structure Warranted (kinds : Kinds) (graph : FlatGraph) (t : Typing) : Prop where
  declared : ∀ id p type, graph.IsOf kinds id p → p.isTerminal = true → p.Declares type →
    t.typeOf id = some type
  firstPin : ∀ id, graph.IsTerminal kinds id → graph.Undeclared kinds id →
    (∃ known, graph.MeetsType kinds id known) →
      ∃ type, graph.FirstPinType kinds (graph.pinsLinkedTo id) type ∧ t.typeOf id = some type
  chained : ∀ id type, graph.IsTerminal kinds id → graph.IsLinked id →
    graph.Undeclared kinds id → (¬ ∃ known, graph.MeetsType kinds id known) →
      t.typeOf id = some type → type ≠ anyType →
        ∃ origin, Relation.ReflTransGen (t.Shares kinds graph type) id origin ∧
          graph.Knows kinds origin type

/-- What the typing of a sound graph comes to is warranted. -/
theorem warranted_of_resolve (hg : graph.Sound kinds) (hn : graph.ids.Nodup)
    (h : (start kinds graph).resolve = .ok t) : Warranted kinds graph t := by
  obtain ⟨t₁, t₂, t₃, t₄, hdeclare, hfirst, hwiden, hlast, hclose⟩ := stages_of_resolve h
  obtain ⟨hc₁, hdeclared⟩ := start_declare hg hn hdeclare
  have h₁ : Accounted kinds graph t₁ := by
    refine ⟨hc₁, fun id p type hp hterminal => (hdeclared id p hp hterminal type).mpr,
      fun id type htype => ?_⟩
    obtain ⟨p, hp, hterminal⟩ := (hc₁.mem_keys id).mp (mem_keys_of_typeOf htype)
    exact .declared hp ((hdeclared id p hp hterminal type).mp htype)
  obtain ⟨hsteps, hstable⟩ := settle_fills hfirst
  have h₂ := h₁.steps hg hn hsteps
  have h₃ := h₂.widen hg hn hstable hwiden
  obtain ⟨hsteps', _⟩ := settle_fills hlast
  have h₄ := h₃.steps hg hn hsteps'
  have hext₃ := (widen_extends hg hn (fun _ hid => hid) h₂.toCovers.sound hwiden).1
  have hext₄ := extends_of_close (fun _ hid => hid) h₄.toCovers.sound hclose
  have hext := (hext₃.trans (extends_of_fills hsteps')).trans hext₄
  refine ⟨fun id p type hp hterminal hdeclares => ?_, fun id hid hundeclared hmeets => ?_,
    fun id type hid hlinked hundeclared hapart htype hne => ?_⟩
  · exact hext₄.kept _ _ (h₄.declared id p type hp hterminal hdeclares)
  · obtain ⟨type, hpin, htype⟩ := h₂.firstPin hg hn hstable hid hundeclared hmeets
    rw [farEnds_eq] at hpin
    exact ⟨type, hpin, hext.kept _ _ htype⟩
  · have hsame : ∀ id, graph.IsLinked id → t.typeOf id = t₄.typeOf id := by
      rcases close_linked (fun _ hid => hid) (Keyed.pairwise_mergeSort_le (fun id => id) _)
          h₄.toCovers.sound with ⟨t', hok, _, hsame⟩ | ⟨_, _, _, _, _, hstop, _⟩
      · obtain rfl := Except.ok.inj (hok.symm.trans hclose)
        exact hsame
      · exact absurd (hstop.symm.trans hclose) (by simp)
    rw [hsame id hlinked] at htype
    obtain ⟨origin, hchain, hknows⟩ := (h₄.sourced id type htype).exists_origin htype hne
    refine ⟨origin, Relation.ReflTransGen.mono (fun a b hab => ?_) _ _ hchain, hknows⟩
    obtain ⟨hjoined, ha, hb⟩ := hab
    have ⟨_, _, pin, hmeets⟩ := hjoined
    refine ⟨hjoined, ?_, ?_⟩
    · rw [hsame a ⟨b, pin, hmeets⟩, ha]
    · obtain ⟨pin', hmeets'⟩ := hmeets.symm
      rw [hsame b ⟨a, pin', hmeets'⟩, hb]

end Typing

/-- The flat graph of any project is sound if its terminals can be typed. -/
theorem Closure.sound_of_resolve {project : Project} {entryPath : String} {strict : Bool}
    {closure : Closure} {graph : FlatGraph} {t : Typing}
    (hc : Closure.ofEntry project entryPath strict = .ok closure)
    (hf : closure.flatten = .ok graph)
    (ht : (Typing.start closure.kinds graph).resolve = .ok t) :
    graph.Sound closure.kinds ∧ graph.ids.Nodup := by
  obtain ⟨hn, hends⟩ := Closure.intact_of_flatten hf
  refine ⟨Typing.sound_of_resolve hn hends (fun type p hp => ?_) ht, hn⟩
  rw [(Closure.primitive_of_ofEntry hc hp).2, Project.primitive]

/-- No type of a terminal is invented or overridden in the flat graph of any project. -/
theorem resolve_warranted {project : Project} {entryPath : String} {strict : Bool}
    {closure : Closure} {graph : FlatGraph} {t : Typing}
    (hc : Closure.ofEntry project entryPath strict = .ok closure)
    (hf : closure.flatten = .ok graph)
    (ht : (Typing.start closure.kinds graph).resolve = .ok t) :
    t.Warranted closure.kinds graph := by
  obtain ⟨hg, hn⟩ := Closure.sound_of_resolve hc hf ht
  exact Typing.warranted_of_resolve hg hn ht

namespace Relay

theorem isOf_iff {id : Int} {p : Primitive} : graph.IsOf (closure "bool").kinds id p ↔
    id = 2 ∧ p = ⟨"led", some (led "bool"), none⟩ ∨
    id = 3 ∧ p = ⟨"core/input", none, some ⟨.input, none⟩⟩ ∨
    id = 4 ∧ p = ⟨"core/output", none, some ⟨.output, none⟩⟩ := by
  simp [FlatGraph.IsOf, graph, closure, Kinds.primitive, Kinds.kind, List.lookup, eq_comm]

theorem undeclared (id : Int) : graph.Undeclared (closure "bool").kinds id := by
  intro p type hp
  rcases isOf_iff.mp hp with ⟨_, rfl⟩ | ⟨_, rfl⟩ | ⟨_, rfl⟩
  · simp [Primitive.Declares, Primitive.CatalogType, led, Terminal.pinKey, List.lookup]
  · simp [Primitive.Declares, Primitive.CatalogType]
  · simp [Primitive.Declares, Primitive.CatalogType]

/-- The input of the patch is linked to its output only. -/
theorem apart : ¬ ∃ known, graph.MeetsType (closure "bool").kinds 3 known := by
  rintro ⟨known, q, key, pin, ⟨far, ⟨l, hl, hmeets⟩, hq, hplain⟩, _⟩
  rcases isOf_iff.mp hq with ⟨rfl, rfl⟩ | ⟨_, rfl⟩ | ⟨_, rfl⟩
  · simp only [graph, List.mem_cons, List.not_mem_nil, or_false] at hl
    rcases hl with rfl | rfl
    · simp at hmeets
    · simp at hmeets
  · simp [Primitive.isTerminal] at hplain
  · simp [Primitive.isTerminal] at hplain

end Relay

theorem resolve_warranted_relay :
    Closure.ofEntry (Relay.project "bool") "@/main" false = .ok (Relay.closure "bool") ∧
    (Relay.closure "bool").flatten = .ok Relay.graph ∧
    ∃ t, (Typing.start (Relay.closure "bool").kinds Relay.graph).resolve = .ok t ∧
      t.typeOf 3 = some "bool" ∧ t.Warranted (Relay.closure "bool").kinds Relay.graph ∧
      ∃ origin, Relation.ReflTransGen
          (t.Shares (Relay.closure "bool").kinds Relay.graph "bool") 3 origin ∧
        Relay.graph.Knows (Relay.closure "bool").kinds origin "bool" := by
  have hc := Relay.ofEntry_project
  have hf := Relay.flatten_closure
  have hresolve : ∃ t, (Typing.start (Relay.closure "bool").kinds Relay.graph).resolve = .ok t ∧
      t.typeOf 3 = some "bool" := ⟨_, by cbv, by cbv⟩
  obtain ⟨t, ht, htype⟩ := hresolve
  have hterminal : Relay.graph.IsTerminal (Relay.closure "bool").kinds 3 :=
    ⟨_, Relay.isOf_iff.mpr (.inr (.inl ⟨rfl, rfl⟩)), rfl⟩
  have hlinked : Relay.graph.IsLinked 3 :=
    ⟨4, "PIN", ⟨3, "PIN", 4, "PIN"⟩, by simp [Relay.graph], .inr ⟨rfl, rfl, rfl⟩⟩
  have hwarranted := resolve_warranted hc hf ht
  exact ⟨hc, hf, t, ht, htype, hwarranted, hwarranted.chained 3 "bool" hterminal hlinked
    (Relay.undeclared 3) Relay.apart htype (by decide)⟩

end Patchbay
