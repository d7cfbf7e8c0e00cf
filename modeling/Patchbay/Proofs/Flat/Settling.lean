import Patchbay.Proofs.Flat.Group
import Patchbay.Proofs.Flat.Typing

/-!
# Settling

Settling gives types one at a time: an entry without a type gets one that the far end of a link
tells (`Fills`), and at the end no far end tells anything to an entry without a type
(`settle_fills`). Since what a settled typing lacks it lacks all over a group
(`Stable.lacks_of_grouped`), a fact about single steps becomes one about groups.
-/

namespace Patchbay.Typing

variable {kinds : Kinds} {graph : FlatGraph} {entered : List Int} {t t' t'' : Typing} {id : Int}
  {type : String}

/-! ## Entries -/

/-- The entry of this id is without a type. -/
def Lacks (t : Typing) (id : Int) : Prop := t.types.lookup id = some none

theorem mem_keys_iff : id ∈ t.keys ↔ ∃ found, t.types.lookup id = some found := by
  rw [keys, (List.mergeSort_perm _ _).mem_iff, ← Option.isSome_iff_exists]
  generalize t.types = types
  induction types with
  | nil => simp
  | cons head rest ih =>
    obtain ⟨other, found⟩ := head
    by_cases h : id = other
    · simp [h]
    · simp [h, ih, List.lookup_cons, beq_false_of_ne h]

theorem lacks_iff : t.Lacks id ↔ id ∈ t.keys ∧ t.typeOf id = none := by
  rw [mem_keys_iff, Lacks, typeOf]
  cases t.types.lookup id with
  | none => simp
  | some found => simp

theorem mem_keys_of_typeOf (h : t.typeOf id = some type) : id ∈ t.keys := by
  by_contra hkey
  rw [mem_keys_iff, ← Option.isSome_iff_exists, Option.not_isSome_iff_eq_none] at hkey
  rw [typeOf, hkey] at h
  exact absurd h (by simp)

theorem typeOf_set (id : Int) (found : Option String) (other : Int) :
    (t.set id found).typeOf other = if other = id then found else t.typeOf other := by
  simp only [typeOf, Typing.set, lookup_putType]
  split
  · rfl
  · rfl

theorem lacks_set_iff {found : Option String} {other : Int} (h : t.Lacks id) :
    (t.set id found).Lacks other ↔ t.Lacks other ∧ (other = id → found = none) := by
  simp only [Lacks, Typing.set, lookup_putType]
  by_cases heq : other = id
  · have hid : t.types.lookup id = some none := h
    simp [heq, hid]
  · simp [heq]

theorem untyped_set (h : t.Lacks id) (type : String) :
    (t.set id (some type)).untyped < t.untyped := by
  simp only [untyped, Typing.set]
  unfold Lacks at h
  generalize t.types = types at h
  induction types with
  | nil => simp at h
  | cons head rest ih =>
    obtain ⟨other, found⟩ := head
    unfold putType
    by_cases heq : other = id
    · subst heq
      obtain rfl : found = none := by simpa using h
      simp
    · have hrest : rest.lookup id = some none := by
        simpa [List.lookup_cons, beq_false_of_ne (Ne.symm heq)] using h
      have hless := ih hrest
      simp only [if_neg heq, List.countP_cons]
      omega

/-- A typing of the same entries, which keeps the types of another. -/
structure Extends (t t' : Typing) : Prop where
  kinds_eq : t'.kinds = t.kinds
  graph_eq : t'.graph = t.graph
  keys_iff : ∀ id, id ∈ t'.keys ↔ id ∈ t.keys
  kept : ∀ id type, t.typeOf id = some type → t'.typeOf id = some type

namespace Extends

theorem refl (t : Typing) : t.Extends t := ⟨rfl, rfl, fun _ => .rfl, fun _ _ h => h⟩

theorem trans (h : t.Extends t') (h' : t'.Extends t'') : t.Extends t'' where
  kinds_eq := h'.kinds_eq.trans h.kinds_eq
  graph_eq := h'.graph_eq.trans h.graph_eq
  keys_iff id := (h'.keys_iff id).trans (h.keys_iff id)
  kept id type htype := h'.kept id type (h.kept id type htype)

theorem set (h : t.Lacks id) (found : Option String) : t.Extends (t.set id found) where
  kinds_eq := rfl
  graph_eq := rfl
  keys_iff other := by
    simp only [mem_keys_iff, Typing.set, lookup_putType]
    by_cases heq : other = id
    · have hid : t.types.lookup id = some none := h
      simp [heq, hid]
    · simp [heq]
  kept other type htype := by
    rw [typeOf_set]
    by_cases heq : other = id
    · rw [heq, (lacks_iff.mp h).2] at htype
      exact absurd htype (by simp)
    · rw [if_neg heq, htype]

theorem lacks_of (h : t.Extends t') (hlacks : t'.Lacks id) : t.Lacks id := by
  obtain ⟨hkey, hnone⟩ := lacks_iff.mp hlacks
  refine lacks_iff.mpr ⟨(h.keys_iff id).mp hkey, ?_⟩
  cases htype : t.typeOf id with
  | none => rfl
  | some type => exact absurd ((h.kept id type htype).symm.trans hnone) (by simp)

theorem sound (h : t.Extends t') (hs : Sound kinds graph [] t) : Sound kinds graph [] t' where
  kinds_eq := h.kinds_eq.trans hs.kinds_eq
  graph_eq := h.graph_eq.trans hs.graph_eq
  known entry hentry := by
    have hkey : entry.1 ∈ t'.keys :=
      (List.mergeSort_perm _ _).mem_iff.mpr (List.mem_map_of_mem hentry)
    exact hs.keys_subset _ ((h.keys_iff _).mp hkey)
  entered := by simp

end Extends

/-! ## What far ends tell -/

/-- The far end of a link tells the node its type. -/
inductive Tells (t : Typing) (id : Int) (type : String) : Prop
  /-- It is the pin of a node that is no terminal. -/
  | plain (meets : t.graph.MeetsType t.kinds id type)
  /-- It is a terminal that has a type by now. -/
  | terminal {far : Int} {pin : String} (meets : t.graph.Meets id far pin)
      (isTerminal : t.graph.IsTerminal t.kinds far) (typed : t.typeOf far = some type)

theorem choose_eq_none_iff {found : List FarPin} :
    choose found = none ↔ ∀ far ∈ found, far.type = none := by
  unfold choose
  split
  · next type hsome =>
    obtain ⟨far, hfar, htype⟩ := List.exists_of_findSome?_eq_some hsome
    refine ⟨fun h => absurd h (by simp), fun h => ?_⟩
    rw [h far hfar] at htype
    exact absurd htype (by simp)
  · exact List.findSome?_eq_none_iff

theorem exists_of_choose {found : List FarPin} (h : choose found = some type) :
    ∃ far ∈ found, far.type = some type := by
  unfold choose at h
  split at h
  · next hsome =>
    obtain ⟨far, hfar, htype⟩ := List.exists_of_findSome?_eq_some hsome
    obtain rfl := Option.some.inj h
    refine ⟨far, hfar, ?_⟩
    split at htype
    · exact absurd htype (by simp)
    · exact htype
  · exact List.exists_of_findSome?_eq_some h

theorem mem_farPins_iff {ends : List (Int × String)} {found : List FarPin}
    (h : t.farPins ends = .ok found) {far : FarPin} :
    far ∈ found ↔ ∃ e ∈ ends, t.farPin e.1 e.2 = .ok far := by
  induction ends generalizing found with
  | nil =>
    obtain rfl := Except.ok.inj h
    simp
  | cons head rest ih =>
    obtain ⟨first, hfirst, hrest⟩ := bind_eq_ok.mp h
    obtain ⟨others, hothers, hpure⟩ := bind_eq_ok.mp hrest
    obtain rfl := pure_eq_ok.mp hpure
    rw [List.mem_cons, ih hothers, List.exists_mem_cons_iff, hfirst, Except.ok.injEq,
      eq_comm (a := first)]

namespace Sound

theorem primitive_of_isOf (h : Sound kinds graph entered t) (hn : graph.ids.Nodup) {p : Primitive}
    (hp : graph.IsOf kinds id p) : t.primitive id = .ok p := by
  obtain ⟨node, hnode, hid, hprim⟩ := hp
  have hfound : t.node id = .ok node := by
    unfold Typing.node
    rw [h.graph_eq, (FlatGraph.node?_eq_some_iff hn).mpr ⟨hnode, hid⟩]
  unfold Typing.primitive
  rw [hfound, h.kinds_eq]
  exact hprim

theorem farPin_of_terminal (h : Sound kinds graph entered t) (hn : graph.ids.Nodup)
    (hid : graph.IsTerminal kinds id) (pin : String) :
    t.farPin id pin = .ok ⟨true, t.typeOf id⟩ := by
  obtain ⟨p, hp, hterminal⟩ := hid
  simp only [farPin, h.primitive_of_isOf hn hp, hterminal, bind, Except.bind, pure, Except.pure,
    if_true]

theorem farPin_of_plain (h : Sound kinds graph entered t) (hn : graph.ids.Nodup) {p : Primitive}
    (hp : graph.IsOf kinds id p) (hplain : p.isTerminal = false) (pin : String) :
    t.farPin id pin = .ok ⟨false, (p.pin? pin).bind fun pin => definite pin.type⟩ := by
  simp only [farPin, h.primitive_of_isOf hn hp, hplain, bind, Except.bind, pure, Except.pure,
    Bool.false_eq_true, if_false]

/-- The far end of a link is a terminal, or a pin off terminals. -/
theorem meets_cases (h : Sound kinds graph entered t) (hg : graph.Sound kinds)
    (hn : graph.ids.Nodup) {far : Int} {pin : String} (hmeets : graph.Meets id far pin) :
    (graph.IsTerminal kinds far ∧ t.farPin far pin = .ok ⟨true, t.typeOf far⟩) ∨
    ∃ q, graph.MeetsPlain kinds id q pin ∧
      t.farPin far pin = .ok ⟨false, (q.pin? pin).bind fun pin => definite pin.type⟩ := by
  have hmem : far ∈ graph.ids := farEnds_known hg id _ (FlatGraph.mem_farEnds_iff.mpr hmeets)
  obtain ⟨q, hq⟩ := hg.exists_isOf hmem
  cases hterminal : q.isTerminal with
  | true => exact .inl ⟨⟨q, hq, hterminal⟩, h.farPin_of_terminal hn ⟨q, hq, hterminal⟩ pin⟩
  | false =>
    exact .inr ⟨q, ⟨far, hmeets, hq, hterminal⟩, h.farPin_of_plain hn hq hterminal pin⟩

/-- What is deduced is what the far end of a link tells, and something is where one tells
anything. -/
theorem deduce_iff (h : Sound kinds graph entered t) (hg : graph.Sound kinds)
    (hn : graph.ids.Nodup) {found : Option String} (hd : t.deduce id = .ok found) :
    (∀ type, found = some type → t.Tells id type) ∧
      (found = none → ¬ ∃ type, t.Tells id type) := by
  obtain ⟨pins, hpins, rfl⟩ := map_eq_ok.mp hd
  have hmem : ∀ far, far ∈ pins ↔
      ∃ e ∈ farEnds graph id, t.farPin e.1 e.2 = .ok far := by
    intro far
    rw [← h.graph_eq]
    exact mem_farPins_iff hpins
  constructor
  · intro type htype
    obtain ⟨far, hfar, hsome⟩ := exists_of_choose htype
    obtain ⟨⟨other, pin⟩, hend, hfound⟩ := (hmem far).mp hfar
    have hmeets := FlatGraph.mem_farEnds_iff.mp hend
    rcases h.meets_cases hg hn hmeets with ⟨hterminal, hpin⟩ | ⟨q, hplain, hpin⟩
    · obtain rfl := Except.ok.inj (hpin.symm.trans hfound)
      exact .terminal (h.graph_eq ▸ hmeets) (h.graph_eq ▸ h.kinds_eq ▸ hterminal) hsome
    · obtain rfl := Except.ok.inj (hpin.symm.trans hfound)
      obtain ⟨spec, hspec, hdefinite⟩ := Option.bind_eq_some_iff.mp hsome
      obtain ⟨htype, hne⟩ := definite_eq_some_iff.mp hdefinite
      have hmeets : graph.MeetsType kinds id type := ⟨q, pin, spec, hplain, hspec, htype, hne⟩
      exact .plain (h.graph_eq ▸ h.kinds_eq ▸ hmeets)
  · rintro hnone ⟨type, htells⟩
    rw [choose_eq_none_iff] at hnone
    cases htells with
    | plain hmeets =>
      rw [h.graph_eq, h.kinds_eq] at hmeets
      obtain ⟨q, key, spec, ⟨far, hmeets, hq, hplain⟩, hspec, htype, hne⟩ := hmeets
      have hpin := h.farPin_of_plain hn hq hplain key
      have := hnone _ ((hmem _).mpr ⟨(far, key), FlatGraph.mem_farEnds_iff.mpr hmeets, hpin⟩)
      simp [hspec, definite_eq_some_iff.mpr ⟨htype, hne⟩] at this
    | @terminal far pin hmeets hterminal htyped =>
      rw [h.graph_eq] at hmeets
      rw [h.graph_eq, h.kinds_eq] at hterminal
      have hpin := h.farPin_of_terminal hn hterminal pin
      have := hnone _ ((hmem _).mpr ⟨(far, pin), FlatGraph.mem_farEnds_iff.mpr hmeets, hpin⟩)
      exact absurd (htyped.symm.trans this) (by simp)

end Sound

/-! ## Steps -/

/-- One entry without a type gets the one that is deduced for it. -/
inductive Fills : Typing → Typing → Prop
  | fill {t : Typing} {id : Int} {type : String} (lacks : t.Lacks id)
      (deduced : t.deduce id = .ok (some type)) : Fills t (t.set id (some type))

/-- Nothing is deduced for an entry without a type. -/
def Stable (t : Typing) : Prop := ∀ id, t.Lacks id → t.deduce id = .ok none

theorem Fills.extends (h : Fills t t') : t.Extends t' := by
  cases h with
  | fill lacks _ => exact .set lacks _

theorem extends_of_fills (h : Relation.ReflTransGen Fills t t') : t.Extends t' := by
  induction h with
  | refl => exact .refl t
  | tail _ hstep ih => exact ih.trans hstep.extends

/-- Every step leaves fewer entries without a type. -/
theorem eq_or_untyped_lt (h : Relation.ReflTransGen Fills t t') :
    t' = t ∨ t'.untyped < t.untyped := by
  induction h with
  | refl => exact .inl rfl
  | tail _ hstep ih =>
    cases hstep with
    | @fill id type lacks _ =>
      have hless := untyped_set lacks type
      rcases ih with rfl | ih
      · exact .inr hless
      · exact .inr (hless.trans ih)

/-- A round leaves an entry for which nothing is deduced, or gives it its type. -/
theorem round_step (hid : id ∈ t.keys) {rest : List Int} (h : t.round (id :: rest) = .ok t') :
    (t.round rest = .ok t' ∧ (t.Lacks id → t.deduce id = .ok none)) ∨
      ∃ next, Fills t next ∧ next.untyped < t.untyped ∧ next.round rest = .ok t' := by
  unfold round at h
  split at h
  · next htyped =>
    refine .inl ⟨h, fun hlacks => ?_⟩
    rw [(lacks_iff.mp hlacks).2] at htyped
    exact absurd htyped (by simp)
  · next htyped =>
    split at h
    · exact absurd h (by simp)
    · next hnone => exact .inl ⟨h, fun _ => hnone⟩
    · next type hsome =>
      have hlacks : t.Lacks id := lacks_iff.mpr ⟨hid, by simpa using htyped⟩
      exact .inr ⟨_, .fill hlacks hsome, untyped_set hlacks type, h⟩

/-- A round gives types one by one; one that gives none finds nothing to deduce. -/
theorem round_fills {ids : List Int} (hids : ∀ id ∈ ids, id ∈ t.keys) (h : t.round ids = .ok t') :
    Relation.ReflTransGen Fills t t' ∧
      (t' = t → ∀ id ∈ ids, t.Lacks id → t.deduce id = .ok none) := by
  induction ids generalizing t with
  | nil =>
    obtain rfl := Except.ok.inj h
    exact ⟨.refl, by simp⟩
  | cons id rest ih =>
    have hrest := fun other hother => hids other (List.mem_cons_of_mem _ hother)
    rcases round_step (hids id List.mem_cons_self) h with
      ⟨hround, hnone⟩ | ⟨next, hstep, hless, hround⟩
    · obtain ⟨hsteps, hidle⟩ := ih hrest hround
      refine ⟨hsteps, fun heq other hother => ?_⟩
      rcases List.mem_cons.mp hother with rfl | hother
      · exact hnone
      · exact hidle heq other hother
    · obtain ⟨hsteps, _⟩ :=
        ih (fun other hother => (hstep.extends.keys_iff other).mpr (hrest other hother)) hround
      refine ⟨.head hstep hsteps, ?_⟩
      rintro rfl
      -- The step has made the number of entries without a type smaller, for good.
      rcases eq_or_untyped_lt hsteps with rfl | hlt
      · exact absurd hless (lt_irrefl _)
      · exact absurd (hlt.trans hless) (lt_irrefl _)

theorem settleWithin_fills {fuel : Nat} (hfuel : t.untyped < fuel)
    (h : settleWithin fuel t = .ok t') : Relation.ReflTransGen Fills t t' ∧ t'.Stable := by
  induction fuel generalizing t with
  | zero => exact absurd hfuel (Nat.not_lt_zero _)
  | succ fuel ih =>
    obtain ⟨next, hround, h⟩ := bind_eq_ok.mp h
    obtain ⟨hsteps, hidle⟩ := round_fills (fun _ hid => hid) hround
    split at h
    · next hsame =>
      obtain rfl := pure_eq_ok.mp h
      rcases eq_or_untyped_lt hsteps with heq | hlt
      · subst heq
        exact ⟨hsteps, fun id hlacks => hidle rfl id (lacks_iff.mp hlacks).1 hlacks⟩
      · exact absurd hsame hlt.ne
    · next hdiff =>
      rcases eq_or_untyped_lt hsteps with heq | hlt
      · exact absurd (heq ▸ rfl) hdiff
      · obtain ⟨hmore, hstable⟩ := ih (by omega) h
        exact ⟨hsteps.trans hmore, hstable⟩

/-- Settling gives types one by one, until nothing more is deduced. -/
theorem settle_fills (h : t.settle = .ok t') :
    Relation.ReflTransGen Fills t t' ∧ t'.Stable :=
  settleWithin_fills (Nat.lt_succ_self _) h

/-! ## Groups -/

/-- A typing over a graph that has an entry for every terminal. -/
structure Covers (kinds : Kinds) (graph : FlatGraph) (t : Typing) : Prop where
  kinds_eq : t.kinds = kinds
  graph_eq : t.graph = graph
  mem_keys : ∀ id, id ∈ t.keys ↔ graph.IsTerminal kinds id

namespace Covers

theorem sound (h : Covers kinds graph t) : Sound kinds graph [] t where
  kinds_eq := h.kinds_eq
  graph_eq := h.graph_eq
  known entry hentry := by
    have hkey : entry.1 ∈ t.keys :=
      (List.mergeSort_perm _ _).mem_iff.mpr (List.mem_map_of_mem hentry)
    exact ((h.mem_keys _).mp hkey).mem_ids
  entered := by simp

theorem of_extends (h : Covers kinds graph t) (hext : t.Extends t') : Covers kinds graph t' where
  kinds_eq := hext.kinds_eq.trans h.kinds_eq
  graph_eq := hext.graph_eq.trans h.graph_eq
  mem_keys id := (hext.keys_iff id).trans (h.mem_keys id)

theorem typed_or_lacks (h : Covers kinds graph t) (hid : graph.IsTerminal kinds id) :
    (∃ type, t.typeOf id = some type) ∨ t.Lacks id := by
  cases htype : t.typeOf id with
  | some type => exact .inl ⟨type, rfl⟩
  | none => exact .inr (lacks_iff.mpr ⟨(h.mem_keys id).mpr hid, htype⟩)

end Covers

/-- Where nothing more is deduced, no far end tells anything. -/
theorem Stable.not_tells (hstable : t.Stable) (h : Covers kinds graph t) (hg : graph.Sound kinds)
    (hn : graph.ids.Nodup) (hlacks : t.Lacks id) : ¬ ∃ type, t.Tells id type :=
  (h.sound.deduce_iff hg hn (hstable id hlacks)).2 rfl

/-- Where nothing more is deduced, a group has types for all its terminals or for none. -/
theorem Stable.lacks_of_grouped (hstable : t.Stable) (h : Covers kinds graph t)
    (hg : graph.Sound kinds) (hn : graph.ids.Nodup) (hlacks : t.Lacks id) {member : Int}
    (hgrouped : graph.Grouped kinds id member) : t.Lacks member := by
  induction hgrouped with
  | refl => exact hlacks
  | @tail near far _ hjoined ih =>
    obtain ⟨_, hfar, pin, hmeets⟩ := hjoined
    rcases h.typed_or_lacks hfar with ⟨type, htype⟩ | hlacks
    · have htells : t.Tells near type :=
        .terminal (h.graph_eq ▸ hmeets) (h.graph_eq ▸ h.kinds_eq ▸ hfar) htype
      exact absurd ⟨type, htells⟩ (hstable.not_tells h hg hn ih)
    · exact hlacks

end Patchbay.Typing
