import Patchbay.Proofs.Flat.Settling

/-!
# How far types spread

Settling is a closure. Its loop, taken without a bound on the rounds (`Loops`), ends with what
`settle` answers; it keeps the types there are and gives one just to the entries that hear of one: a
chain of links through terminals without a type leads from the entry to a pin whose type is known
beforehand (`settle_closure`). All this needs of the graph is that its links end on primitives,
whatever entries the typing has.
-/

namespace Patchbay.Typing

variable {t t' t'' : Typing} {id far : Int} {pin type : String} {outcome outcome' : Outcome}

/-! ## The loop -/

/-- The loop of the rounds ends with an outcome: a round that changes nothing is the last one, and
after any other the loop goes on. -/
inductive Loops : Typing → Outcome → Prop
  | done {t : Typing} : t.round t.keys = .ok t → Loops t (.ok t)
  | stopped {t : Typing} {stopped : Stopped Typing} :
      t.round t.keys = .error stopped → Loops t (.error stopped)
  | again {t next : Typing} {outcome : Outcome} :
      t.round t.keys = .ok next → next ≠ t → Loops next outcome → Loops t outcome

theorem Loops.unique (h : Loops t outcome) (h' : Loops t outcome') : outcome = outcome' := by
  induction h with
  | done hround =>
    cases h' with
    | done => rfl
    | stopped hround' => exact absurd (hround.symm.trans hround') (by simp)
    | again hround' hne => exact absurd (Except.ok.inj (hround'.symm.trans hround)) hne
  | stopped hround =>
    cases h' with
    | done hround' => exact absurd (hround.symm.trans hround') (by simp)
    | stopped hround' => rw [Except.error.inj (hround.symm.trans hround')]
    | again hround' => exact absurd (hround.symm.trans hround') (by simp)
  | again hround hne _ ih =>
    cases h' with
    | done hround' => exact absurd (Except.ok.inj (hround.symm.trans hround')) hne
    | stopped hround' => exact absurd (hround.symm.trans hround') (by simp)
    | again hround' _ h' =>
      obtain rfl := Except.ok.inj (hround.symm.trans hround')
      exact ih h'

/-- A round leaves as many entries without a type just if it changes nothing. -/
theorem untyped_eq_iff (h : t.round t.keys = .ok t') : t'.untyped = t.untyped ↔ t' = t := by
  obtain ⟨hsteps, _⟩ := round_fills (fun _ hid => hid) h
  constructor
  · intro hsame
    rcases eq_or_untyped_lt hsteps with heq | hlt
    · exact heq
    · exact absurd hsame hlt.ne
  · intro heq
    rw [heq]

theorem loops_settleWithin {fuel : Nat} (hfuel : t.untyped < fuel) :
    Loops t (settleWithin fuel t) := by
  induction fuel generalizing t with
  | zero => exact absurd hfuel (Nat.not_lt_zero _)
  | succ fuel ih =>
    unfold settleWithin
    cases hround : t.round t.keys with
    | error stopped => exact .stopped hround
    | ok next =>
      show Loops t (if next.untyped = t.untyped then pure next else settleWithin fuel next)
      split
      · next hsame =>
        obtain rfl := (untyped_eq_iff hround).mp hsame
        exact .done hround
      · next hdiff =>
        have hne : next ≠ t := fun heq => hdiff ((untyped_eq_iff hround).mpr heq)
        rcases eq_or_untyped_lt (round_fills (fun _ hid => hid) hround).1 with heq | hlt
        · exact absurd heq hne
        · exact .again hround hne (ih (by omega))

/-- The loop ends, and with what settling answers. -/
theorem loops_iff : Loops t outcome ↔ outcome = t.settle := by
  have hloops : Loops t t.settle := loops_settleWithin (Nat.lt_succ_self _)
  constructor
  · intro h
    exact h.unique hloops
  · rintro rfl
    exact hloops

/-! ## Links between primitives -/

/-- The links end on nodes whose types are primitive. -/
def LinksPrimitives (t : Typing) : Prop :=
  ∀ link ∈ t.graph.links,
    (∃ p, t.primitive link.source = .ok p) ∧ ∃ p, t.primitive link.target = .ok p

theorem Extends.primitive_eq (h : t.Extends t') (id : Int) : t'.primitive id = t.primitive id := by
  simp only [primitive, node, h.graph_eq, h.kinds_eq]

theorem Extends.linksPrimitives (h : t.Extends t') (hlinks : t.LinksPrimitives) :
    t'.LinksPrimitives := by
  intro link hlink
  rw [h.primitive_eq, h.primitive_eq]
  exact hlinks link (h.graph_eq ▸ hlink)

/-- The node is a terminal. -/
def IsTerminal (t : Typing) (id : Int) : Prop :=
  ∃ p, t.primitive id = .ok p ∧ p.isTerminal = true

theorem Extends.isTerminal_iff (h : t.Extends t') (id : Int) :
    t'.IsTerminal id ↔ t.IsTerminal id := by
  rw [IsTerminal, IsTerminal, h.primitive_eq]

theorem farPin_of_terminal {p : Primitive} (h : t.primitive id = .ok p)
    (hterminal : p.isTerminal = true) (pin : String) :
    t.farPin id pin = .ok ⟨true, t.typeOf id⟩ := by
  simp only [farPin, h, hterminal, bind, Except.bind, pure, Except.pure, if_true]

theorem farPin_of_plain {p : Primitive} (h : t.primitive id = .ok p)
    (hplain : p.isTerminal = false) (pin : String) :
    t.farPin id pin = .ok ⟨false, (p.pin? pin).bind fun pin => definite pin.type⟩ := by
  simp only [farPin, h, hplain, bind, Except.bind, pure, Except.pure, Bool.false_eq_true, if_false]

theorem exists_farPin {p : Primitive} (h : t.primitive id = .ok p) (pin : String) :
    ∃ found, t.farPin id pin = .ok found := by
  cases hterminal : p.isTerminal with
  | true => exact ⟨_, farPin_of_terminal h hterminal pin⟩
  | false => exact ⟨_, farPin_of_plain h hterminal pin⟩

namespace LinksPrimitives

theorem exists_primitive (h : t.LinksPrimitives) (hmeets : t.graph.Meets id far pin) :
    ∃ p, t.primitive far = .ok p := by
  obtain ⟨link, hlink, ⟨_, rfl, _⟩ | ⟨_, rfl, _⟩⟩ := hmeets
  · exact (h link hlink).1
  · exact (h link hlink).2

theorem exists_farPins (h : t.LinksPrimitives) (id : Int) {ends : List (Int × String)}
    (hends : ∀ e ∈ ends, t.graph.Meets id e.1 e.2) : ∃ found, t.farPins ends = .ok found := by
  induction ends with
  | nil => exact ⟨[], rfl⟩
  | cons head rest ih =>
    obtain ⟨p, hp⟩ := h.exists_primitive (hends head List.mem_cons_self)
    obtain ⟨first, hfirst⟩ := exists_farPin hp head.2
    obtain ⟨others, hothers⟩ := ih fun e he => hends e (List.mem_cons_of_mem _ he)
    exact ⟨first :: others, bind_eq_ok.mpr ⟨first, hfirst,
      bind_eq_ok.mpr ⟨others, hothers, rfl⟩⟩⟩

theorem exists_deduce (h : t.LinksPrimitives) (id : Int) : ∃ found, t.deduce id = .ok found := by
  obtain ⟨found, hfound⟩ := h.exists_farPins id fun e he => FlatGraph.mem_farEnds_iff.mp he
  exact ⟨choose found, map_eq_ok.mpr ⟨found, hfound, rfl⟩⟩

theorem exists_round (h : t.LinksPrimitives) {ids : List Int} (hids : ∀ id ∈ ids, id ∈ t.keys) :
    ∃ t', t.round ids = .ok t' := by
  induction ids generalizing t with
  | nil => exact ⟨t, rfl⟩
  | cons id rest ih =>
    have hrest := fun other hother => hids other (List.mem_cons_of_mem id hother)
    unfold round
    split
    · exact ih h hrest
    · next htyped =>
      have hlacks : t.Lacks id :=
        lacks_iff.mpr ⟨hids id List.mem_cons_self, by simpa using htyped⟩
      obtain ⟨found, hfound⟩ := h.exists_deduce id
      rw [hfound]
      cases found with
      | none => exact ih h hrest
      | some type =>
        have hext : t.Extends (t.set id (some type)) := .set hlacks _
        exact ih (hext.linksPrimitives h) fun other hother =>
          (hext.keys_iff other).mpr (hrest other hother)

/-- The loop is not stopped. -/
theorem exists_of_loops (h : t.LinksPrimitives) (hloops : Loops t outcome) :
    ∃ t', outcome = .ok t' := by
  induction hloops with
  | @done t => exact ⟨t, rfl⟩
  | stopped hround =>
    obtain ⟨next, hnext⟩ := h.exists_round fun _ hid => hid
    exact absurd (hround.symm.trans hnext) (by simp)
  | again hround _ _ ih =>
    have hsteps := (round_fills (fun _ hid => hid) hround).1
    exact ih ((extends_of_fills hsteps).linksPrimitives h)

theorem exists_settle (h : t.LinksPrimitives) : ∃ t', t.settle = .ok t' :=
  h.exists_of_loops (loops_iff.mpr rfl)

end LinksPrimitives

/-! ## Hearing of a type -/

/-- The type of this pin of a node is known. -/
def Gives (t : Typing) (far : Int) (pin type : String) : Prop :=
  ∃ onTerminal, t.farPin far pin = .ok ⟨onTerminal, some type⟩

/-- A link goes from the node to a terminal that waits for a type itself. -/
def Relays (t : Typing) (id next : Int) : Prop :=
  (∃ pin, t.graph.Meets id next pin) ∧ t.IsTerminal next ∧ t.Lacks next

/-- A chain of links through terminals without a type, possibly empty, leads from the node to one
that has a further link to a pin of known type. -/
def Hears (t : Typing) (id : Int) : Prop :=
  ∃ last far pin type, Relation.ReflTransGen t.Relays id last ∧ t.graph.Meets last far pin ∧
    t.Gives far pin type

/-- A terminal gives the type that is found for it. -/
theorem gives_iff_typeOf (h : t.IsTerminal far) :
    t.Gives far pin type ↔ t.typeOf far = some type := by
  obtain ⟨p, hp, hterminal⟩ := h
  rw [Gives, farPin_of_terminal hp hterminal]
  simp

/-- What a node off terminals gives is the same in all typings of the graph. -/
theorem gives_iff_of_extends (hext : t.Extends t') (h : ¬ t.IsTerminal far) :
    t'.Gives far pin type ↔ t.Gives far pin type := by
  cases hp : t.primitive far with
  | error failure => simp [Gives, farPin, hext.primitive_eq, hp, bind, Except.bind]
  | ok p =>
    have hplain : p.isTerminal = false := by
      simpa using fun hterminal => h ⟨p, hp, hterminal⟩
    rw [Gives, Gives, farPin_of_plain hp hplain,
      farPin_of_plain ((hext.primitive_eq far).trans hp) hplain]

/-- A pin whose type is known keeps it. -/
theorem Gives.of_extends (hext : t.Extends t') (h : t.Gives far pin type) :
    t'.Gives far pin type := by
  by_cases hterminal : t.IsTerminal far
  · rw [gives_iff_typeOf ((hext.isTerminal_iff far).mpr hterminal)]
    exact hext.kept far type ((gives_iff_typeOf hterminal).mp h)
  · exact (gives_iff_of_extends hext hterminal).mpr h

theorem gives_of_deduce (h : t.deduce id = .ok (some type)) :
    ∃ far pin, t.graph.Meets id far pin ∧ t.Gives far pin type := by
  obtain ⟨found, hfound, hchoose⟩ := map_eq_ok.mp h
  obtain ⟨⟨onTerminal, given⟩, hmem, rfl⟩ := exists_of_choose hchoose
  obtain ⟨⟨far, pin⟩, hend, hpin⟩ := (mem_farPins_iff hfound).mp hmem
  exact ⟨far, pin, FlatGraph.mem_farEnds_iff.mp hend, onTerminal, hpin⟩

theorem not_gives_of_deduce (h : t.deduce id = .ok none) (hmeets : t.graph.Meets id far pin) :
    ¬ t.Gives far pin type := by
  rintro ⟨onTerminal, hpin⟩
  obtain ⟨found, hfound, hchoose⟩ := map_eq_ok.mp h
  have hmem := (mem_farPins_iff hfound).mpr ⟨_, FlatGraph.mem_farEnds_iff.mpr hmeets, hpin⟩
  exact absurd (choose_eq_none_iff.mp hchoose _ hmem) (by simp)

/-- Where a pin has a type by now, the node at the other end of its link has heard of one: the type
was known from the start, or the pin is a terminal's that has heard of it in turn. -/
theorem hears_of_gives (hext : t.Extends t') (hmeets : t.graph.Meets id far pin)
    (hgives : t'.Gives far pin type)
    (hfar : t.Lacks far → t'.typeOf far = some type → t.Hears far) : t.Hears id := by
  by_cases hterminal : t.IsTerminal far
  · have htype := (gives_iff_typeOf ((hext.isTerminal_iff far).mpr hterminal)).mp hgives
    have hkey : far ∈ t.keys := (hext.keys_iff far).mp (mem_keys_of_typeOf htype)
    cases hbefore : t.typeOf far with
    | some given =>
      exact ⟨id, far, pin, given, .refl, hmeets, (gives_iff_typeOf hterminal).mpr hbefore⟩
    | none =>
      have hlacks : t.Lacks far := lacks_iff.mpr ⟨hkey, hbefore⟩
      obtain ⟨last, other, key, given, hchain, hlast⟩ := hfar hlacks htype
      exact ⟨last, other, key, given, .head ⟨⟨pin, hmeets⟩, hterminal, hlacks⟩ hchain, hlast⟩
  · exact ⟨id, far, pin, type, .refl, hmeets, (gives_iff_of_extends hext hterminal).mp hgives⟩

/-- Only entries that hear of a type get one. -/
theorem hears_of_fills (h : Relation.ReflTransGen Fills t t') (hlacks : t.Lacks id)
    (htype : t'.typeOf id = some type) : t.Hears id := by
  induction h generalizing id type with
  | refl => exact absurd (htype.symm.trans (lacks_iff.mp hlacks).2) (by simp)
  | @tail near _ hsteps hstep ih =>
    cases hstep with
    | @fill filled found _ hdeduced =>
      rw [typeOf_set] at htype
      split at htype
      · next heq =>
        subst heq
        have hext := extends_of_fills hsteps
        obtain ⟨far, pin, hmeets, hgives⟩ := gives_of_deduce hdeduced
        exact hears_of_gives hext (hext.graph_eq ▸ hmeets) hgives ih
      · exact ih hlacks htype

namespace Stable

/-- Where nothing more is deduced, an entry that is linked to a pin of known type has a type. -/
theorem exists_typeOf_of_gives (hstable : t'.Stable) (hkey : id ∈ t'.keys)
    (hmeets : t'.graph.Meets id far pin) (hgives : t'.Gives far pin type) :
    ∃ type, t'.typeOf id = some type := by
  cases htype : t'.typeOf id with
  | some type => exact ⟨type, rfl⟩
  | none =>
    have hnone := hstable id (lacks_iff.mpr ⟨hkey, htype⟩)
    exact absurd hgives (not_gives_of_deduce hnone hmeets)

/-- Where nothing more is deduced, every entry that hears of a type has one. -/
theorem exists_typeOf_of_hears (hstable : t'.Stable) (hext : t.Extends t') (hlacks : t.Lacks id)
    (h : t.Hears id) : ∃ type, t'.typeOf id = some type := by
  have hkey : ∀ {near}, t.Lacks near → near ∈ t'.keys := fun hnear =>
    (hext.keys_iff _).mpr (lacks_iff.mp hnear).1
  obtain ⟨last, far, pin, type, hchain, hmeets, hgives⟩ := h
  -- The types run back along the chain, from its last terminal to the entry.
  induction hchain using Relation.ReflTransGen.head_induction_on with
  | refl =>
    rw [← hext.graph_eq] at hmeets
    exact hstable.exists_typeOf_of_gives (hkey hlacks) hmeets (hgives.of_extends hext)
  | head hrelay _ ih =>
    obtain ⟨⟨key, hlink⟩, hterminal, hnext⟩ := hrelay
    obtain ⟨given, hgiven⟩ := ih hnext
    rw [← hext.graph_eq] at hlink
    rw [← hext.isTerminal_iff] at hterminal
    exact hstable.exists_typeOf_of_gives (hkey hlacks) hlink
      ((gives_iff_typeOf hterminal).mpr hgiven)

end Stable

/-! ## The closure -/

/-- Where nothing is deduced, a round changes nothing. -/
theorem Stable.round_eq (h : t.Stable) {ids : List Int} (hids : ∀ id ∈ ids, id ∈ t.keys) :
    t.round ids = .ok t := by
  induction ids with
  | nil => rfl
  | cons id rest ih =>
    have hrest := ih fun other hother => hids other (List.mem_cons_of_mem id hother)
    unfold round
    split
    · exact hrest
    · next htyped =>
      rw [h id (lacks_iff.mpr ⟨hids id List.mem_cons_self, by simpa using htyped⟩)]
      exact hrest

/-- Settling again changes nothing. -/
theorem Stable.settle_eq (h : t.Stable) : t.settle = .ok t :=
  (loops_iff.mp (.done (h.round_eq fun _ hid => hid))).symm

/-- Settling ends, without a failure; it keeps the entries and the types they have, gives a type to
just the entries that hear of one, and ends where nothing more is deduced, so that settling again
changes nothing. -/
theorem settle_closure (h : t.LinksPrimitives) :
    ∃ t', t.settle = .ok t' ∧ (∀ outcome, Loops t outcome ↔ outcome = .ok t') ∧ t.Extends t' ∧
      (∀ id, t.Lacks id → ((∃ type, t'.typeOf id = some type) ↔ t.Hears id)) ∧ t'.Stable ∧
      t'.settle = .ok t' := by
  obtain ⟨t', hsettle⟩ := h.exists_settle
  obtain ⟨hsteps, hstable⟩ := settle_fills hsettle
  refine ⟨t', hsettle, fun outcome => ?_, extends_of_fills hsteps, fun id hlacks => ?_, hstable,
    hstable.settle_eq⟩
  · rw [loops_iff, hsettle]
  · constructor
    · rintro ⟨type, htype⟩
      exact hears_of_fills hsteps hlacks htype
    · intro hhears
      exact hstable.exists_typeOf_of_hears (extends_of_fills hsteps) hlacks hhears

/-! Two terminals without a type stand in a row before a lamp, and a third one by itself. -/

namespace Row

/-- A lamp with a pin for a number. -/
def lamp : Primitive where
  type := "lamp"
  entry := some ⟨"lamp", [("level", ⟨.str "level", .input, "number", none, false⟩)], false, false,
    []⟩
  terminal := none

/-- The far terminal, the near one, the lamp and the terminal without links. -/
def graph : FlatGraph where
  nodes := [⟨1, "input", [], 1, "1"⟩, ⟨2, "output", [], 1, "2"⟩, ⟨3, "lamp", [], 1, "3"⟩,
    ⟨4, "input", [], 1, "4"⟩]
  links := [⟨1, "PIN", 2, "PIN"⟩, ⟨2, "PIN", 3, "level"⟩]

/-- Nothing is known of the terminals. -/
def typing : Typing where
  kinds := [("input", .primitive ⟨"input", none, some ⟨.input, none⟩⟩),
    ("output", .primitive ⟨"output", none, some ⟨.output, none⟩⟩), ("lamp", .primitive lamp)]
  graph := graph
  types := [(4, none), (2, none), (1, none)]

theorem linksPrimitives : typing.LinksPrimitives := by
  intro link hlink
  rcases List.mem_pair.mp hlink with rfl | rfl
  · exact ⟨⟨_, rfl⟩, ⟨_, rfl⟩⟩
  · exact ⟨⟨_, rfl⟩, ⟨_, rfl⟩⟩

end Row

/-- The far terminal takes the type of the lamp across the near one; the terminal without links
hears of none. -/
theorem row_closure : Row.typing.LinksPrimitives ∧ Row.typing.Hears 1 ∧ ¬ Row.typing.Hears 4 := by
  obtain ⟨t', hsettle, _, _, hhears, _⟩ := settle_closure Row.linksPrimitives
  have hvalue : Row.typing.settle =
      .ok { Row.typing with types := [(4, none), (2, some "number"), (1, some "number")] } := by
    cbv
  obtain rfl := Except.ok.inj (hsettle.symm.trans hvalue)
  refine ⟨Row.linksPrimitives, (hhears 1 rfl).mp ⟨"number", rfl⟩, fun h => ?_⟩
  obtain ⟨type, htype⟩ := (hhears 4 rfl).mpr h
  exact Option.some_ne_none type htype.symm

end Patchbay.Typing
