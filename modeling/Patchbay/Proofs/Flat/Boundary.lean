import Patchbay.Proofs.Flat.Numbering
import Patchbay.Proofs.Flat.Orientation

/-!
# Boundaries of inlined instances

What an instance refers to on its boundary is found exactly if it names a terminal
(`terminalPlace_cases`). The literal values of an instance settle on its copies, unless a key names
no terminal or cannot be read (`moveLiterals_cases`); the edge ends on it move to the terminals they
name, unless one names none (`spliceEdges_cases`).
-/

namespace Patchbay

/-- Both ends of an edge. -/
def Edge.ends (edge : Edge) : List LinkEnd := [edge.source, edge.target]

theorem Edge.mem_ends_iff {edge : Edge} {e : LinkEnd} :
    e ∈ edge.ends ↔ e = edge.source ∨ e = edge.target := by
  simp [Edge.ends]

theorem Edge.source_mem_ends (edge : Edge) : edge.source ∈ edge.ends :=
  Edge.mem_ends_iff.mpr (.inl rfl)

theorem Edge.target_mem_ends (edge : Edge) : edge.target ∈ edge.ends :=
  Edge.mem_ends_iff.mpr (.inr rfl)

namespace Inlining

variable {closure : Closure} {patch : Patch} {first : Int} {owner : Int}

/-- The places of a patch whose nodes are numbered from `first` on. -/
def placesOf (patch : Patch) (first : Int) : Places := placesFrom first patch.sortedNodes

/-- A node of a patch and its number. -/
def Numbered (patch : Patch) (first : Int) (i : Int) (node : Node) : Prop :=
  (i, node) ∈ numbered first patch.sortedNodes

theorem place_placesOf_iff (hp : patch.Sound) {i id : Int} :
    place (placesOf patch first) id = .ok i ↔ ∃ node, Numbered patch first i node ∧ node.id = id :=
  place_eq_ok_iff (nodup_sortedNodes hp)

theorem covers_placesOf (hp : patch.Sound) (first : Int) :
    Covers (placesOf patch first) patch := by
  intro node hn
  obtain ⟨i, hi⟩ := exists_numbered (mem_sortedNodes.mpr hn) first
  exact ⟨i, (place_placesOf_iff hp).mpr ⟨node, hi, rfl⟩⟩

/-- A boundary reference leads to the place of the terminal that it names. -/
theorem terminalPlace_cases (hs : closure.Sound) (hp : patch ∈ closure.patches) (first owner : Int)
    (d : Direction) (terminal : Nat) :
    (∃ failure, terminalPlace closure.kinds patch (placesOf patch first) owner d terminal
        = .error failure ∧ failure.IsInvalid ∧ ¬ closure.Names patch d terminal) ∨
    (∃ global, terminalPlace closure.kinds patch (placesOf patch first) owner d terminal
        = .ok global ∧ place (placesOf patch first) terminal = .ok global ∧
        closure.Names patch d terminal) := by
  have hsound := hs.patch_sound _ hp
  unfold terminalPlace
  cases hnode : patch.node? terminal with
  | none =>
    refine .inl ⟨_, rfl, rfl, fun ⟨node, hn, hid, _⟩ => ?_⟩
    rw [hsound.node?_eq_some_iff.mpr ⟨hn, hid⟩] at hnode
    exact absurd hnode (by simp)
  | some node =>
    obtain ⟨hn, hid⟩ := hsound.node?_eq_some_iff.mp hnode
    have hnames : closure.Names patch d terminal ↔
        ∃ p t, closure.kinds.kind node.type = .ok (.primitive p) ∧ p.terminal = some t ∧
          t.direction = d := by
      refine ⟨fun ⟨m, hm, hmid, h⟩ => ?_, fun h => ⟨node, hn, hid, h⟩⟩
      rwa [hsound.eq_of_id_eq hn hm (hid.trans hmid.symm)]
    obtain ⟨kind, hkind⟩ := hs.classified _ hp _ hn
    rw [hnames]
    simp only [hkind]
    cases kind with
    | subPatch path => exact .inl ⟨_, rfl, rfl, by simp⟩
    | primitive p =>
      simp only
      split
      · next hterminal =>
        obtain ⟨global, hglobal⟩ := covers_placesOf hsound first node hn
        rw [hid] at hglobal
        obtain ⟨t, ht, htd⟩ := Option.map_eq_some_iff.mp hterminal
        exact .inr ⟨global, hglobal, hglobal, p, t, rfl, ht, htd⟩
      · next hterminal =>
        refine .inl ⟨_, rfl, rfl, ?_⟩
        rintro ⟨p', t, hp', ht, rfl⟩
        obtain rfl := Kind.primitive.inj (Except.ok.inj hp')
        exact hterminal (by rw [ht]; rfl)

/-! ## Literal values -/

theorem read_cases (key : String) :
    (∃ count, PinRef.read key = .error (.tooManyDigits count) ∧ Document.keyFault? key ≠ none) ∨
      PinRef.read key = .ok (PinRef.parse key) ∧ Document.keyFault? key = none := by
  unfold Document.keyFault? PinRef.read Text.Numeral.read
  split
  · exact .inr ⟨rfl, rfl⟩
  · split
    · exact .inl ⟨_, rfl, by simp [Except.map]⟩
    · exact .inr ⟨rfl, rfl⟩

/-- The literal value is on the boundary, for no terminal of its direction. -/
def Stray (closure : Closure) (patch : Patch) (literal : String × Value) : Prop :=
  ∃ d terminal, PinRef.parse literal.1 = .boundary d terminal ∧ ¬ closure.Names patch d terminal

theorem not_stray_of_names {literal : String × Value} {d : Direction} {terminal : Nat}
    (hparse : PinRef.parse literal.1 = .boundary d terminal)
    (hnames : closure.Names patch d terminal) : ¬ Stray closure patch literal := by
  rintro ⟨d', terminal', h, hnot⟩
  obtain ⟨rfl, rfl⟩ := PinRef.boundary.inj (hparse.symm.trans h)
  exact hnot hnames

/-- One literal value settles on the copies, and the others are left to be moved, unless its key
names no terminal or cannot be read. -/
theorem moveLiterals_cons_cases (hs : closure.Sound) (hp : patch ∈ closure.patches) (owner : Int)
    {debugId : String} {others : List FlatNode} (hothers : ∀ flat ∈ others, flat.id < first)
    {c : Inlining} (hc : c.closure = closure) {done : Members}
    (hnodes : c.nodes = others ++ (numbered first patch.sortedNodes).map (copyOf done debugId))
    (literal : String × Value) (rest : Members) :
    (∃ stopped, moveLiterals patch (placesOf patch first) owner c (literal :: rest)
        = .error stopped ∧
      (stopped.failure.IsInvalid ∧ Stray closure patch literal ∨
        stopped.failure.IsUnread ∧ Document.keyFault? literal.1 ≠ none)) ∨
    (moveLiterals patch (placesOf patch first) owner c (literal :: rest) =
        moveLiterals patch (placesOf patch first) owner { c with
          nodes := others ++ (numbered first patch.sortedNodes).map
            (copyOf (done ++ [literal]) debugId) } rest ∧
      ¬ Stray closure patch literal ∧ Document.keyFault? literal.1 = none) := by
  obtain ⟨key, value⟩ := literal
  rw [moveLiterals]
  rcases read_cases key with ⟨count, hread, hfault⟩ | ⟨hread, hnone⟩
  · exact .inl ⟨_, by rw [hread], .inr ⟨⟨count, rfl⟩, hfault⟩⟩
  rw [hread]
  cases hparse : PinRef.parse key with
  | named name =>
    have hnot : ∀ id, ¬ KeyNames key id := by
      rintro id ⟨d, terminal, h, _⟩
      exact absurd (hparse.symm.trans h) (by simp)
    have hsame : c.nodes = others ++ (numbered first patch.sortedNodes).map
        (copyOf (done ++ [(key, value)]) debugId) := by
      rw [hnodes]
      congr 1
      refine List.map_congr_left fun entry _ => ?_
      simp only [copyOf, settle_concat_of_not_names (hnot entry.2.id)]
    refine .inr ⟨by rw [← hsame], ?_, hnone⟩
    rintro ⟨d, terminal, h, _⟩
    exact absurd (hparse.symm.trans h) (by simp)
  | boundary d terminal =>
    simp only [show c.closure.kinds = closure.kinds from congrArg Closure.kinds hc]
    rcases terminalPlace_cases hs hp first owner d terminal with
      ⟨failure, hfail, hinvalid, hnot⟩ | ⟨global, hok, hplace, hnames⟩
    · exact .inl ⟨_, by rw [hfail], .inl ⟨hinvalid, d, terminal, hparse, hnot⟩⟩
    refine .inr ⟨?_, not_stray_of_names hparse hnames, hnone⟩
    have hsound := hs.patch_sound _ hp
    obtain ⟨m, hm, _⟩ := (place_placesOf_iff hsound).mp hplace
    have hother : ∀ flat ∈ others, flat.id ≠ global := by
      intro flat hflat
      have := hothers flat hflat
      have := le_of_numbered hm
      omega
    have hset : setProperty global Terminal.pinKey value c.nodes = others ++
        (numbered first patch.sortedNodes).map (copyOf (done ++ [(key, value)]) debugId) := by
      have hfresh := setProperty_eq_self hother Terminal.pinKey value
      have hsettled :=
        setProperty_copies (nodup_sortedNodes hsound) hparse hplace done debugId value
      rw [hnodes]
      unfold setProperty at hfresh hsettled ⊢
      rw [List.map_append, hfresh, hsettled]
    simp only [hok, hset]

/-- The literal values of an instance settle on its copies and change nothing else, unless a key
names no terminal or cannot be read. -/
theorem moveLiterals_cases (hs : closure.Sound) (hp : patch ∈ closure.patches) (owner : Int)
    {debugId : String} {others : List FlatNode} (hothers : ∀ flat ∈ others, flat.id < first)
    {literals : Members} {c : Inlining} (hc : c.closure = closure) {done : Members}
    (hnodes : c.nodes = others ++
      (numbered first patch.sortedNodes).map (copyOf done debugId)) :
    (∃ stopped, moveLiterals patch (placesOf patch first) owner c literals = .error stopped ∧
      (stopped.failure.IsInvalid ∧ (∃ literal ∈ literals, Stray closure patch literal) ∨
        stopped.failure.IsUnread ∧ ∃ literal ∈ literals, Document.keyFault? literal.1 ≠ none)) ∨
    (moveLiterals patch (placesOf patch first) owner c literals = .ok { c with
        nodes := others ++
          (numbered first patch.sortedNodes).map (copyOf (done ++ literals) debugId) } ∧
      ∀ literal ∈ literals, ¬ Stray closure patch literal ∧
        Document.keyFault? literal.1 = none) := by
  induction literals generalizing c done with
  | nil => exact .inr ⟨by simp [moveLiterals, ← hnodes], by simp⟩
  | cons literal rest ih =>
    rcases moveLiterals_cons_cases hs hp owner hothers hc hnodes literal rest with
      ⟨stopped, hstop, hcause⟩ | ⟨hmoved, hgood⟩
    · refine .inl ⟨stopped, hstop, hcause.imp (.imp_right fun h => ?_) (.imp_right fun h => ?_)⟩
      · exact ⟨literal, List.mem_cons_self, h⟩
      · exact ⟨literal, List.mem_cons_self, h⟩
    rw [hmoved]
    have hnext := @ih { c with
      nodes := others ++ (numbered first patch.sortedNodes).map
        (copyOf (done ++ [literal]) debugId) } hc _ rfl
    rcases hnext with ⟨stopped, hstop, hcause⟩ | ⟨hok, hrest⟩
    · exact .inl ⟨stopped, hstop, hcause.imp (.imp_right List.exists_mem_cons_of_exists)
        (.imp_right List.exists_mem_cons_of_exists)⟩
    · exact .inr ⟨by simpa using hok, List.forall_mem_cons.mpr ⟨hgood, hrest⟩⟩

/-! ## Edges -/

/-- What a link end becomes when the instance is inlined: an end on the instance moves to the
terminal that it names. -/
def SplicedEnd (closure : Closure) (patch : Patch) (places : Places) (owner : Int)
    (e moved : LinkEnd) : Prop :=
  (e.node ≠ owner ∧ moved = e) ∨
    (e.node = owner ∧ ∃ d terminal, e.pin = .boundary d terminal ∧
      closure.Names patch d terminal ∧ place places terminal = .ok moved.node ∧
      moved.pin = .named Terminal.pinKey)

/-- An edge and what it becomes when the instance is inlined. -/
structure Spliced (closure : Closure) (patch : Patch) (places : Places) (owner : Int)
    (edge moved : Edge) : Prop where
  source : SplicedEnd closure patch places owner edge.source moved.source
  target : SplicedEnd closure patch places owner edge.target moved.target

/-- The end is on the boundary of the instance, for no terminal of its direction. -/
def Loose (closure : Closure) (patch : Patch) (owner : Int) (e : LinkEnd) : Prop :=
  e.node = owner ∧ ∃ d terminal, e.pin = .boundary d terminal ∧ ¬ closure.Names patch d terminal

/-- An end that lies on the instance is on its boundary. -/
def OnBoundary (owner : Int) (e : LinkEnd) : Prop :=
  e.node = owner → ∃ d terminal, e.pin = .boundary d terminal

theorem splice_cases (hs : closure.Sound) (hp : patch ∈ closure.patches) (first : Int)
    {e : LinkEnd} (he : OnBoundary owner e) :
    (∃ failure, splice closure.kinds patch (placesOf patch first) owner e = .error failure ∧
      failure.IsInvalid ∧ Loose closure patch owner e) ∨
    (∃ moved, splice closure.kinds patch (placesOf patch first) owner e = .ok moved ∧
      SplicedEnd closure patch (placesOf patch first) owner e moved) := by
  unfold splice
  by_cases howner : e.node = owner
  · obtain ⟨d, terminal, hpin⟩ := he howner
    simp only [howner, ne_eq, not_true_eq_false, if_false, hpin]
    rcases terminalPlace_cases hs hp first owner d terminal with
      ⟨failure, hfail, hinvalid, hnot⟩ | ⟨global, hok, hplace, hnames⟩
    · exact .inl ⟨failure, by rw [hfail]; rfl, hinvalid, howner, d, terminal, hpin, hnot⟩
    · exact .inr ⟨_, by rw [hok]; rfl, .inr ⟨howner, d, terminal, hpin, hnames, hplace, rfl⟩⟩
  · exact .inr ⟨e, if_pos howner, .inl ⟨howner, rfl⟩⟩

/-- The edges of the graph move off the instance, unless one of them names no terminal of it. -/
theorem spliceEdges_cases (hs : closure.Sound) (hp : patch ∈ closure.patches) (first : Int)
    {edges : List Edge} (hedges : ∀ edge ∈ edges, ∀ e ∈ edge.ends, OnBoundary owner e) :
    (∃ failure, spliceEdges closure.kinds patch (placesOf patch first) owner edges
        = .error failure ∧
      failure.IsInvalid ∧ ∃ edge ∈ edges, ∃ e ∈ edge.ends, Loose closure patch owner e) ∨
    (∃ moved, spliceEdges closure.kinds patch (placesOf patch first) owner edges = .ok moved ∧
      List.Forall₂ (Spliced closure patch (placesOf patch first) owner) edges moved) := by
  induction edges with
  | nil => exact .inr ⟨[], rfl, .nil⟩
  | cons edge rest ih =>
    have hedge := hedges edge List.mem_cons_self
    unfold spliceEdges
    rcases splice_cases hs hp first (hedge edge.source edge.source_mem_ends) with
      ⟨failure, hfail, hinvalid, hloose⟩ | ⟨source, hsource, hmoved⟩
    · exact .inl ⟨failure, by rw [hfail]; rfl, hinvalid, edge, List.mem_cons_self, _,
        edge.source_mem_ends, hloose⟩
    rcases splice_cases hs hp first (hedge edge.target edge.target_mem_ends) with
      ⟨failure, hfail, hinvalid, hloose⟩ | ⟨target, htarget, hmoved'⟩
    · exact .inl ⟨failure, by rw [hsource, hfail]; rfl, hinvalid, edge, List.mem_cons_self, _,
        edge.target_mem_ends, hloose⟩
    rcases ih fun e he => hedges e (List.mem_cons_of_mem _ he) with
      ⟨failure, hfail, hinvalid, l, hl, hloose⟩ | ⟨moved, hok, hforall⟩
    · exact .inl ⟨failure, by rw [hsource, htarget, hfail]; rfl, hinvalid, l,
        List.mem_cons_of_mem _ hl, hloose⟩
    · exact .inr ⟨⟨source, target⟩ :: moved, by rw [hsource, htarget, hok]; rfl,
        .cons ⟨hmoved, hmoved'⟩ hforall⟩

end Inlining

end Patchbay
