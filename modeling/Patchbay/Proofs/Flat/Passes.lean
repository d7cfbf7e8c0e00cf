import Patchbay.Proofs.Flat.GlobalIds
import Patchbay.Proofs.Flat.Refusal

/-!
# Passes

A run makes passes as long as instances are left. As a loop with no bound on the passes (`Loops`) it
ends for every entry that has a closure, so that the bound of the run is never met
(`unbounded_iff`). A pass opens all the sites of one level, so there are as many passes as instances
nest below the entry (`Closure.HasDepth`), and then only primitives are left (`flatten_passes`).
-/

namespace Patchbay

/-- The longest chain of nested instances below the entry has so many. -/
def Closure.HasDepth (closure : Closure) (depth : Nat) : Prop :=
  IsGreatest {length | ∃ site, closure.Stands site ∧ site.path.length = length} depth

namespace Inlining

/-! ## The loop -/

/-- The loop of the passes ends with an outcome: without an instance left it is over, and otherwise
it goes on after a pass. -/
inductive Loops : Inlining → Outcome → Prop
  | done {c : Inlining} : c.pending = .ok [] → Loops c (.ok c)
  | unclassified {c : Inlining} {failure : Failure} : c.pending = .error failure →
      Loops c (.error ⟨c, failure⟩)
  | stopped {c : Inlining} {id : Int} {ids : List Int} {stopped : Stopped Inlining} :
      c.pending = .ok (id :: ids) →
      inlineAll { c with passes := c.passes + 1 } (id :: ids) = .error stopped →
      Loops c (.error stopped)
  | pass {c d : Inlining} {id : Int} {ids : List Int} {outcome : Outcome} :
      c.pending = .ok (id :: ids) →
      inlineAll { c with passes := c.passes + 1 } (id :: ids) = .ok d →
      Loops d outcome → Loops c outcome

/-- The entry is put in, and the loop of the passes ends with an outcome. -/
inductive Unbounded (closure : Closure) : Outcome → Prop
  | refused {stopped : Stopped Inlining} :
      (entered closure).addLinks closure.entry (ownPlaces closure.entry) = .error stopped →
      Unbounded closure (.error stopped)
  | loops {c : Inlining} {outcome : Outcome} :
      (entered closure).addLinks closure.entry (ownPlaces closure.entry) = .ok c →
      Loops c outcome → Unbounded closure outcome

variable {closure : Closure} {c c' : Inlining} {sites : List Site} {waiting : List Int}
  {patch : Patch} {places : Places} {outcome outcome' : Outcome}

theorem Loops.unique (h : Loops c outcome) (h' : Loops c outcome') : outcome = outcome' := by
  induction h with
  | done hpending =>
    cases h' with
    | done => rfl
    | _ => simp_all
  | unclassified hpending =>
    cases h' with
    | unclassified hpending' => rw [Except.error.inj (hpending.symm.trans hpending')]
    | _ => simp_all
  | stopped hpending hall =>
    cases h' with
    | stopped hpending' hall' =>
      obtain ⟨rfl, rfl⟩ := List.cons.inj (Except.ok.inj (hpending.symm.trans hpending'))
      exact hall.symm.trans hall'
    | pass hpending' hall' =>
      obtain ⟨rfl, rfl⟩ := List.cons.inj (Except.ok.inj (hpending.symm.trans hpending'))
      exact absurd (hall.symm.trans hall') (by simp)
    | _ => simp_all
  | pass hpending hall _ ih =>
    cases h' with
    | stopped hpending' hall' =>
      obtain ⟨rfl, rfl⟩ := List.cons.inj (Except.ok.inj (hpending.symm.trans hpending'))
      exact absurd (hall.symm.trans hall') (by simp)
    | pass hpending' hall' h' =>
      obtain ⟨rfl, rfl⟩ := List.cons.inj (Except.ok.inj (hpending.symm.trans hpending'))
      obtain rfl := Except.ok.inj (hall.symm.trans hall')
      exact ih h'
    | _ => simp_all

/-- As many passes as suffice are all that the loop makes. -/
theorem loops_expand {fuel : Nat} (hend : ∀ c', expand fuel c = .ok c' → c'.pending = .ok []) :
    Loops c (expand fuel c) := by
  induction fuel generalizing c with
  | zero => exact .done (hend c rfl)
  | succ fuel ih =>
    unfold expand at hend ⊢
    rcases hpending : c.pending with failure | (_ | ⟨id, ids⟩)
    · exact .unclassified hpending
    · exact .done hpending
    · rw [hpending] at hend
      dsimp only at hend ⊢
      cases hall : inlineAll { c with passes := c.passes + 1 } (id :: ids) with
      | error stopped => exact .stopped hpending hall
      | ok d =>
        rw [hall] at hend
        exact .pass hpending hall (ih hend)

theorem pending_eq_nil (hs : closure.Sound) (hsound : Sound closure c)
    (hprimitive : ∀ flat ∈ c.nodes, ¬ IsInstance closure flat) : c.pending = .ok [] := by
  obtain ⟨ids, hpending, _, hmem⟩ := pending_cases hs hsound
  have hnone : ids = [] := List.eq_nil_iff_forall_not_mem.mpr fun id hid => by
    obtain ⟨flat, hflat, _, hinst⟩ := (hmem id).mp hid
    exact hprimitive flat hflat hinst
  rw [hpending, hnone]

/-- Once the entry is in, the loop ends with what the run answers. -/
theorem loops_run (hs : closure.Sound)
    (h : (entered closure).addLinks closure.entry (ownPlaces closure.entry) = .ok c) :
    Loops c (start closure).run := by
  have hrun : (start closure).run = expand (c.closure.patches.length + 1) c := by
    rw [run_eq hs, h]
    rfl
  rw [hrun]
  refine loops_expand fun c' hc' => ?_
  rcases run_cases hs with ⟨stopped, hstop, _⟩ | ⟨d, sites, hd, hcomplete⟩
  · exact absurd (hstop.symm.trans (hrun.trans hc')) (by simp)
  · obtain rfl := Except.ok.inj (hd.symm.trans (hrun.trans hc'))
    exact pending_eq_nil hs hcomplete.unfolds.sound hcomplete.primitive

/-- The loop ends, and with what the run answers. -/
theorem unbounded_iff (hs : closure.Sound) :
    Unbounded closure outcome ↔ outcome = (start closure).run := by
  constructor
  · rintro (hstop | ⟨hok, hloops⟩)
    · rw [run_eq hs, hstop]
      rfl
    · exact hloops.unique (loops_run hs hok)
  · rintro rfl
    rcases enter_cases hs with ⟨stopped, hstop, _⟩ | ⟨c, links, edges, hok, _⟩
    · rw [run_eq hs, hstop]
      exact .refused hstop
    · exact .loops hok (loops_run hs hok)

/-! ## The passes made -/

theorem passes_of_addEdges {links : List Link} (h : addEdges patch places c links = .ok c') :
    c'.passes = c.passes := by
  fun_induction addEdges patch places c links with
  | case1 => rw [Except.ok.inj h]
  | case2 => exact absurd h (by simp)
  | case3 _ _ _ _ _ ih => exact ih h

theorem passes_of_addLinks (h : c.addLinks patch places = .ok c') : c'.passes = c.passes := by
  unfold addLinks at h
  split at h
  · exact absurd h (by simp)
  · exact passes_of_addEdges h

theorem passes_of_moveLiterals {owner : Int} {literals : Members}
    (h : moveLiterals patch places owner c literals = .ok c') : c'.passes = c.passes := by
  fun_induction moveLiterals patch places owner c literals with
  | case1 => rw [Except.ok.inj h]
  | case2 => exact absurd h (by simp)
  | case3 _ _ _ _ _ _ ih => exact ih h
  | case4 => exact absurd h (by simp)
  | case5 _ _ _ _ _ _ _ _ _ _ ih => exact ih h

/-- A pass is not counted anew for each of its instances. -/
theorem passes_of_inline {id : Int} (h : c.inline id = .ok c') : c'.passes = c.passes := by
  obtain ⟨⟨owner, d⟩, htake, h⟩ := bind_eq_ok.mp h
  have hd : d.passes = c.passes := by
    unfold takeNode at htake
    split at htake
    · exact absurd htake (by simp)
    · rw [← (Prod.mk.inj (Except.ok.inj htake)).2]
  rw [← hd]
  dsimp only at h
  split at h
  · exact absurd h (by simp)
  · obtain ⟨e, hmove, h⟩ := bind_eq_ok.mp h
    have he := passes_of_moveLiterals hmove
    split at h
    · exact absurd h (by simp)
    · exact (passes_of_addLinks h).trans he

/-! ## Levels -/

/-- The sites that are open at a stage lie on the levels of the passes made so far, and there is one
on the last of these levels unless the pass has only begun. -/
structure Leveled (closure : Closure) (sites : List Site) (waiting : List Int) (c : Inlining) :
    Prop where
  counted : ∃ paths, Counted closure sites paths c.passes waiting c
  length_le : ∀ site ∈ sites, site.path.length ≤ c.passes
  reached : waiting = [] → ∃ site ∈ sites, site.path.length = c.passes

theorem leveled_enter (hs : closure.Sound)
    (h : (entered closure).addLinks closure.entry (ownPlaces closure.entry) = .ok c) :
    Leveled closure [entrySite closure] [] c := by
  have hpasses : c.passes = 0 := passes_of_addLinks h
  exact ⟨⟨[], hpasses ▸ counted_enter hs h⟩, by simp [entrySite], by simp [entrySite, hpasses]⟩

theorem Leveled.step {s t : Inlining × List Int} (hs : closure.Sound)
    (hl : Leveled closure sites s.2 s.1) (h : Step s t) :
    ∃ sites', Leveled closure sites' t.2 t.1 := by
  obtain ⟨paths, hk⟩ := hl.counted
  cases h with
  | @turn c id ids hpending =>
    exact ⟨sites, ⟨paths, hk.turn hs hpending⟩,
      fun site hsite => Nat.le_succ_of_le (hl.length_le site hsite),
      fun hnil => absurd hnil (List.cons_ne_nil id ids)⟩
  | @inline c c' id ids hinline =>
    obtain ⟨site, added, hk', hlength, _⟩ := hk.inline hs hinline
    have hpasses := passes_of_inline hinline
    dsimp only at hlength
    rw [← hpasses] at hlength
    refine ⟨site :: sites, ⟨_, hpasses ▸ hk'⟩, fun other hother => ?_,
      fun _ => ⟨site, List.mem_cons_self, hlength⟩⟩
    rcases List.mem_cons.mp hother with rfl | hother
    · exact hlength.le
    · exact hpasses ▸ hl.length_le other hother

theorem Stage.leveled (hs : closure.Sound) (h : Stage closure c waiting) :
    ∃ sites, Leveled closure sites waiting c := by
  obtain ⟨c₀, hc₀, hsteps⟩ := h
  suffices ∀ t, Relation.ReflTransGen Step (c₀, []) t →
      ∃ sites, Leveled closure sites t.2 t.1 from this _ hsteps
  intro t hsteps
  induction hsteps with
  | refl => exact ⟨_, leveled_enter hs hc₀⟩
  | tail _ hstep ih =>
    obtain ⟨sites, hl⟩ := ih
    exact hl.step hs hstep

/-- Where no instance is left, all levels have been opened. -/
theorem Leveled.hasDepth (hs : closure.Sound) (hl : Leveled closure sites [] c)
    (hprimitive : ∀ flat ∈ c.nodes, ¬ IsInstance closure flat) : closure.HasDepth c.passes := by
  obtain ⟨paths, hk⟩ := hl.counted
  have hmem := (hk.unfolds.complete hs hprimitive).mem_iff
  obtain ⟨site, hsite, hlength⟩ := hl.reached rfl
  refine ⟨⟨site, (hmem site).mp hsite, hlength⟩, ?_⟩
  rintro _ ⟨other, hstands, rfl⟩
  exact hl.length_le other ((hmem other).mpr hstands)

end Inlining

open Inlining

/-- The loop of the passes ends for every entry that has a closure. With a graph, it has made as
many passes as instances nest below the entry, and only primitives are left; without one, a patch
of the closure is to blame. -/
theorem flatten_passes {document : Value} {project : Project} {entryPath : String} {strict : Bool}
    {closure : Closure} (hp : Document.project document = .ok project)
    (hc : Closure.ofEntry project entryPath strict = .ok closure) :
    (∀ outcome, Unbounded closure outcome ↔ outcome = (start closure).run) ∧
    (∀ c, (start closure).run = .ok c → closure.HasDepth c.passes ∧
      ∀ flat ∈ c.nodes, ∃ p, closure.kinds.kind flat.type = .ok (.primitive p)) ∧
    ∀ stopped, (start closure).run = .error stopped →
      stopped.failure.kind = .invalidProjectFormat ∧
        (∃ patch ∈ closure.patches, closure.IllFormed patch) ∨
      (∃ count, stopped.failure = .fault (.tooManyDigits count)) ∧
        ∃ patch ∈ closure.patches, ¬ closure.Readable patch := by
  have hs := Closure.sound_of_ofEntry hp hc
  refine ⟨fun outcome => unbounded_iff hs, fun c hrun => ?_, fun stopped hrun => ?_⟩
  · rcases run_cases hs with ⟨stopped, hstop, _⟩ | ⟨d, sites, hok, hcomplete⟩
    · exact absurd (hstop.symm.trans hrun) (by simp)
    obtain rfl := Except.ok.inj (hok.symm.trans hrun)
    obtain ⟨sites', hl⟩ := (stage_of_run hs hrun).leveled hs
    refine ⟨hl.hasDepth hs hcomplete.primitive, fun flat hflat => ?_⟩
    rcases hs.kind_cases (hcomplete.unfolds.sound.classified flat hflat) with
      ⟨q, hq, _⟩ | ⟨p, hkind, _⟩
    · exact absurd ⟨q, hq⟩ (hcomplete.primitive flat hflat)
    · exact ⟨p, hkind⟩
  · rcases run_cases hs with ⟨stopped', hstop, hblamed⟩ | ⟨d, sites, hok, _⟩
    · obtain rfl := Except.error.inj (hstop.symm.trans hrun)
      exact hblamed
    · exact absurd (hok.symm.trans hrun) (by simp)

/-- Two instances nest in the lamp, and two passes inline them. -/
theorem flatten_passes_lamp :
    Document.project (Lamp.document "input_41") = .ok (Lamp.project "input_41") ∧
    Closure.ofEntry (Lamp.project "input_41") "@/main" false = .ok (Lamp.closure "input_41") ∧
    ∃ c, (start (Lamp.closure "input_41")).run = .ok c ∧
      (Lamp.closure "input_41").HasDepth 2 ∧
      ∀ flat ∈ c.nodes, ∃ p,
        (Lamp.closure "input_41").kinds.kind flat.type = .ok (.primitive p) := by
  have hp := Lamp.project_document "input_41"
  have hc := Lamp.ofEntry_project "input_41"
  obtain ⟨c, hrun, hpasses⟩ : ∃ c, (start (Lamp.closure "input_41")).run = .ok c ∧ c.passes = 2 :=
    ⟨_, by cbv, rfl⟩
  obtain ⟨hdepth, hprimitive⟩ := (flatten_passes hp hc).2.1 c hrun
  exact ⟨hp, hc, c, hrun, hpasses ▸ hdepth, hprimitive⟩

/-! ## A link id with too many digits, in an instance -/

namespace Loop

/-- An instance of a patch, and in the patch a node with a link, under this link id. -/
def nestedDocument (id : String) : Value :=
  .obj [("patches", .obj [
    ("@/main", .obj [("nodes", .obj [("1", .obj [("type", .str "@/loop")])])]),
    ("@/loop", .obj [
      ("nodes", .obj [("1", .obj [("type", .str "led")])]),
      ("links", .obj [(id, .obj [("pins", .arr [
        .obj [("nodeId", .int 1), ("pinKey", .str "out")],
        .obj [("nodeId", .int 1), ("pinKey", .str "in")]])])])])])]

def main : Patch := ⟨"@/main", none, [⟨1, "@/loop", [], 1⟩], []⟩

def inner (id : String) : Patch := { patch id with path := "@/loop" }

def nestedProject (id : String) : Project := ⟨"", [main, inner id], []⟩

def nestedClosure (id : String) : Closure where
  entry := main
  patches := [inner id, main]
  kinds := [("led", .primitive ⟨"led", none, none⟩), ("@/loop", .subPatch "@/loop")]

theorem project_nestedDocument (id : String) :
    Document.project (nestedDocument id) = .ok (nestedProject id) := rfl

theorem ofEntry_nestedProject (id : String) :
    Closure.ofEntry (nestedProject id) "@/main" false = .ok (nestedClosure id) := by
  cbv

/-- The entry has no links, so that the passes begin. -/
theorem addLinks_main (id : String) :
    (entered (nestedClosure id)).addLinks main (ownPlaces main) =
      .ok (entered (nestedClosure id)) := by
  cbv

theorem not_illFormed_nested (id : String) :
    ¬ ∃ q ∈ (nestedClosure id).patches, (nestedClosure id).IllFormed q := by
  simp [nestedClosure, main, inner, patch, Closure.IllFormed, Closure.BadLink, Closure.Misplaced,
    Closure.Points, Closure.Dangling, Closure.Instantiates, Kinds.kind, Link.ends,
    Primitive.pin?, Primitive.terminalPin?]

end Loop

/-- No patch is ill-formed and the passes are stopped all the same, for a link id that is a numeral
with too many digits. -/
theorem flatten_passes_longId :
    Document.project (Loop.nestedDocument Loop.longId) = .ok (Loop.nestedProject Loop.longId) ∧
    Closure.ofEntry (Loop.nestedProject Loop.longId) "@/main" false =
      .ok (Loop.nestedClosure Loop.longId) ∧
    ∃ c stopped, (entered (Loop.nestedClosure Loop.longId)).addLinks Loop.main
        (ownPlaces Loop.main) = .ok c ∧
      Loops c (.error stopped) ∧ stopped.failure.kind ≠ .invalidProjectFormat := by
  have hp := Loop.project_nestedDocument Loop.longId
  have hc := Loop.ofEntry_nestedProject Loop.longId
  have hs := Closure.sound_of_ofEntry hp hc
  have henter := Loop.addLinks_main Loop.longId
  refine ⟨hp, hc, entered (Loop.nestedClosure Loop.longId), ?_⟩
  rcases run_cases hs with ⟨stopped, hstop, hblamed⟩ | ⟨c, sites, _, hcomplete⟩
  · refine ⟨stopped, henter, ?_, ?_⟩
    · rw [← hstop]
      exact loops_run hs henter
    · rcases hblamed with ⟨_, hbad⟩ | ⟨⟨count, hcount⟩, _⟩
      · exact absurd hbad (Loop.not_illFormed_nested _)
      · rw [hcount]
        simp [Failure.kind]
  · have hmem : Loop.inner Loop.longId ∈ (Loop.nestedClosure Loop.longId).patches :=
      List.mem_cons_self
    exact absurd ((hcomplete.readable hs hmem).links _ (List.mem_singleton_self _))
      Loop.idFault?_longId

end Patchbay
