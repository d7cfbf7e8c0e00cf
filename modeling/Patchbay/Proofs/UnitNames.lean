import Patchbay.Compilation
import Patchbay.Proofs.Flat.Liveness
import Patchbay.Proofs.Flat.Renaming
import Patchbay.Proofs.Flat.Schedule
import Patchbay.Proofs.Flat.TypingLikeness

/-!
# The names of patches

What comes after the inlining knows of a node only the primitive that its type stands for. Where two
sets of kinds tell of the same primitives under the old and the new names (`SamePrimitives`), graphs
that differ in the names are assembled to the same unit (`assemble_renamed`). So the path of a patch
that is not the entry is not to be seen in a unit: a project in which it is another one compiles to
the same unit, or fails as well (`compile_moved`).
-/

namespace Patchbay

/-- Two sets of kinds tell of the same primitives, under the old names and under the new ones. -/
structure Kinds.SamePrimitives (σ : String → String) (kinds kinds' : Kinds) : Prop where
  renamed : ∀ type, Together Eq (kinds.primitive type) (kinds'.primitive (σ type))
  same : ∀ type, Together Eq (kinds.primitive type) (kinds'.primitive type)

theorem Closure.Renamed.primitive {σ : String → String} {closure other : Closure}
    (h : Closure.Renamed σ closure other) (type : String) :
    Together Eq (closure.kinds.primitive type) (other.kinds.primitive (σ type)) := by
  have hkind := h.kind type
  unfold Kinds.primitive
  generalize closure.kinds.kind type = kind at hkind ⊢
  generalize other.kinds.kind (σ type) = kind' at hkind ⊢
  cases hkind with
  | error _ => exact .error
  | @ok kind _ heq =>
    subst heq
    cases kind with
    | primitive p => exact .ok rfl
    | subPatch path => exact .error

theorem Closure.Renamed.samePrimitives {σ : Equiv.Perm String} {closure other : Closure}
    (h : Closure.Renamed σ closure other) : closure.kinds.SamePrimitives σ other.kinds where
  renamed := h.primitive
  same type := by
    have hkept : ∀ type p, closure.kinds.primitive type = .ok p → σ type = type := fun type p hp =>
      h.kept type p (Kinds.primitive_eq_ok_iff.mp hp)
    refine .of_ok (fun p hp => ?_) fun q hq => ?_
    · have hsame := h.primitive type
      rw [hkept type p hp, hp] at hsame
      generalize other.kinds.primitive type = found at hsame ⊢
      cases hsame with
      | ok heq => exact ⟨_, rfl, heq⟩
    · obtain ⟨old, rfl⟩ := σ.surjective type
      have hsame := h.primitive old
      rw [hq] at hsame
      generalize hfound : closure.kinds.primitive old = found at hsame
      cases hsame with
      | @ok p _ heq => exact ⟨p, by rw [hkept old p hfound, hfound]⟩

/-! ## Bound nodes -/

namespace Typing

/-- The typing of terminals finds no difference in the name of a node's type. -/
def Likeness.renamed (σ : String → String) : Likeness where
  node node other := other = node.renamed σ
  primitive := Eq
  id_eq hn := by rw [hn]; rfl
  literalType_eq hn := by rw [hn]; rfl
  terminal_eq hp := by rw [hp]
  pinType_eq hp _ := by rw [hp]
  declaredType_eq hp _ := by rw [hp]

variable {σ : String → String}

theorem ofNode_renamed {t other : Typing} (h : Typing.Like (.renamed σ) t other)
    (node : FlatNode) :
    Together Eq (BoundNode.ofNode t node) (BoundNode.ofNode other (node.renamed σ)) := by
  refine (h.primitive node.id).bind fun p _ hp => ?_
  obtain rfl : p = _ := hp
  dsimp only [FlatNode.renamed, BoundNode.conflict?, BoundNode.terminalInput]
  rw [h.linkedPins_eq, h.outLinksOf_eq, h.types_eq]
  exact Together.same _

theorem bindAll_renamed {kinds kinds' : Kinds} (h : kinds.SamePrimitives σ kinds')
    (graph : FlatGraph) :
    Together (fun bound bound' => bound.2 = bound'.2) (start kinds graph).bindAll
      (start kinds' (graph.renamed σ)).bindAll := by
  have hnodes : List.Forall₂ (fun node node' : FlatNode => node' = node.renamed σ) graph.nodes
      (graph.renamed σ).nodes :=
    List.forall₂_map_right_iff.mpr (List.forall₂_same.mpr fun _ _ => rfl)
  have hstart : Typing.Like (.renamed σ) (start kinds graph) (start kinds' (graph.renamed σ)) :=
    ⟨fun hn => hn ▸ h.renamed _, hnodes, rfl, rfl⟩
  have hbound := hstart.bindAll (B := Eq) fun t t' _ ht node _ node' hnode =>
    hnode ▸ ofNode_renamed ht node
  exact hbound.mono fun _ _ hnodes => List.forall₂_eq_eq_eq ▸ hnodes

end Typing

/-! ## Stages -/

variable {σ : String → String} {kinds kinds' : Kinds}

theorem FlatGraph.schedule_renamed (graph : FlatGraph) :
    (graph.renamed σ).schedule = graph.schedule := by
  have hids : (graph.renamed σ).ids = graph.ids := by
    show (graph.nodes.map (FlatNode.renamed σ)).map FlatNode.id = _
    rw [List.map_map]
    rfl
  exact schedule_congr (fun id => by rw [hids]) fun _ _ => .rfl

namespace Liveness

theorem sweepNode_same (h : kinds.SamePrimitives σ kinds') (reach : Reach) (node : BoundNode) :
    Together Eq (sweepNode kinds reach node) (sweepNode kinds' reach node) := by
  refine (h.same node.type).bind fun p _ hp => ?_
  subst hp
  exact Together.same _

theorem reach_same (h : kinds.SamePrimitives σ kinds') (mode : Liveness) (nodes : List BoundNode)
    (topology : List Int) :
    Together Eq (reach mode kinds nodes topology) (reach mode kinds' nodes topology) := by
  unfold reach
  split
  · exact .ok rfl
  · have hswept : Together Eq (sweep kinds nodes [] topology) (sweep kinds' nodes [] topology) := by
      refine sweep_together (List.forall₂_eq_eq_eq ▸ rfl) (fun _ _ => congrArg BoundNode.id)
        (fun node _ reach _ _ hn hr => ?_) topology rfl
      subst hn hr
      exact sweepNode_same h reach node
    exact hswept.map fun _ _ hreach => by rw [hreach]

end Liveness

namespace Request

/-- Graphs that differ in the names of types are assembled to one unit. -/
theorem assemble_renamed (h : kinds.SamePrimitives σ kinds') (mode : Liveness) (globals : Value)
    (backends : List Value) (graph : FlatGraph) :
    Together Eq (assemble mode globals backends kinds graph)
      (assemble mode globals backends kinds' (graph.renamed σ)) := by
  have hbound := Typing.bindAll_renamed h graph
  unfold assemble
  generalize (Typing.start kinds graph).bindAll = bound at hbound
  generalize (Typing.start kinds' (graph.renamed σ)).bindAll = bound' at hbound
  cases hbound with
  | error _ => exact .error
  | @ok a b hnodes =>
    refine Agree.bind (.ok hnodes) fun nodes _ hnodes => ?_
    subst hnodes
    rw [FlatGraph.schedule_renamed]
    refine (Together.same graph.schedule).bind fun topology _ htopology => ?_
    subst htopology
    refine (Liveness.reach_same h mode nodes topology).bind fun affected _ haffected => ?_
    subst haffected
    refine (templatesOf_together h.same (fun hpq => by rw [hpq]) _).bind
      fun templates _ htemplates => ?_
    subst htemplates
    have hdebugIds : (graph.renamed σ).nodes.map (fun node => (node.id, node.debugId)) =
        graph.nodes.map fun node => (node.id, node.debugId) := by
      show (graph.nodes.map (FlatNode.renamed σ)).map _ = _
      rw [List.map_map]
      rfl
    rw [hdebugIds]
    exact Together.same _

/-- A project and the same with other names compile to one unit, if the entry and the types that are
no patches keep theirs. -/
theorem compile_renamed {σ : Equiv.Perm String} {project : Project} (h : project.Keeps σ)
    (hn : (project.patches.map Patch.path).Nodup) {request : Request}
    (hentry : ∀ name, request.entry = .str name → σ name = name) (backends : List Value) :
    Together Eq (request.compile backends project)
      (request.compile backends (project.renamed σ)) := by
  unfold compile
  refine (Together.same _).bind fun mode _ hmode => ?_
  subst hmode
  have hclosure : Together (Closure.Renamed σ)
      (closure project request.strict request.entry)
      (closure (project.renamed σ) request.strict request.entry) := by
    unfold closure
    cases hlabel : request.entry with
    | str name => exact Closure.ofEntry_renamed h hn (hentry name hlabel)
    | _ => exact .error
  refine hclosure.bind fun closure other hc => ?_
  refine hc.flatten.bind fun graph _ hgraph => ?_
  subst hgraph
  exact assemble_renamed hc.samePrimitives mode request.globals backends graph

end Request

/-! ## One patch under another path -/

/-- The project in which the patch of a path has another path, and its instances follow. -/
def Project.moved (path other : String) (project : Project) : Project :=
  project.renamed fun name => if name = path then other else name

section

variable {project : Project} {path other : String}
  (hfree : other ∉ project.patches.map Patch.path)
  (htypes : ∀ patch ∈ project.patches, ∀ node ∈ patch.nodes, node.type ≠ other)
include hfree htypes

/-- A name that nothing has may as well change places with another. -/
theorem Project.moved_eq_renamed :
    project.moved path other = project.renamed (Equiv.swap path other) := by
  have hswap : ∀ name, name ≠ other →
      (if name = path then other else name) = Equiv.swap path other name := by
    intro name hname
    rw [Equiv.swap_apply_def, if_neg hname]
  unfold moved renamed
  congr 1
  refine List.map_congr_left fun patch hp => ?_
  have hpath : patch.path ≠ other := fun heq => hfree (heq ▸ List.mem_map_of_mem hp)
  have hnodes : patch.nodes.map (Node.renamed fun name => if name = path then other else name) =
      patch.nodes.map (Node.renamed (Equiv.swap path other)) := by
    refine List.map_congr_left fun node hn => ?_
    unfold Node.renamed
    dsimp only
    rw [hswap _ (htypes patch hp node hn)]
  unfold Patch.renamed
  dsimp only
  rw [hswap _ hpath, hnodes]

omit hfree in
theorem Project.keeps_swap (hpath : path ∈ project.patches.map Patch.path) :
    project.Keeps (Equiv.swap path other) := by
  intro patch hp node hn hprimitive
  have hne : node.type ≠ path := by
    intro heq
    rw [heq, Closure.isPatch_iff_mem.mpr hpath] at hprimitive
    exact absurd hprimitive (by decide)
  exact Equiv.swap_apply_of_ne_of_ne hne (htypes patch hp node hn)

/-- The paths of patches do not show in what a project compiles to. A patch that is not the entry may
have any other path that no patch and no node of the project has, also one that is declared or that
would be a terminal: the project compiles to the same unit, and so to the same text, or fails as it
did before. An entry that is a patch is neither the old path nor the new one. -/
theorem Request.compile_moved {request : Request}
    (hn : (project.patches.map Patch.path).Nodup) (hpath : path ∈ project.patches.map Patch.path)
    (hentry : request.entry ≠ .str path) (hother : request.entry ≠ .str other)
    (backends : List Value) (unit : CompiledUnit) :
    request.compile backends project = .ok unit ↔
      request.compile backends (project.moved path other) = .ok unit := by
  have hkept : ∀ name, request.entry = .str name → Equiv.swap path other name = name := by
    intro name hname
    refine Equiv.swap_apply_of_ne_of_ne ?_ ?_
    · rintro rfl
      exact hentry hname
    · rintro rfl
      exact hother hname
  have hcompile := compile_renamed (Project.keeps_swap htypes hpath) hn hkept backends
  rw [← Project.moved_eq_renamed hfree htypes] at hcompile
  generalize request.compile backends project = left at hcompile ⊢
  generalize request.compile backends (project.moved path other) = right at hcompile ⊢
  cases hcompile with
  | ok heq => rw [heq]
  | error _ => simp

end

/-- The patch inside another is moved to the name of a terminal. -/
theorem Request.compile_moved_annex :
    (Annex.wider.patches.map Patch.path).Nodup ∧
    "@/part" ∈ Annex.wider.patches.map Patch.path ∧
    (Annex.request "@/main").entry ≠ .str "@/part" ∧
    (Annex.request "@/main").entry ≠ .str "lib/output-number" ∧
    "lib/output-number" ∉ Annex.wider.patches.map Patch.path ∧
    (∀ patch ∈ Annex.wider.patches, ∀ node ∈ patch.nodes, node.type ≠ "lib/output-number") ∧
    ∃ unit, (Annex.request "@/main").compile [.str "js"] Annex.wider = .ok unit ∧
      (Annex.request "@/main").compile [.str "js"]
        (Annex.wider.moved "@/part" "lib/output-number") = .ok unit := by
  have hn : (Annex.wider.patches.map Patch.path).Nodup := by decide
  have hpath : "@/part" ∈ Annex.wider.patches.map Patch.path := by decide
  have hentry : (Annex.request "@/main").entry ≠ .str "@/part" := by
    simp [Annex.request]
  have hother : (Annex.request "@/main").entry ≠ .str "lib/output-number" := by
    simp [Annex.request]
  have hfree : "lib/output-number" ∉ Annex.wider.patches.map Patch.path := by decide
  have htypes : ∀ patch ∈ Annex.wider.patches, ∀ node ∈ patch.nodes,
      node.type ≠ "lib/output-number" := by decide
  obtain ⟨unit, hunit⟩ : ∃ unit,
      (Annex.request "@/main").compile [.str "js"] Annex.wider = .ok unit := ⟨_, by cbv⟩
  exact ⟨hn, hpath, hentry, hother, hfree, htypes, unit, hunit,
    (compile_moved hfree htypes hn hpath hentry hother [.str "js"] unit).mp hunit⟩

/-- A name that nothing in the project has is no entry, but is one when a patch is moved there. -/
theorem Request.compile_moved_entry :
    "@/part" ∈ Annex.wider.patches.map Patch.path ∧
    (Annex.request "@/copy").entry ≠ .str "@/part" ∧
    "@/copy" ∉ Annex.wider.patches.map Patch.path ∧
    (∀ patch ∈ Annex.wider.patches, ∀ node ∈ patch.nodes, node.type ≠ "@/copy") ∧
    "@/copy" ∉ Annex.wider.catalog.map NodeType.id ∧
    ∃ failure unit, (Annex.request "@/copy").compile [.str "js"] Annex.wider = .error failure ∧
      (Annex.request "@/copy").compile [.str "js"] (Annex.wider.moved "@/part" "@/copy") = .ok unit :=
  ⟨by decide, by simp [Annex.request], by decide, by decide, by decide, _, _, by cbv, by cbv⟩

end Patchbay
