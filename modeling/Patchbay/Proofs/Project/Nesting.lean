import Patchbay.Proofs.Graph.Postorder
import Patchbay.Proofs.Project.Classification

/-!
# The closures of an entry

The patches of a project nest, with sharing, and maybe in circles. An entry has a closure exactly if
no circle is within its reach (`ofEntry_exact`): the closure then has each patch that instances lead
to, after all that it instantiates, with the kinds of the types in use (`Exact`). Otherwise what is
reported is a circle. Only a strict reading refuses more. It makes no difference whether the types
are classified after the walk or on the way (`resolve`).
-/

namespace Patchbay.Closure

open DepthFirst (Closes Leads Postordered Spans Stops)

variable {project : Project} {entryPath path inner : String} {closure : Closure}
  {order : List String}

/-! ## The walk through a project -/

/-- A lenient reading tells what any patch instantiates. -/
theorem exists_nestedPaths (project : Project) (path : String) :
    ∃ next, nestedPaths project false path = .ok next := by
  unfold nestedPaths
  split
  · exact ⟨_, rfl⟩
  · have hknown : ∀ types : List String,
        types.find? (fun type => false && project.isUnknown type) = none := fun types => by simp
    rw [Project.instantiated, hknown]
    exact ⟨_, rfl⟩

theorem leads_nestedPaths_iff :
    Leads (nestedPaths project false) path inner ↔ project.Nests path inner := by
  refine ⟨nests_of_leads, fun ⟨patch, hpatch, hnode, hinner⟩ => ?_⟩
  obtain ⟨next, hnext⟩ := exists_nestedPaths project path
  refine ⟨next, hnext, ?_⟩
  simp only [nestedPaths, hpatch] at hnext
  exact (mem_of_instantiated hnext).mpr ⟨hnode, hinner⟩

theorem reaches_nestedPaths_iff :
    DepthFirst.Reaches (nestedPaths project false) [entryPath] path ↔
      project.Reaches entryPath path := by
  have hleads : Leads (nestedPaths project false) = project.Nests := by
    funext path inner
    exact propext leads_nestedPaths_iff
  simp [DepthFirst.Reaches, Project.Reaches, hleads]

theorem isPatch_of_reaches (h : project.Reaches entryPath path)
    (hentry : entryPath ∈ project.patches.map Patch.path) :
    path ∈ project.patches.map Patch.path := by
  rcases h.cases_tail with rfl | ⟨_, _, _, _, _, hpatch⟩
  · exact hentry
  · exact isPatch_iff_mem.mp hpatch

theorem spans_patches (hn : (project.patches.map Patch.path).Nodup)
    (hentry : entryPath ∈ project.patches.map Patch.path) :
    Spans (project.patches.map Patch.path) (nestedPaths project false) [entryPath] where
  nodup := hn
  mem _ h := isPatch_of_reaches (reaches_nestedPaths_iff.mp h) hentry

/-! ## Closures -/

/-- The closure has exactly the patches that instances lead to from the entry, each after all that
it instantiates and the entry last, and exactly the types of their nodes, of which those that are
patch paths stand for patches. -/
structure Exact (project : Project) (entryPath : String) (closure : Closure) : Prop where
  entry : project.patch? entryPath = some closure.entry
  nodup : (closure.patches.map Patch.path).Nodup
  mem_iff : ∀ p, p ∈ closure.patches ↔
    project.patch? p.path = some p ∧ project.Reaches entryPath p.path
  after : ∀ p ∈ closure.patches, ∀ inner, project.Nests p.path inner →
    (closure.patches.map Patch.path).idxOf inner < (closure.patches.map Patch.path).idxOf p.path
  last : closure.patches.getLast? = some closure.entry
  types_nodup : (closure.kinds.map Prod.fst).Nodup
  type_iff : ∀ type, type ∈ closure.kinds.map Prod.fst ↔
    ∃ p ∈ closure.patches, ∃ node ∈ p.nodes, node.type = type
  subPatch_iff : ∀ type kind, (type, kind) ∈ closure.kinds →
    ((∃ path, kind = .subPatch path) ↔ type ∈ project.patches.map Patch.path)

namespace Walked

variable {strict : Bool}

theorem paths_eq (hw : Walked project strict entryPath order closure) :
    closure.patches.map Patch.path = order := by
  have hfound : ∀ paths : List String, (∀ path ∈ paths, path ∈ order) →
      (paths.filterMap project.patch?).map Patch.path = paths := by
    intro paths hpaths
    induction paths with
    | nil => rfl
    | cons path rest ih =>
      obtain ⟨p, hp⟩ := hw.exists_patch (hpaths path List.mem_cons_self)
      rw [List.filterMap_cons_some hp, List.map_cons, (path_of_patch? hp).2,
        ih fun path hpath => hpaths path (List.mem_cons_of_mem _ hpath)]
  rw [hw.patches_eq, hfound order fun _ hpath => hpath]

theorem types_eq (hw : Walked project strict entryPath order closure) :
    closure.kinds.map Prod.fst = typesOf closure.patches := by
  rw [hw.kinds_eq, List.map_map]
  exact List.map_id _

theorem exact_of_postordered (hw : Walked project false entryPath order closure)
    (hp : Postordered (nestedPaths project false) [entryPath] order) :
    Exact project entryPath closure where
  entry := hw.entry
  nodup := hw.paths_eq ▸ hp.nodup
  mem_iff p := by rw [hw.mem_patches_iff, hp.mem_iff, reaches_nestedPaths_iff, and_comm]
  after p hmem inner hnests := by
    rw [hw.paths_eq]
    exact hp.after _ _ (hw.mem_patches_iff.mp hmem).1 (.single (leads_nestedPaths_iff.mpr hnests))
  last := by
    have hlast := hp.getLast?_eq
    rw [← hw.paths_eq, List.getLast?_map] at hlast
    obtain ⟨p, hlast, hpath⟩ := Option.map_eq_some_iff.mp hlast
    have hfound := (hw.mem_patches_iff.mp (List.mem_of_getLast? hlast)).2
    rw [hlast, ← hw.entry, ← hpath, hfound]
  types_nodup := hw.types_eq ▸ nodup_eraseDups _
  type_iff type := by simp [hw.types_eq, typesOf]
  subPatch_iff type kind hmem := by
    rw [hw.kinds_eq] at hmem
    obtain ⟨_, _, heq⟩ := List.mem_map.mp hmem
    obtain ⟨rfl, rfl⟩ := Prod.mk.inj heq
    rw [← isPatch_iff_mem, Project.kindOf]
    split <;> simp_all

end Walked

theorem exact_of_ofEntry (hn : (project.patches.map Patch.path).Nodup)
    (h : ofEntry project entryPath false = .ok closure) : Exact project entryPath closure := by
  obtain ⟨order, hw⟩ := walked_of_ofEntry h
  have hentry := isPatch_iff_mem.mp (isPatch_iff.mpr ⟨_, hw.entry⟩)
  exact hw.exact_of_postordered
    (DepthFirst.postordered_of_postorder (spans_patches hn hentry) hw.walk)

/-- What keeps a present entry from having a closure is a circle of patches within its reach. -/
theorem circle_of_ofEntry {failure : Failure} (hentry : entryPath ∈ project.patches.map Patch.path)
    (h : ofEntry project entryPath false = .error failure) :
    ∃ cycle, failure = .nestingCycle cycle ∧ Closes project.Nests cycle ∧
      ∀ path ∈ cycle, project.Reaches entryPath path := by
  obtain ⟨entry, hfound⟩ := isPatch_iff.mp (isPatch_iff_mem.mpr hentry)
  rw [ofEntry_eq, hfound] at h
  dsimp only at h
  split at h
  · next cycle hwalk =>
    obtain rfl := Except.error.inj h
    cases DepthFirst.stops_of_postorder hwalk with
    | cycle hcloses hreached =>
      exact ⟨cycle, rfl, hcloses.mono fun _ _ => leads_nestedPaths_iff.mp, fun path hpath =>
        reaches_nestedPaths_iff.mp (hreached path hpath)⟩
  · next cause hwalk =>
    cases DepthFirst.stops_of_postorder hwalk with
    | @refused path _ _ hcause =>
      obtain ⟨next, hnext⟩ := exists_nestedPaths project path
      exact absurd (hnext.symm.trans hcause) (by simp)
  · exact absurd h (by simp)

/-- A present entry has a closure exactly if no circle of patches is within its reach; the closure
is then exact, and otherwise such a circle is reported. The types may be classified on the way. -/
theorem ofEntry_exact (hn : (project.patches.map Patch.path).Nodup)
    (hentry : entryPath ∈ project.patches.map Patch.path) :
    ((∃ closure, ofEntry project entryPath false = .ok closure) ↔
      ¬ ∃ cycle, Closes project.Nests cycle ∧ ∀ path ∈ cycle, project.Reaches entryPath path) ∧
    (∀ closure, ofEntry project entryPath false = .ok closure → Exact project entryPath closure) ∧
    (∀ failure, ofEntry project entryPath false = .error failure →
      ∃ cycle, failure = .nestingCycle cycle ∧ Closes project.Nests cycle ∧
        ∀ path ∈ cycle, project.Reaches entryPath path) ∧
    Agree Eq UpToKinds (resolve project entryPath false) (ofEntry project entryPath false) := by
  refine ⟨⟨?_, fun hnone => ?_⟩, fun closure h => exact_of_ofEntry hn h,
    fun failure h => circle_of_ofEntry hentry h, resolve_agree project entryPath false⟩
  · rintro ⟨closure, h⟩ ⟨cycle, hcloses, hreached⟩
    obtain ⟨order, hw⟩ := walked_of_ofEntry h
    have hp := DepthFirst.postordered_of_postorder (spans_patches hn hentry) hw.walk
    exact hp.not_stops (.cycle (hcloses.mono fun _ _ => leads_nestedPaths_iff.mpr)
      fun path hpath => reaches_nestedPaths_iff.mpr (hreached path hpath))
  · cases h : ofEntry project entryPath false with
    | ok closure => exact ⟨closure, rfl⟩
    | error failure =>
      obtain ⟨cycle, _, hcloses, hreached⟩ := circle_of_ofEntry hentry h
      exact absurd ⟨cycle, hcloses, hreached⟩ hnone

theorem ofEntry_exact_annex :
    (Annex.wider.patches.map Patch.path).Nodup ∧
    "@/main" ∈ Annex.wider.patches.map Patch.path ∧
    "@/loop" ∈ Annex.wider.patches.map Patch.path ∧
    (∃ closure, ofEntry Annex.wider "@/main" false = .ok closure ∧
      closure.patches = [Annex.part, Annex.main] ∧ Exact Annex.wider "@/main" closure) ∧
    ofEntry Annex.wider "@/loop" false = .error (.nestingCycle ["@/loop", "@/loop"]) ∧
    Closes Annex.wider.Nests ["@/loop", "@/loop"] := by
  have hn : (Annex.wider.patches.map Patch.path).Nodup := by decide
  have hmain : "@/main" ∈ Annex.wider.patches.map Patch.path := by decide
  have hloop : "@/loop" ∈ Annex.wider.patches.map Patch.path := by decide
  obtain ⟨closure, hclosure, hpatches⟩ : ∃ closure,
      ofEntry Annex.wider "@/main" false = .ok closure ∧
        closure.patches = [Annex.part, Annex.main] := ⟨_, by cbv, rfl⟩
  have hcircle : ofEntry Annex.wider "@/loop" false =
      .error (.nestingCycle ["@/loop", "@/loop"]) := by cbv
  obtain ⟨cycle, heq, hcloses, _⟩ := (ofEntry_exact hn hloop).2.2.1 _ hcircle
  obtain rfl := Failure.nestingCycle.inj heq
  exact ⟨hn, hmain, hloop,
    ⟨closure, hclosure, hpatches, (ofEntry_exact hn hmain).2.1 closure hclosure⟩, hcircle, hcloses⟩

end Patchbay.Closure
