import Patchbay.Proofs.Graph.Renaming
import Patchbay.Proofs.Project.Locality

/-!
# Patches under other names

A patch is known by its path only where nodes instantiate it. If the patches of a project get other
paths, and the nodes follow (`Project.renamed`), the walk from the entry lists the same patches, in
another order perhaps. The two closures answer alike to all that is looked up in them
(`Closure.Renamed`, `ofEntry_renamed`), as long as no type that is not a patch is renamed
(`Project.Keeps`).
-/

namespace Patchbay

def Node.renamed (σ : String → String) (node : Node) : Node := { node with type := σ node.type }

def Patch.renamed (σ : String → String) (patch : Patch) : Patch :=
  { patch with path := σ patch.path, nodes := patch.nodes.map (Node.renamed σ) }

/-- The project with its patches under other paths, where they stand and where they are
instantiated. -/
def Project.renamed (σ : String → String) (project : Project) : Project :=
  { project with patches := project.patches.map (Patch.renamed σ) }

def Kind.renamed (σ : String → String) : Kind → Kind
  | .primitive p => .primitive p
  | .subPatch path => .subPatch (σ path)

/-- The types of nodes that are not patches keep their names. -/
def Project.Keeps (project : Project) (σ : String → String) : Prop :=
  ∀ patch ∈ project.patches, ∀ node ∈ patch.nodes, project.isPatch node.type = false →
    σ node.type = node.type

/-- A closure answers to the new names as another does to the old ones. -/
structure Closure.Renamed (σ : String → String) (closure other : Closure) : Prop where
  entry_eq : other.entry = closure.entry.renamed σ
  length_eq : other.patches.length = closure.patches.length
  patch : ∀ path, Together (fun p q => q = p.renamed σ) (closure.patch path)
    (other.patch (σ path))
  kind : ∀ type, Together (fun kind kind' => kind' = kind.renamed σ) (closure.kinds.kind type)
    (other.kinds.kind (σ type))
  /-- The primitive types have kept their names. -/
  kept : ∀ type p, closure.kinds.kind type = .ok (.primitive p) → σ type = type

/-! ## Projects -/

namespace Project

variable {project : Project} {σ : Equiv.Perm String} {strict : Bool}

theorem patch?_renamed (path : String) :
    (project.renamed σ).patch? (σ path) = (project.patch? path).map (Patch.renamed σ) := by
  have hpath : (fun p : Patch => decide (p.path = σ path)) ∘ Patch.renamed σ =
      fun p : Patch => decide (p.path = path) := by
    funext p
    exact decide_eq_decide.mpr σ.injective.eq_iff
  show (project.patches.map (Patch.renamed σ)).find? (fun p => p.path = σ path) = _
  rw [List.find?_map, hpath]
  rfl

theorem isPatch_renamed (type : String) :
    (project.renamed σ).isPatch (σ type) = project.isPatch type := by
  rw [isPatch, patch?_renamed, Option.isSome_map]
  rfl

theorem paths_renamed : (project.renamed σ).patches.map Patch.path =
    (project.patches.map Patch.path).map σ := by
  show (project.patches.map (Patch.renamed σ)).map Patch.path = _
  rw [List.map_map, List.map_map]
  rfl

variable {patch : Patch} {node : Node}

theorem kindOf_renamed (h : project.Keeps σ) (hp : patch ∈ project.patches)
    (hn : node ∈ patch.nodes) :
    (project.renamed σ).kindOf (σ node.type) = (project.kindOf node.type).renamed σ := by
  unfold kindOf
  rw [isPatch_renamed]
  cases hpatch : project.isPatch node.type with
  | true => rfl
  | false =>
    rw [h patch hp node hn hpatch]
    rfl

theorem isUnknown_renamed (h : project.Keeps σ) (hp : patch ∈ project.patches)
    (hn : node ∈ patch.nodes) :
    (project.renamed σ).isUnknown (σ node.type) = project.isUnknown node.type := by
  unfold isUnknown
  rw [isPatch_renamed]
  cases hpatch : project.isPatch node.type with
  | true => rfl
  | false =>
    rw [h patch hp node hn hpatch]
    rfl

theorem types_renamed (patch : Patch) :
    (patch.renamed σ).nodes.map Node.type = (patch.nodes.map Node.type).map σ := by
  show (patch.nodes.map (Node.renamed σ)).map Node.type = _
  rw [List.map_map, List.map_map]
  rfl

/-- A patch instantiates the same patches under their new names. -/
theorem instantiated_renamed (h : project.Keeps σ) (hp : patch ∈ project.patches) :
    Together (fun next next' => ∀ path, path ∈ next ↔ σ path ∈ next')
      (project.instantiated strict patch)
      ((project.renamed σ).instantiated strict (patch.renamed σ)) := by
  have hunknown : ((patch.renamed σ).nodes.map Node.type).find?
      (fun type => strict && (project.renamed σ).isUnknown type) =
        ((patch.nodes.map Node.type).find? fun type => strict && project.isUnknown type).map σ := by
    rw [types_renamed, List.find?_map]
    refine congrArg (Option.map σ) (List.find?_congr fun type htype => ?_)
    obtain ⟨node, hn, rfl⟩ := List.mem_map.mp htype
    show (strict && (project.renamed σ).isUnknown (σ node.type)) = _
    rw [isUnknown_renamed h hp hn]
  unfold instantiated
  rw [hunknown]
  cases (patch.nodes.map Node.type).find? fun type => strict && project.isUnknown type with
  | some type => exact .error
  | none =>
    refine .ok fun path => ?_
    have hmem : σ path ∈ (patch.nodes.map Node.type).map σ ↔ path ∈ patch.nodes.map Node.type :=
      List.mem_map_of_injective σ.injective
    rw [List.mem_mergeSort, List.mem_mergeSort, List.mem_eraseDups, List.mem_eraseDups,
      List.mem_filter, List.mem_filter, types_renamed, hmem, isPatch_renamed]

end Project

/-! ## Closures -/

namespace Closure

variable {project : Project} {σ : Equiv.Perm String} {strict : Bool}

theorem sameEdges_renamed (h : project.Keeps σ) :
    DepthFirst.SameEdges σ (nestedPaths project strict)
      (nestedPaths (project.renamed σ) strict) := by
  intro path
  unfold nestedPaths
  rw [Project.patch?_renamed]
  cases hpatch : project.patch? path with
  | none => exact .ok (by simp)
  | some patch => exact Project.instantiated_renamed h (path_of_patch? hpatch).1

/-- A walk from the path of a patch stays among the paths of patches. -/
theorem closed_nestedPaths {entry : String} (hentry : project.isPatch entry = true) :
    DepthFirst.Closed (project.patches.map Patch.path) (nestedPaths project strict) [entry] where
  roots root hroot := by
    obtain rfl := List.mem_singleton.mp hroot
    exact isPatch_iff_mem.mp hentry
  edges path inner hlead := by
    obtain ⟨next, hnext, hmem⟩ := hlead
    unfold nestedPaths at hnext
    split at hnext
    · obtain rfl := Except.ok.inj hnext
      exact absurd hmem List.not_mem_nil
    · exact isPatch_iff_mem.mp ((mem_of_instantiated hnext).mp hmem).2

namespace Walked

variable {entryPath path : String} {order : List String} {closure : Closure}

theorem patch_eq_ok_iff (hw : Walked project strict entryPath order closure) {p : Patch} :
    closure.patch path = .ok p ↔ path ∈ order ∧ project.patch? path = some p := by
  have hinj : ∀ p ∈ closure.patches, ∀ q ∈ closure.patches, p.path = q.path → p = q := by
    intro p hp q hq h
    have hp := (hw.mem_patches_iff.mp hp).2
    rw [h, (hw.mem_patches_iff.mp hq).2] at hp
    exact (Option.some.inj hp).symm
  have hfound : closure.patch path = .ok p ↔
      closure.patches.find? (fun q => q.path = path) = some p := by
    unfold Closure.patch
    cases closure.patches.find? (fun q => q.path = path) with
    | none => simp
    | some q => simp
  rw [hfound, Keyed.find?_eq_some_iff hinj, hw.mem_patches_iff]
  constructor
  · rintro ⟨h, rfl⟩
    exact h
  · rintro ⟨hmem, hp⟩
    obtain rfl := (path_of_patch? hp).2
    exact ⟨⟨hmem, hp⟩, rfl⟩

end Walked

section

variable {entryPath : String} {order order' : List String} {closure other : Closure}
  (hw : Walked project strict entryPath order closure)
  (hw' : Walked (project.renamed σ) strict (σ entryPath) order' other)
  (hmem : ∀ path, path ∈ order ↔ σ path ∈ order')
include hw hw' hmem

theorem mem_patches_renamed {q : Patch} :
    q ∈ other.patches ↔ ∃ p ∈ closure.patches, p.renamed σ = q := by
  rw [hw'.mem_patches_iff]
  constructor
  · rintro ⟨hpath, hq⟩
    obtain ⟨path, hσ⟩ := σ.surjective q.path
    rw [← hσ, Project.patch?_renamed] at hq
    obtain ⟨p, hp, rfl⟩ := Option.map_eq_some_iff.mp hq
    obtain rfl := (path_of_patch? hp).2
    exact ⟨p, hw.mem_patches_iff.mpr ⟨(hmem _).mpr hpath, hp⟩, rfl⟩
  · rintro ⟨p, hp, rfl⟩
    obtain ⟨hpath, hp⟩ := hw.mem_patches_iff.mp hp
    refine ⟨(hmem _).mp hpath, ?_⟩
    show (project.renamed σ).patch? (σ p.path) = _
    rw [Project.patch?_renamed, hp]
    rfl

theorem kind_renamed (h : project.Keeps σ) (type : String) :
    Together (fun kind kind' => kind' = kind.renamed σ) (closure.kinds.kind type)
      (other.kinds.kind (σ type)) := by
  have huse : ∀ patch ∈ closure.patches, ∀ node ∈ patch.nodes,
      (project.renamed σ).kindOf (σ node.type) = (project.kindOf node.type).renamed σ := by
    intro patch hpatch node hn
    exact Project.kindOf_renamed h (path_of_patch? (hw.mem_patches_iff.mp hpatch).2).1 hn
  refine .of_ok (fun kind hkind => ?_) fun kind' hkind' => ?_
  · obtain ⟨⟨patch, hpatch, node, hn, rfl⟩, rfl⟩ := hw.kind_eq_ok_iff.mp hkind
    refine ⟨_, hw'.kind_eq_ok_iff.mpr ⟨⟨patch.renamed σ, ?_, node.renamed σ, ?_, rfl⟩, rfl⟩,
      huse patch hpatch node hn⟩
    · exact (mem_patches_renamed hw hw' hmem).mpr ⟨patch, hpatch, rfl⟩
    · exact List.mem_map_of_mem hn
  · obtain ⟨⟨patch', hpatch', node', hn', htype⟩, _⟩ := hw'.kind_eq_ok_iff.mp hkind'
    obtain ⟨patch, hpatch, rfl⟩ := (mem_patches_renamed hw hw' hmem).mp hpatch'
    obtain ⟨node, hn, rfl⟩ := List.mem_map.mp hn'
    obtain rfl := σ.injective htype
    exact ⟨_, hw.kind_eq_ok_iff.mpr ⟨⟨patch, hpatch, node, hn, rfl⟩, rfl⟩⟩

/-- Two walks that list the same patches, under the old and the new names. -/
theorem renamed_of_walked (h : project.Keeps σ) (hn : (project.patches.map Patch.path).Nodup) :
    Renamed σ closure other where
  entry_eq := by
    have hentry := hw'.entry
    rw [Project.patch?_renamed, hw.entry] at hentry
    exact (Option.some.inj hentry).symm
  length_eq := by
    have hn' : ((project.renamed σ).patches.map Patch.path).Nodup := by
      rw [Project.paths_renamed]
      exact hn.map σ.injective
    have hperm : (order.map σ).Perm order' := by
      refine (List.perm_ext_iff_of_nodup
        ((DepthFirst.nodup_of_postorder hw.walk hn).map σ.injective)
        (DepthFirst.nodup_of_postorder hw'.walk hn')).mpr fun path' => ?_
      obtain ⟨path, rfl⟩ := σ.surjective path'
      rw [List.mem_map_of_injective σ.injective, hmem]
    rw [hw'.length_patches, hw.length_patches, ← hperm.length_eq, List.length_map]
  patch path := by
    refine .of_ok (fun p hp => ?_) fun q hq => ?_
    · obtain ⟨hpath, hp⟩ := hw.patch_eq_ok_iff.mp hp
      refine ⟨p.renamed σ, hw'.patch_eq_ok_iff.mpr ⟨(hmem path).mp hpath, ?_⟩, rfl⟩
      rw [Project.patch?_renamed, hp]
      rfl
    · obtain ⟨hpath, hq⟩ := hw'.patch_eq_ok_iff.mp hq
      rw [Project.patch?_renamed] at hq
      obtain ⟨p, hp, _⟩ := Option.map_eq_some_iff.mp hq
      exact ⟨p, hw.patch_eq_ok_iff.mpr ⟨(hmem path).mpr hpath, hp⟩⟩
  kind := kind_renamed hw hw' hmem h
  kept type p hp := by
    obtain ⟨⟨patch, hpatch, node, hn, rfl⟩, hkind⟩ := hw.kind_eq_ok_iff.mp hp
    refine h patch (path_of_patch? (hw.mem_patches_iff.mp hpatch).2).1 node hn ?_
    unfold Project.kindOf at hkind
    cases hisPatch : project.isPatch node.type with
    | true => exact absurd hkind (by simp [hisPatch])
    | false => rfl

end

/-- An entry has a closure if the walk from it finishes. -/
theorem exists_walked {entryPath : String} (hentry : project.isPatch entryPath = true)
    {order : List String}
    (hwalk : DepthFirst.postorder (project.patches.map Patch.path) (nestedPaths project strict)
      [entryPath] = .ok order) :
    ∃ closure, ofEntry project entryPath strict = .ok closure ∧
      Walked project strict entryPath order closure := by
  obtain ⟨entry, hpatch⟩ := isPatch_iff.mp hentry
  refine ⟨⟨entry, order.filterMap project.patch?, (typesOf (order.filterMap project.patch?)).map
    fun type => (type, project.kindOf type)⟩, ?_, hwalk, hpatch, rfl, rfl⟩
  rw [ofEntry_eq, hpatch]
  dsimp only
  rw [hwalk]

/-- The closures of an entry that keeps its name, in a project and in one with other names. -/
theorem ofEntry_renamed (h : project.Keeps σ) (hn : (project.patches.map Patch.path).Nodup)
    {entryPath : String} (hentry : σ entryPath = entryPath) :
    Together (Renamed σ) (ofEntry project entryPath strict)
      (ofEntry (project.renamed σ) entryPath strict) := by
  have hsame : (project.renamed σ).isPatch entryPath = project.isPatch entryPath := by
    have hrenamed : (project.renamed σ).isPatch (σ entryPath) = project.isPatch entryPath :=
      Project.isPatch_renamed entryPath
    rwa [hentry] at hrenamed
  have hwalks (hisPatch : project.isPatch entryPath = true) :
      Together (fun order order' => ∀ path, path ∈ order ↔ σ path ∈ order')
        (DepthFirst.postorder (project.patches.map Patch.path) (nestedPaths project strict)
          [entryPath])
        (DepthFirst.postorder ((project.renamed σ).patches.map Patch.path)
          (nestedPaths (project.renamed σ) strict) [entryPath]) := by
    have hroots : [entryPath].map σ = [entryPath] := by rw [List.map_singleton, hentry]
    have hclosed' : DepthFirst.Closed ((project.renamed σ).patches.map Patch.path)
        (nestedPaths (project.renamed σ) strict) ([entryPath].map σ) := by
      rw [hroots]
      exact closed_nestedPaths (hsame.trans hisPatch)
    have hwalk := DepthFirst.postorder_renamed (sameEdges_renamed h) (closed_nestedPaths hisPatch)
      hclosed'
    rwa [hroots] at hwalk
  refine .of_ok (fun closure hc => ?_) fun other hc' => ?_
  · obtain ⟨order, hw⟩ := walked_of_ofEntry hc
    have hisPatch := isPatch_iff.mpr ⟨_, hw.entry⟩
    have hwalk := hwalks hisPatch
    rw [hw.walk] at hwalk
    generalize hright : DepthFirst.postorder ((project.renamed σ).patches.map Patch.path)
      (nestedPaths (project.renamed σ) strict) [entryPath] = right at hwalk
    cases hwalk with
    | ok hmem =>
      obtain ⟨other, hc', hw'⟩ := exists_walked (hsame.trans hisPatch) hright
      exact ⟨other, hc', renamed_of_walked hw (by rwa [hentry]) hmem h hn⟩
  · obtain ⟨order', hw'⟩ := walked_of_ofEntry hc'
    have hisPatch := hsame.symm.trans (isPatch_iff.mpr ⟨_, hw'.entry⟩)
    have hwalk := hwalks hisPatch
    rw [hw'.walk] at hwalk
    generalize hleft : DepthFirst.postorder (project.patches.map Patch.path)
      (nestedPaths project strict) [entryPath] = left at hwalk
    cases hwalk with
    | ok hmem =>
      obtain ⟨closure, hc, _⟩ := exists_walked hisPatch hleft
      exact ⟨closure, hc⟩

end Closure

end Patchbay
