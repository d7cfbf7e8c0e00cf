import Patchbay.Proofs.Graph.DepthFirst
import Patchbay.Proofs.Project.Occurrence

/-!
# Sound closures

What the closure of an entry patch guarantees to the stages after it: every node type in it has a
kind, an instance names a patch of the closure, instantiation has a rank that falls, and every
patch stands somewhere in the tree of the entry. `sound_of_ofEntry` says that the closures of a
project that a document describes are sound.
-/

namespace Patchbay

namespace Kinds

variable {kinds : Kinds} {type : String} {p : Primitive}

theorem primitive_eq_ok_iff :
    kinds.primitive type = .ok p ↔ kinds.kind type = .ok (.primitive p) := by
  unfold primitive
  cases kinds.kind type with
  | error failure => simp
  | ok kind => cases kind with
    | primitive q => simp
    | subPatch path => simp

end Kinds

namespace Closure

/-- A closure on which the later stages find all that they look up. -/
structure Sound (closure : Closure) : Prop where
  entry_mem : closure.entry ∈ closure.patches
  /-- Paths tell the patches apart. -/
  path_inj : ∀ p ∈ closure.patches, ∀ q ∈ closure.patches, p.path = q.path → p = q
  patch_sound : ∀ p ∈ closure.patches, p.Sound
  /-- The type of every node has a kind. -/
  classified : ∀ p ∈ closure.patches, ∀ node ∈ p.nodes,
    ∃ kind, closure.kinds.kind node.type = .ok kind
  /-- A type that is a patch path is a path of the closure. -/
  subPatch_kind : ∀ type path, closure.kinds.kind type = .ok (.subPatch path) →
    path = type ∧ ∃ p ∈ closure.patches, p.path = type
  /-- A primitive type is no path of the closure. -/
  primitive_kind : ∀ type p, closure.kinds.kind type = .ok (.primitive p) →
    p.type = type ∧ ∀ q ∈ closure.patches, q.path ≠ type
  /-- Patches nest with a rank that falls and stays below their number. -/
  ranked : ∃ rank : String → Nat, ∀ p ∈ closure.patches, rank p.path < closure.patches.length ∧
    ∀ node ∈ p.nodes, ∀ q, closure.Instantiates node.type q → rank q.path < rank p.path
  /-- Every patch stands somewhere. -/
  sited : ∀ p ∈ closure.patches, ∃ site, closure.Stands site ∧ site.patch = p

namespace Sound

variable {closure : Closure}

theorem instantiates_unique (hs : closure.Sound) {type : String} {p q : Patch}
    (hp : closure.Instantiates type p) (hq : closure.Instantiates type q) : p = q :=
  hs.path_inj p hp.1 q hq.1 (hp.2.trans hq.2.symm)

theorem patch_mem (hs : closure.Sound) {site : Site} (h : closure.Stands site) :
    site.patch ∈ closure.patches := by
  cases h with
  | entry => exact hs.entry_mem
  | inner _ _ hinst => exact hinst.1

theorem patch_of_path (hs : closure.Sound) {p : Patch} (hp : p ∈ closure.patches) :
    closure.patch p.path = .ok p := by
  have hfind : closure.patches.find? (fun q => q.path = p.path) = some p :=
    (Keyed.find?_eq_some_iff hs.path_inj).mpr ⟨hp, rfl⟩
  simp only [Closure.patch, hfind]

/-- A type that has a kind is that of instances, or it is primitive. -/
theorem kind_cases (hs : closure.Sound) {type : String}
    (h : ∃ kind, closure.kinds.kind type = .ok kind) :
    (∃ q, closure.Instantiates type q ∧ closure.kinds.kind type = .ok (.subPatch type)) ∨
    (∃ p, closure.kinds.kind type = .ok (.primitive p) ∧
      ∀ q, ¬ closure.Instantiates type q) := by
  obtain ⟨kind, hkind⟩ := h
  cases kind with
  | subPatch path =>
    obtain ⟨rfl, q, hq, hpath⟩ := hs.subPatch_kind _ _ hkind
    exact .inl ⟨q, ⟨hq, hpath⟩, hkind⟩
  | primitive p =>
    exact .inr ⟨p, hkind, fun q hq => (hs.primitive_kind _ _ hkind).2 q hq.1 hq.2⟩

/-- A path leads to one site. -/
theorem stands_unique (hs : closure.Sound) {s t : Site} (h : closure.Stands s)
    (ht : closure.Stands t) (hpath : s.path = t.path) : s = t := by
  induction h generalizing t with
  | entry =>
    cases ht with
    | entry => rfl
    | inner => exact absurd hpath (by simp)
  | @inner site node patch hsite hnode hinst ih =>
    cases ht with
    | entry => exact absurd hpath (by simp)
    | @inner site' node' patch' hsite' hnode' hinst' =>
      obtain ⟨hsites, hids⟩ := List.append_inj' hpath rfl
      obtain rfl := ih hsite' hsites
      obtain rfl := (hs.patch_sound _ (hs.patch_mem hsite)).eq_of_id_eq hnode hnode'
        (List.cons.inj hids).1
      obtain rfl := hs.instantiates_unique hinst hinst'
      rfl

/-- What stands below a node of a site is what the node instantiates. -/
theorem instantiates_of_below (hs : closure.Sound) {site inner : Site} {node : Node}
    (hsite : closure.Stands site) (hnode : node ∈ site.patch.nodes) (hinner : closure.Stands inner)
    (hpath : inner.path = site.path ++ [node.id]) : closure.Instantiates node.type inner.patch := by
  cases hinner with
  | entry => exact absurd hpath (by simp)
  | @inner above m patch habove hm hinst =>
    obtain ⟨hsites, hids⟩ := List.append_inj' hpath rfl
    obtain rfl := hs.stands_unique habove hsite hsites
    obtain rfl := (hs.patch_sound _ (hs.patch_mem habove)).eq_of_id_eq hm hnode
      (List.cons.inj hids).1
    exact hinst

end Sound

/-! ## Closures of projects -/

variable {project : Project} {strict : Bool} {order : List String}

/-- The patches that a path leads to: those that its patch instantiates. -/
def nestedPaths (project : Project) (strict : Bool) (path : String) :
    Except Failure (List String) :=
  match project.patch? path with
  | none => .ok []
  | some patch => project.instantiated strict patch

theorem mem_of_instantiated {patch : Patch} {next : List String}
    (h : project.instantiated strict patch = .ok next) {type : String} :
    type ∈ next ↔ (∃ node ∈ patch.nodes, node.type = type) ∧ project.isPatch type = true := by
  unfold Project.instantiated at h
  split at h
  · exact absurd h (by simp)
  · obtain rfl := Except.ok.inj h
    simp

theorem isPatch_iff {type : String} :
    project.isPatch type = true ↔ ∃ p, project.patch? type = some p := by
  rw [Project.isPatch, Option.isSome_iff_exists]

theorem isPatch_iff_mem {type : String} :
    project.isPatch type = true ↔ type ∈ project.patches.map Patch.path := by
  rw [Project.isPatch, Project.patch?, Keyed.find?_isSome_iff, List.mem_map]

theorem path_of_patch? {path : String} {p : Patch} (h : project.patch? path = some p) :
    p ∈ project.patches ∧ p.path = path :=
  Keyed.mem_of_find? h

/-- A project has no closure of an entry that is missing, that leads into a circle of patches, or
that leads to an unknown type. -/
theorem kind_of_ofEntry {entryPath : String} {failure : Failure}
    (h : ofEntry project entryPath strict = .error failure) :
    failure.kind = .patchNotFound ∨ failure.kind = .cyclicPatchReference ∨
      failure.kind = .typeNotFound := by
  unfold ofEntry at h
  cases hentry : project.patch? entryPath with
  | none =>
    obtain rfl : Failure.noPatch (.str entryPath) = failure := by simpa [hentry] using h
    exact .inl rfl
  | some entry =>
    simp only [hentry] at h
    split at h
    · obtain rfl := Except.error.inj h
      exact .inr (.inl rfl)
    · next cause hwalk =>
      obtain rfl := Except.error.inj h
      obtain ⟨path, hpath⟩ := DepthFirst.refused_of_postorder hwalk
      refine .inr (.inr ?_)
      cases hfound : project.patch? path with
      | none => exact absurd hpath (by simp [hfound])
      | some patch =>
        simp only [hfound, Project.instantiated] at hpath
        split at hpath
        · obtain rfl := Except.error.inj hpath
          rfl
        · exact absurd hpath (by simp)
    · exact absurd h (by simp)

/-- A closure with the order in which the walk through its project has listed it. -/
structure Walked (project : Project) (strict : Bool) (entryPath : String) (order : List String)
    (closure : Closure) : Prop where
  walk : DepthFirst.postorder (project.patches.map Patch.path) (nestedPaths project strict)
    [entryPath] = .ok order
  entry : project.patch? entryPath = some closure.entry
  patches_eq : closure.patches = order.filterMap project.patch?
  kinds_eq : closure.kinds =
    (typesOf closure.patches).map fun type => (type, project.kindOf type)

theorem walked_of_ofEntry {entryPath : String} {closure : Closure}
    (h : ofEntry project entryPath strict = .ok closure) :
    ∃ order, Walked project strict entryPath order closure := by
  unfold ofEntry at h
  cases hentry : project.patch? entryPath with
  | none => exact absurd h (by simp [hentry])
  | some entry =>
    simp only [hentry] at h
    split at h
    · exact absurd h (by simp)
    · exact absurd h (by simp)
    · next order horder =>
      obtain rfl := Except.ok.inj h
      exact ⟨order, horder, hentry, rfl, rfl⟩

namespace Walked

variable {entryPath : String} {closure : Closure}

theorem exists_patch (hw : Walked project strict entryPath order closure) {path : String}
    (h : path ∈ order) : ∃ p, project.patch? path = some p :=
  isPatch_iff.mp (isPatch_iff_mem.mpr (DepthFirst.mem_vertices_of_postorder hw.walk h))

theorem mem_patches_iff (hw : Walked project strict entryPath order closure) {p : Patch} :
    p ∈ closure.patches ↔ p.path ∈ order ∧ project.patch? p.path = some p := by
  rw [hw.patches_eq, List.mem_filterMap]
  constructor
  · rintro ⟨path, hpath, hp⟩
    obtain rfl := (path_of_patch? hp).2
    exact ⟨hpath, hp⟩
  · rintro ⟨hpath, hp⟩
    exact ⟨p.path, hpath, hp⟩

theorem length_patches (hw : Walked project strict entryPath order closure) :
    closure.patches.length = order.length := by
  rw [hw.patches_eq]
  refine List.filterMap_length_eq_length.mpr fun path hpath => ?_
  exact Option.isSome_iff_exists.mpr (hw.exists_patch hpath)

theorem exists_rank (hw : Walked project strict entryPath order closure) :
    ∃ rank : String → Nat, ∀ path ∈ order, rank path < order.length ∧
      ∃ next, nestedPaths project strict path = .ok next ∧
        ∀ type ∈ next, type ∈ project.patches.map Patch.path →
          type ∈ order ∧ rank type < rank path := by
  obtain ⟨rank, hrank⟩ := (DepthFirst.grounded_of_postorder hw.walk).exists_rank
  simp only [List.mem_reverse, List.length_reverse] at hrank
  exact ⟨rank, hrank⟩

theorem entry_mem_order (hw : Walked project strict entryPath order closure) :
    entryPath ∈ order :=
  DepthFirst.mem_of_postorder hw.walk List.mem_cons_self
    (isPatch_iff_mem.mp (isPatch_iff.mpr ⟨_, hw.entry⟩))

/-- The types of a patch of the closure that are patch paths are paths of the closure, of a lower
rank. -/
theorem nested_mem (hw : Walked project strict entryPath order closure) :
    ∃ rank : String → Nat, (∀ p ∈ closure.patches, rank p.path < order.length) ∧
      ∀ p ∈ closure.patches, ∀ node ∈ p.nodes, project.isPatch node.type = true →
        node.type ∈ order ∧ rank node.type < rank p.path := by
  obtain ⟨rank, hrank⟩ := hw.exists_rank
  refine ⟨rank, fun p hp => (hrank _ (hw.mem_patches_iff.mp hp).1).1, ?_⟩
  intro p hp node hnode hpatch
  obtain ⟨hpath, hfound⟩ := hw.mem_patches_iff.mp hp
  obtain ⟨_, next, hnext, hmem⟩ := hrank _ hpath
  simp only [nestedPaths, hfound] at hnext
  exact hmem _ ((mem_of_instantiated hnext).mpr ⟨⟨node, hnode, rfl⟩, hpatch⟩)
    (isPatch_iff_mem.mp hpatch)

theorem patch_of_mem_order (hw : Walked project strict entryPath order closure) {type : String}
    (h : type ∈ order) : ∃ p ∈ closure.patches, p.path = type := by
  obtain ⟨p, hp⟩ := hw.exists_patch h
  obtain rfl := (path_of_patch? hp).2
  exact ⟨p, hw.mem_patches_iff.mpr ⟨h, hp⟩, rfl⟩

theorem kind_eq_ok_iff (hw : Walked project strict entryPath order closure) {type : String}
    {kind : Kind} :
    closure.kinds.kind type = .ok kind ↔
      (∃ p ∈ closure.patches, ∃ node ∈ p.nodes, node.type = type) ∧
        kind = project.kindOf type := by
  have hlookup : ∀ types : List String,
      (types.map fun type => (type, project.kindOf type)).lookup type =
        if type ∈ types then some (project.kindOf type) else none := by
    intro types
    induction types with
    | nil => rfl
    | cons head rest ih =>
      by_cases h : type = head
      · subst h
        simp
      · simp [List.lookup_cons, beq_false_of_ne h, h, ih]
  have hmem : type ∈ typesOf closure.patches ↔
      ∃ p ∈ closure.patches, ∃ node ∈ p.nodes, node.type = type := by
    simp [typesOf]
  rw [Kinds.kind, hw.kinds_eq, hlookup, ← hmem]
  by_cases h : type ∈ typesOf closure.patches
  · simp [h, eq_comm]
  · simp [h]

theorem stands_of_mem_order (hw : Walked project strict entryPath order closure) {path : String}
    (h : path ∈ order) : ∃ site, closure.Stands site ∧ project.patch? path = some site.patch := by
  obtain ⟨rank, _, hnested⟩ := hw.nested_mem
  obtain ⟨root, hroot, hreach⟩ := DepthFirst.reaches_of_postorder hw.walk h
  obtain rfl := List.mem_singleton.mp hroot
  clear h
  -- Along the way from the entry to the path, a site opens below the one before.
  induction hreach with
  | refl => exact ⟨_, .entry, hw.entry⟩
  | @tail v w _ hlead ih =>
    obtain ⟨site, hsite, hfound⟩ := ih
    obtain ⟨next, hnext, hmem⟩ := hlead
    simp only [nestedPaths, hfound] at hnext
    obtain ⟨⟨node, hnode, rfl⟩, hpatch⟩ := (mem_of_instantiated hnext).mp hmem
    have hmemsite : site.patch ∈ closure.patches := by
      cases hsite with
      | entry =>
        obtain rfl := (path_of_patch? hw.entry).2
        exact hw.mem_patches_iff.mpr ⟨hw.entry_mem_order, hw.entry⟩
      | inner _ _ hinst => exact hinst.1
    obtain ⟨q, hq, hqpath⟩ := hw.patch_of_mem_order (hnested _ hmemsite node hnode hpatch).1
    exact ⟨_, .inner hsite hnode ⟨hq, hqpath⟩, hqpath ▸ (hw.mem_patches_iff.mp hq).2⟩

end Walked

/-- A primitive type in use is no patch, and its declaration is that of the catalog. -/
theorem primitive_of_ofEntry {entryPath : String} {closure : Closure}
    (hc : ofEntry project entryPath strict = .ok closure) {type : String} {p : Primitive}
    (hp : closure.kinds.primitive type = .ok p) :
    project.isPatch type = false ∧ p = Project.primitive project.catalog type := by
  obtain ⟨order, hw⟩ := walked_of_ofEntry hc
  obtain ⟨_, hkind⟩ := hw.kind_eq_ok_iff.mp (Kinds.primitive_eq_ok_iff.mp hp)
  unfold Project.kindOf at hkind
  split at hkind
  · exact absurd hkind (by simp)
  · next hpatch => exact ⟨by simpa using hpatch, Kind.primitive.inj hkind⟩

/-- The closure of an entry of sound patches is sound. -/
theorem sound_of_walked {entryPath : String} {closure : Closure}
    (hw : Walked project strict entryPath order closure)
    (hpatches : ∀ p ∈ project.patches, p.Sound) : closure.Sound where
  entry_mem := by
    obtain rfl := (path_of_patch? hw.entry).2
    exact hw.mem_patches_iff.mpr ⟨hw.entry_mem_order, hw.entry⟩
  path_inj p hp q hq h := by
    have hp := (hw.mem_patches_iff.mp hp).2
    have hq := (hw.mem_patches_iff.mp hq).2
    rw [h, hq] at hp
    exact (Option.some.inj hp).symm
  patch_sound p hp := hpatches p (path_of_patch? (hw.mem_patches_iff.mp hp).2).1
  classified p hp node hnode := ⟨_, hw.kind_eq_ok_iff.mpr ⟨⟨p, hp, node, hnode, rfl⟩, rfl⟩⟩
  subPatch_kind type path h := by
    obtain ⟨⟨p, hp, node, hnode, rfl⟩, hkind⟩ := hw.kind_eq_ok_iff.mp h
    obtain ⟨rank, _, hnested⟩ := hw.nested_mem
    unfold Project.kindOf at hkind
    split at hkind
    · next hpatch =>
      obtain rfl := Kind.subPatch.inj hkind
      exact ⟨rfl, hw.patch_of_mem_order (hnested p hp node hnode hpatch).1⟩
    · exact absurd hkind (by simp)
  primitive_kind type p h := by
    obtain ⟨_, hkind⟩ := hw.kind_eq_ok_iff.mp h
    unfold Project.kindOf at hkind
    split at hkind
    · exact absurd hkind (by simp)
    · next hpatch =>
      obtain rfl := Kind.primitive.inj hkind
      refine ⟨rfl, fun q hq hpath => hpatch ?_⟩
      exact isPatch_iff.mpr ⟨q, hpath ▸ (hw.mem_patches_iff.mp hq).2⟩
  ranked := by
    obtain ⟨rank, hlt, hnested⟩ := hw.nested_mem
    refine ⟨rank, fun p hp => ⟨hw.length_patches ▸ hlt p hp, fun node hnode q hq => ?_⟩⟩
    have hpatch : project.isPatch node.type = true :=
      isPatch_iff.mpr ⟨q, hq.2 ▸ (hw.mem_patches_iff.mp hq.1).2⟩
    exact hq.2 ▸ (hnested p hp node hnode hpatch).2
  sited p hp := by
    obtain ⟨hpath, hfound⟩ := hw.mem_patches_iff.mp hp
    obtain ⟨site, hsite, hsited⟩ := hw.stands_of_mem_order hpath
    exact ⟨site, hsite, Option.some.inj (hsited.symm.trans hfound)⟩

/-- The closures of a project that a document describes are sound. -/
theorem sound_of_ofEntry {document : Value} {entryPath : String} {closure : Closure}
    (hp : Document.project document = .ok project)
    (hc : ofEntry project entryPath strict = .ok closure) : closure.Sound := by
  obtain ⟨order, hw⟩ := walked_of_ofEntry hc
  exact sound_of_walked hw (Document.sound_of_project hp)

end Closure

end Patchbay
