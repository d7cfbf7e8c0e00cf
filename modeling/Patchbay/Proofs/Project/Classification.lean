import Patchbay.Proofs.Flat.LinkOrder
import Patchbay.Proofs.Graph.Recording
import Patchbay.Proofs.Project.Locality

/-!
# Types classified on the way

The kinds of node types can be found while the walk goes through a project: a type is looked up
among those classified so far, and what is found for a new one is kept (`classify`). The closure
that this comes to has the patches of the closure of the entry and the same kinds, in the order in
which the walk has met the types (`resolve_agree`).
-/

namespace Patchbay

namespace Project

/-- The kind of a type: the one that is kept, or found now and kept from now on. -/
def classify (project : Project) (strict : Bool) (kinds : Kinds) (type : String) :
    Except Failure (Kind × Kinds) :=
  match kinds.lookup type with
  | some kind => .ok (kind, kinds)
  | none =>
    if strict && project.isUnknown type then .error (.unknownType type)
    else .ok (project.kindOf type, kinds ++ [(type, project.kindOf type)])

/-- The paths of the patches that nodes instantiate, after those found before. -/
def gather (project : Project) (strict : Bool) (kinds : Kinds) (paths : List String) :
    List Node → Except Failure (List String × Kinds)
  | [] => .ok (paths, kinds)
  | node :: rest =>
    match project.classify strict kinds node.type with
    | .error failure => .error failure
    | .ok (.subPatch path, kinds) => gather project strict kinds (paths ++ [path]) rest
    | .ok (.primitive _, kinds) => gather project strict kinds paths rest

/-- The patches that the patch of a path instantiates, ascending. -/
def nestedClassifying (project : Project) (strict : Bool) (kinds : Kinds) (path : String) :
    Except Failure (List String × Kinds) :=
  match project.patch? path with
  | none => .ok ([], kinds)
  | some patch =>
    (project.gather strict kinds [] patch.nodes).map fun (paths, kinds) =>
      (paths.eraseDups.mergeSort Text.le, kinds)

end Project

/-- The closure of an entry patch, with the types classified on the way. -/
def Closure.resolve (project : Project) (entryPath : String) (strict : Bool) :
    Except Failure Closure :=
  match project.patch? entryPath with
  | none => .error (.noPatch (.str entryPath))
  | some entry =>
    match DepthFirst.postorderRecording (project.patches.map Patch.path)
        (project.nestedClassifying strict) [] [entryPath] with
    | .error (.cycle path) => .error (.nestingCycle path)
    | .error (.refused failure) => .error failure
    | .ok (order, kinds) => .ok ⟨entry, order.filterMap project.patch?, kinds⟩

namespace Project

variable {project : Project} {strict : Bool} {kinds : Kinds} {types : Set String} {type : String}
  {paths : List String} {nodes : List Node}

/-- The kinds are those of these types, each once; a strict reading knows all of them. -/
structure Classifies (project : Project) (strict : Bool) (types : Set String) (kinds : Kinds) :
    Prop where
  nodup : (kinds.map Prod.fst).Nodup
  mem_iff : ∀ type kind, (type, kind) ∈ kinds ↔ type ∈ types ∧ kind = project.kindOf type
  known : ∀ type ∈ types, (strict && project.isUnknown type) = false

namespace Classifies

theorem of_lookup (h : project.Classifies strict types kinds) {kind : Kind}
    (hlookup : kinds.lookup type = some kind) : type ∈ types ∧ kind = project.kindOf type :=
  (h.mem_iff type kind).mp (Keyed.mem_of_lookup hlookup)

theorem not_mem_of_lookup (h : project.Classifies strict types kinds)
    (hlookup : kinds.lookup type = none) : type ∉ types := fun htype => by
  have hmem := (h.mem_iff type _).mpr ⟨htype, rfl⟩
  rw [(Keyed.lookup_eq_some_iff h.nodup).mpr hmem] at hlookup
  exact absurd hlookup (by simp)

/-- A type that is classified for the first time. -/
theorem add (h : project.Classifies strict types kinds) (hnew : type ∉ types)
    (hknown : (strict && project.isUnknown type) = false) :
    project.Classifies strict (insert type types) (kinds ++ [(type, project.kindOf type)]) where
  nodup := by
    have hfresh : type ∉ kinds.map Prod.fst := fun hmem => by
      obtain ⟨⟨_, kind⟩, hkind, rfl⟩ := List.mem_map.mp hmem
      exact hnew ((h.mem_iff _ kind).mp hkind).1
    rw [List.map_append, List.map_singleton, ← List.concat_eq_append]
    exact h.nodup.concat hfresh
  mem_iff other kind := by
    rw [List.mem_append, h.mem_iff, List.mem_singleton, Prod.mk.injEq, Set.mem_insert_iff]
    by_cases heq : other = type
    · simp [heq, hnew]
    · simp [heq]
  known other hother := by
    rcases Set.mem_insert_iff.mp hother with rfl | hother
    · exact hknown
    · exact h.known other hother

end Classifies

/-- A type is refused, or classified along with those before. -/
theorem classify_cases (h : project.Classifies strict types kinds) (type : String) :
    (strict && project.isUnknown type) = true ∧
        project.classify strict kinds type = .error (.unknownType type) ∨
      (strict && project.isUnknown type) = false ∧
        ∃ kinds', project.classify strict kinds type = .ok (project.kindOf type, kinds') ∧
          project.Classifies strict (insert type types) kinds' := by
  unfold classify
  cases hlookup : kinds.lookup type with
  | some kind =>
    obtain ⟨htype, rfl⟩ := h.of_lookup hlookup
    exact .inr ⟨h.known type htype, kinds, rfl, by rwa [Set.insert_eq_of_mem htype]⟩
  | none =>
    have hnew := h.not_mem_of_lookup hlookup
    cases hunknown : strict && project.isUnknown type with
    | true => exact .inl ⟨rfl, by simp⟩
    | false => exact .inr ⟨rfl, _, by simp, h.add hnew hunknown⟩

/-- The patch paths among the types of nodes, in the order of the nodes. -/
def patchTypes (project : Project) (strict : Bool) (nodes : List Node) :
    Except Failure (List String) :=
  match (nodes.map Node.type).find? fun type => strict && project.isUnknown type with
  | some type => .error (.unknownType type)
  | none => .ok ((nodes.map Node.type).filter project.isPatch)

theorem instantiated_eq (patch : Patch) : project.instantiated strict patch =
    (project.patchTypes strict patch.nodes).map fun paths =>
      paths.eraseDups.mergeSort Text.le := by
  unfold instantiated patchTypes
  generalize List.find? _ _ = unknown
  cases unknown <;> rfl

theorem patchTypes_cons_unknown {node : Node}
    (h : (strict && project.isUnknown node.type) = true) :
    project.patchTypes strict (node :: nodes) = .error (.unknownType node.type) := by
  simp only [patchTypes, List.map_cons, List.find?_cons, h]

theorem patchTypes_cons {node : Node} (h : (strict && project.isUnknown node.type) = false) :
    project.patchTypes strict (node :: nodes) = (project.patchTypes strict nodes).map fun paths =>
      if project.isPatch node.type then node.type :: paths else paths := by
  simp only [patchTypes, List.map_cons, List.find?_cons, h, List.filter_cons]
  generalize List.find? _ _ = unknown
  cases unknown <;> rfl

theorem gather_cons {node : Node} {kinds' : Kinds}
    (h : project.classify strict kinds node.type = .ok (project.kindOf node.type, kinds')) :
    project.gather strict kinds paths (node :: nodes) = project.gather strict kinds'
      (if project.isPatch node.type then paths ++ [node.type] else paths) nodes := by
  rw [gather, h, kindOf]
  cases project.isPatch node.type <;> rfl

/-- The types of nodes, along with those before. -/
def typesWith (types : Set String) (nodes : List Node) : Set String :=
  {type | type ∈ types ∨ ∃ node ∈ nodes, node.type = type}

theorem typesWith_cons (types : Set String) (node : Node) (nodes : List Node) :
    typesWith types (node :: nodes) = typesWith (insert node.type types) nodes := by
  ext type
  simp only [typesWith, Set.mem_ofPred_eq, Set.mem_insert_iff, List.exists_mem_cons_iff, eq_comm]
  tauto

/-- The nodes of a patch are gone through one by one: the first unknown type stops a strict
reading. -/
theorem gather_agree (h : project.Classifies strict types kinds) (paths : List String)
    (nodes : List Node) :
    Agree Eq
      (fun answer found => answer.1 = paths ++ found ∧
        project.Classifies strict (typesWith types nodes) answer.2)
      (project.gather strict kinds paths nodes) (project.patchTypes strict nodes) := by
  induction nodes generalizing types kinds paths with
  | nil =>
    refine .ok ⟨by simp, ?_⟩
    simpa [typesWith] using h
  | cons node rest ih =>
    rcases classify_cases h node.type with ⟨hunknown, hrefused⟩ | ⟨hknown, kinds', hok, h'⟩
    · rw [gather, hrefused, patchTypes_cons_unknown hunknown]
      exact .error rfl
    · rw [gather_cons hok, patchTypes_cons hknown, typesWith_cons]
      have hrest := ih h' (if project.isPatch node.type then paths ++ [node.type] else paths)
      generalize project.gather strict kinds' _ rest = answer at hrest ⊢
      generalize project.patchTypes strict rest = found at hrest ⊢
      cases hrest with
      | error h => exact .error h
      | ok h =>
        refine .ok ⟨h.1.trans ?_, h.2⟩
        split <;> simp

/-- The types of the nodes of some patches. -/
def typesAt (project : Project) (paths : Set String) : Set String :=
  {type | ∃ path ∈ paths, ∃ patch, project.patch? path = some patch ∧
    ∃ node ∈ patch.nodes, node.type = type}

theorem typesAt_insert {path : String} {paths : Set String} {patch : Patch}
    (h : project.patch? path = some patch) :
    project.typesAt (insert path paths) = typesWith (project.typesAt paths) patch.nodes := by
  ext type
  simp [typesAt, typesWith, h, or_comm]

theorem typesAt_insert_missing {path : String} {paths : Set String}
    (h : project.patch? path = none) :
    project.typesAt (insert path paths) = project.typesAt paths := by
  ext type
  simp [typesAt, h]

theorem tells_nestedClassifying (project : Project) (strict : Bool) :
    DepthFirst.Tells (project.nestedClassifying strict) (Closure.nestedPaths project strict)
      fun paths => project.Classifies strict (project.typesAt paths) := by
  intro seen kinds path h
  unfold nestedClassifying Closure.nestedPaths
  cases hpatch : project.patch? path with
  | none =>
    refine .ok ⟨rfl, ?_⟩
    dsimp only
    rwa [typesAt_insert_missing hpatch]
  | some patch =>
    dsimp only
    rw [instantiated_eq, typesAt_insert hpatch]
    refine (gather_agree h [] patch.nodes).map fun answer found hfound => ?_
    exact ⟨by rw [hfound.1]; rfl, hfound.2⟩

end Project

namespace Closure

/-- The closures are the same up to the order of their kinds. -/
structure UpToKinds (a b : Closure) : Prop where
  entry_eq : a.entry = b.entry
  patches_eq : a.patches = b.patches
  kinds_perm : a.kinds.Perm b.kinds

variable {project : Project} {strict : Bool} {order : List String} {kinds : Kinds}

/-- The kinds of all types in use, each once, are what a walk has classified. -/
theorem perm_of_classifies (h : project.Classifies strict (project.typesAt {v | v ∈ order}) kinds) :
    kinds.Perm ((typesOf (order.filterMap project.patch?)).map fun type =>
      (type, project.kindOf type)) := by
  have hkeys : (((typesOf (order.filterMap project.patch?)).map fun type =>
      (type, project.kindOf type)).map Prod.fst).Nodup := by
    rw [List.map_map]
    exact (List.map_id _).symm ▸ nodup_eraseDups _
  refine (List.perm_ext_iff_of_nodup h.nodup.of_map hkeys.of_map).mpr fun ⟨type, kind⟩ => ?_
  have htype : type ∈ typesOf (order.filterMap project.patch?) ↔
      type ∈ project.typesAt {v | v ∈ order} := by
    simp only [typesOf, List.mem_eraseDups, List.mem_flatMap, List.mem_filterMap, List.mem_map,
      Project.typesAt, Set.mem_ofPred_eq]
    grind
  rw [h.mem_iff, ← htype, List.mem_map]
  constructor
  · rintro ⟨hmem, rfl⟩
    exact ⟨type, hmem, rfl⟩
  · rintro ⟨other, hmem, heq⟩
    obtain ⟨rfl, rfl⟩ := Prod.mk.inj heq
    exact ⟨hmem, rfl⟩

/-- To classify types on the way makes no difference but for the order of the kinds. -/
theorem resolve_agree (project : Project) (entryPath : String) (strict : Bool) :
    Agree Eq UpToKinds (resolve project entryPath strict) (ofEntry project entryPath strict) := by
  have hempty : project.Classifies strict (project.typesAt ∅) [] :=
    ⟨by simp, by simp [Project.typesAt], by simp [Project.typesAt]⟩
  have hwalk : Agree Eq _ (DepthFirst.postorderRecording (project.patches.map Patch.path)
      (project.nestedClassifying strict) [] [entryPath])
      (DepthFirst.postorder (project.patches.map Patch.path) (nestedPaths project strict)
        [entryPath]) :=
    DepthFirst.postorderRecording_agree (project.tells_nestedClassifying strict) hempty
  rw [ofEntry_eq]
  unfold resolve
  cases project.patch? entryPath with
  | none => exact .error rfl
  | some entry =>
    dsimp only
    generalize DepthFirst.postorderRecording (project.patches.map Patch.path)
      (project.nestedClassifying strict) [] [entryPath] = recording at hwalk ⊢
    generalize DepthFirst.postorder (project.patches.map Patch.path) (nestedPaths project strict)
      [entryPath] = walk at hwalk ⊢
    cases hwalk with
    | @error interrupt _ h =>
      rw [← h]
      cases interrupt <;> exact .error rfl
    | @ok answer order h =>
      obtain ⟨rfl, hkinds⟩ := h
      exact .ok ⟨rfl, rfl, perm_of_classifies hkinds⟩

end Closure

end Patchbay
