import Patchbay.Proofs.Flat.Likeness
import Patchbay.Proofs.Json.Reordering
import Patchbay.Proofs.Project.Locality

/-!
# Projects up to order

Two projects are alike if they differ in the order of their patches, nodes, links, declarations,
pins and literal values at most (`Project.Alike`). What is looked up in them is alike, so the walk
from an entry lists the same patches in the same order (`Project.Alike.ofEntry`), and the closures are
flattened together (`Closure.Alike.flatten`).
-/

namespace Patchbay

/-! ## Declarations -/

/-- Two declared pins differ in the order of members inside their values at most. -/
structure Pin.Alike (pin other : Pin) : Prop where
  key : Value.Reordered pin.key other.key
  direction_eq : pin.direction = other.direction
  type_eq : pin.type = other.type
  default? : Option.Rel Value.Reordered pin.default? other.default?
  variadic_eq : pin.variadic = other.variadic

/-- Two declarations differ in the order of their pins and implementation texts at most. -/
structure NodeType.Alike (t other : NodeType) : Prop where
  id_eq : t.id = other.id
  pure_eq : t.pure = other.pure
  raises_eq : t.raises = other.raises
  pins_nodup : (t.pins.map Prod.fst).Nodup
  pins : Shuffled (Keyed.Corresponds Pin.Alike) t.pins other.pins
  templates_nodup : (t.templates.map Prod.fst).Nodup
  templates_perm : t.templates.Perm other.templates

namespace NodeType.Alike

variable {t other : NodeType} (h : NodeType.Alike t other)
include h

theorem lookup_pin (key : String) :
    Option.Rel Pin.Alike (t.pins.lookup key) (other.pins.lookup key) :=
  h.pins.lookup h.pins_nodup key

theorem pin? (key : String) : Option.Rel Pin.Alike (t.pin? key) (other.pin? key) := by
  have hkey := h.lookup_pin key
  unfold NodeType.pin?
  generalize t.pins.lookup key = found at hkey
  generalize other.pins.lookup key = found' at hkey
  cases hkey with
  | some hpin => exact .some hpin
  | none =>
    cases NodeType.expansionBase? key with
    | none => exact .none
    | some base =>
      have hbase := h.lookup_pin base
      dsimp only [Option.bind_some]
      generalize t.pins.lookup base = found at hbase
      generalize other.pins.lookup base = found' at hbase
      cases hbase with
      | none => exact .none
      | some hpin =>
        dsimp only
        rw [hpin.variadic_eq]
        split
        · exact .some hpin
        · exact .none

theorem lookup_template (backend : String) :
    t.templates.lookup backend = other.templates.lookup backend := by
  have hsame : Shuffled (Keyed.Corresponds Eq) t.templates other.templates :=
    .of_perm (fun _ _ => ⟨rfl, rfl⟩) h.templates_perm
  have hfound := hsame.lookup h.templates_nodup backend
  generalize t.templates.lookup backend = found at hfound ⊢
  generalize other.templates.lookup backend = found' at hfound ⊢
  cases hfound with
  | none => rfl
  | some heq => rw [heq]

end NodeType.Alike

/-- Two primitives of one type, with declarations that are alike. -/
structure Primitive.Alike (p other : Primitive) : Prop where
  type_eq : p.type = other.type
  terminal_eq : p.terminal = other.terminal
  entry : Option.Rel NodeType.Alike p.entry other.entry

namespace Primitive.Alike

variable {p other : Primitive} (h : Primitive.Alike p other)
include h

theorem isTerminal_eq : p.isTerminal = other.isTerminal := by
  rw [isTerminal, isTerminal, h.terminal_eq]

theorem hasSignature_eq : p.hasSignature = other.hasSignature := by
  rw [hasSignature, hasSignature, h.isTerminal_eq, Found.isSome_eq h.entry]

theorem pin? (key : String) : Option.Rel Pin.Alike (p.pin? key) (other.pin? key) := by
  have hterminal : Option.Rel Pin.Alike (p.terminalPin? key) (other.terminalPin? key) := by
    unfold terminalPin?
    rw [h.terminal_eq]
    cases other.terminal with
    | none => exact .none
    | some t =>
      dsimp only
      split
      · exact .some ⟨.str _, rfl, rfl, .none, rfl⟩
      · exact .none
  have hentry := h.entry
  unfold Primitive.pin?
  generalize p.entry = entry at hentry
  generalize other.entry = entry' at hentry
  cases hentry with
  | none => exact hterminal
  | @some t t' ht =>
    have hpin := ht.pin? key
    dsimp only
    generalize t.pin? key = found at hpin
    generalize t'.pin? key = found' at hpin
    cases hpin with
    | none => exact hterminal
    | some hpin => exact .some hpin

theorem direction?_eq (key : String) : p.direction? key = other.direction? key :=
  Found.map_eq (h.pin? key) fun _ _ hpin => hpin.direction_eq

end Primitive.Alike

/-- Two kinds are the same patch, or primitives that are alike. -/
inductive Kind.Alike : Kind → Kind → Prop
  | subPatch (path : String) : Alike (.subPatch path) (.subPatch path)
  | primitive {p other : Primitive} (h : Primitive.Alike p other) :
      Alike (.primitive p) (.primitive other)

/-- Every type is of kinds that are alike. -/
def Kinds.Alike (kinds others : Kinds) : Prop :=
  ∀ type, Agree Eq Kind.Alike (kinds.kind type) (others.kind type)

theorem Kinds.Alike.primitive {kinds others : Kinds} (h : Kinds.Alike kinds others)
    (type : String) : Together Primitive.Alike (kinds.primitive type) (others.primitive type) := by
  have hkind := h type
  unfold Kinds.primitive
  generalize kinds.kind type = kind at hkind
  generalize others.kind type = kind' at hkind
  cases hkind with
  | error _ => exact .error
  | ok hkind =>
    cases hkind with
    | subPatch path => exact .error
    | primitive hp => exact .ok hp

theorem Kinds.kind_map (types : List String) (f : String → Kind) (type : String) :
    Kinds.kind (types.map fun type => (type, f type)) type =
      if type ∈ types then .ok (f type) else .error (.fault (.missing (.str type))) := by
  have hlookup : (types.map fun type => (type, f type)).lookup type =
      if type ∈ types then some (f type) else none := by
    induction types with
    | nil => rfl
    | cons head rest ih =>
      rw [List.map_cons, List.lookup_cons]
      by_cases h : type = head
      · subst h
        simp
      · rw [beq_false_of_ne h, ih]
        simp [h]
  unfold kind
  rw [hlookup]
  split
  · next h => simp_all
  · next h => simp_all

/-! ## Patches and projects -/

/-- Two links join the same ends, and the id of both can be read or of none. -/
structure Link.Alike (link other : Link) : Prop where
  first_eq : link.first = other.first
  second_eq : link.second = other.second
  idFault?_eq : Link.idFault? link.id = Link.idFault? other.id

theorem Inlining.spliceEdges_eq_mapM (kinds : Kinds) (patch : Patch) (places : Places) (owner : Int)
    (edges : List Edge) : spliceEdges kinds patch places owner edges = edges.mapM fun edge => do
      let source ← splice kinds patch places owner edge.source
      let target ← splice kinds patch places owner edge.target
      return ⟨source, target⟩ := by
  induction edges with
  | nil => rfl
  | cons edge rest ih =>
    rw [spliceEdges, List.mapM_cons, ih]
    simp only [bind_assoc, pure_bind]

/-- Runs that may fail in different ways, on values that are reordered. -/
def Likeness.reordered : Likeness where
  failure _ _ := True
  value := Value.Reordered
  members := Members.Alike
  edges := List.Perm
  name type := type
  failure_refl _ := trivial
  failure_trans _ _ := trivial
  failure_noTerminal _ _ _ _ := trivial
  put key hm hv := hm.put key hv
  sorted hm := hm.sorted
  edges_nil := .nil
  edges_append h h' := h.append h'
  edges_mem h _ := h.mem_iff
  edges_splice kinds patch places owner h := by
    rw [Inlining.spliceEdges_eq_mapM, Inlining.spliceEdges_eq_mapM]
    exact mapM_perm h _

/-- Two patches differ in the order of their nodes, links and literal values at most. -/
structure Patch.Alike (patch other : Patch) : Prop where
  path_eq : patch.path = other.path
  nodes : Shuffled (Node.Like .reordered) patch.nodes other.nodes
  ids_nodup : (patch.nodes.map Node.id).Nodup
  links : Shuffled Link.Alike patch.links other.links

/-- Two projects differ in the order of what they hold at most. -/
structure Project.Alike (project other : Project) : Prop where
  patches : Shuffled Patch.Alike project.patches other.patches
  paths_nodup : (project.patches.map Patch.path).Nodup
  catalog : Shuffled NodeType.Alike project.catalog other.catalog
  types_nodup : (project.catalog.map NodeType.id).Nodup

/-- Two closures differ in the order of what their patches hold at most. -/
structure Closure.Alike (closure other : Closure) : Prop where
  kinds : Kinds.Alike closure.kinds other.kinds
  entry : Patch.Alike closure.entry other.entry
  patches : List.Forall₂ Patch.Alike closure.patches other.patches

/-! ## Edges -/

section Edges

variable {kinds others : Kinds} {patch other : Patch}

theorem Kinds.Alike.like (h : Kinds.Alike kinds others) : kinds.Like .reordered others := by
  intro type
  refine (h type).imp (fun _ _ _ => trivial) fun _ _ hkind => ?_
  cases hkind with
  | subPatch path => exact .subPatch path
  | primitive hp => exact .primitive ⟨hp.terminal_eq, hp.hasSignature_eq, hp.direction?_eq⟩

namespace Patch.Alike

variable (h : Patch.Alike patch other)
include h

theorem sameNodes : Patch.SameNodes .reordered patch other :=
  h.nodes.find? (fun _ _ hn => hn.id_eq) h.ids_nodup

theorem sortedLinks : Together (Shuffled Link.Alike) patch.sortedLinks other.sortedLinks := by
  have hfault : (patch.links.findSome? fun link => Link.idFault? link.id).isSome =
      (other.links.findSome? fun link => Link.idFault? link.id).isSome :=
    h.links.findSome?_isSome_eq fun _ _ halike => halike.idFault?_eq
  unfold Patch.sortedLinks Link.sortById
  generalize patch.links.findSome? (fun link => Link.idFault? link.id) = fault at hfault
  generalize other.links.findSome? (fun link => Link.idFault? link.id) = fault' at hfault
  cases fault with
  | some _ =>
    cases fault' with
    | some _ => exact .error
    | none => exact absurd hfault (by simp)
  | none =>
    cases fault' with
    | some _ => exact absurd hfault (by simp)
    | none =>
      exact .ok ((h.links.perm_left (List.mergeSort_perm _ _)).perm_right
        (List.mergeSort_perm _ _).symm)

theorem linkEdges (hkinds : Kinds.Alike kinds others) (places : Inlining.Places) :
    Together List.Perm (Inlining.linkEdges kinds patch places)
      (Inlining.linkEdges others other places) := by
  have hlinks := h.sortedLinks
  unfold Inlining.linkEdges
  generalize patch.sortedLinks = links at hlinks
  generalize other.sortedLinks = links' at hlinks
  cases hlinks with
  | error _ => exact .error
  | ok hlinks =>
    refine (hlinks.mapM fun _ _ hlink => ?_).mono fun _ _ hedges => hedges.perm
    exact Inlining.placedEdge_like hkinds.like h.sameNodes places hlink.first_eq hlink.second_eq

/-- Patches that are alike are inlined alike. -/
theorem like (hkinds : Kinds.Alike kinds others) :
    Patch.Like .reordered kinds others patch other :=
  .of_shuffled h.path_eq h.nodes h.ids_nodup (h.linkEdges hkinds)

end Patch.Alike

end Edges

/-- Closures that are alike are flattened together. -/
theorem Closure.Alike.flatten {closure other : Closure} (h : Closure.Alike closure other) :
    Together (FlatGraph.Like .reordered) closure.flatten other.flatten := by
  have hpatches : List.Forall₂ (Patch.Like .reordered closure.kinds other.kinds) closure.patches
      other.patches := h.patches.imp fun _ _ hp => hp.like h.kinds
  have hlike : Closure.Like .reordered closure other :=
    { kinds := h.kinds.like
      entry := h.entry.like h.kinds
      length_eq := hpatches.length_eq
      patch := fun path => (patch_agree hpatches (fun _ _ hp => hp.path_eq) path).imp
        (fun _ _ _ => trivial) fun _ _ => id }
  exact hlike.flatten

/-! ## The walk from an entry -/

namespace Project.Alike

variable {project other : Project} (h : Project.Alike project other)
include h

theorem patch? (path : String) :
    Option.Rel Patch.Alike (project.patch? path) (other.patch? path) :=
  h.patches.find? (fun _ _ hp => hp.path_eq) h.paths_nodup path

theorem isPatch_eq (type : String) : project.isPatch type = other.isPatch type :=
  Found.isSome_eq (h.patch? type)

theorem primitive (type : String) :
    Primitive.Alike (Project.primitive project.catalog type)
      (Project.primitive other.catalog type) :=
  ⟨rfl, rfl, h.catalog.find? (fun _ _ ht => ht.id_eq) h.types_nodup type⟩

theorem isUnknown_eq (type : String) : project.isUnknown type = other.isUnknown type := by
  rw [isUnknown, isUnknown, h.isPatch_eq, Primitive.isUnknown, Primitive.isUnknown,
    (h.primitive type).hasSignature_eq]

theorem kindOf (type : String) : Kind.Alike (project.kindOf type) (other.kindOf type) := by
  unfold Project.kindOf
  rw [h.isPatch_eq]
  split
  · exact .subPatch type
  · exact .primitive (h.primitive type)

theorem instantiated (strict : Bool) {patch patch' : Patch} (hp : Patch.Alike patch patch') :
    Together Eq (project.instantiated strict patch) (other.instantiated strict patch') := by
  have htypes : ∀ type, type ∈ patch.nodes.map Node.type ↔ type ∈ patch'.nodes.map Node.type :=
    fun type => (hp.nodes.map_perm fun _ _ hn => hn.type_eq).mem_iff
  have hunknown : ((patch.nodes.map Node.type).find? fun type =>
        strict && project.isUnknown type).isSome =
      ((patch'.nodes.map Node.type).find? fun type => strict && other.isUnknown type).isSome := by
    rw [Bool.eq_iff_iff, List.find?_isSome, List.find?_isSome]
    simp only [htypes, h.isUnknown_eq]
  unfold Project.instantiated
  generalize (patch.nodes.map Node.type).find? (fun type => strict && project.isUnknown type) =
    found at hunknown
  generalize (patch'.nodes.map Node.type).find? (fun type => strict && other.isUnknown type) =
    found' at hunknown
  cases found with
  | some _ =>
    cases found' with
    | some _ => exact .error
    | none => exact absurd hunknown (by simp)
  | none =>
    cases found' with
    | some _ => exact absurd hunknown (by simp)
    | none =>
      refine .ok (ascendingTexts_eq fun type => ?_)
      rw [List.mem_filter, List.mem_filter, htypes, h.isPatch_eq]

theorem nestedPaths (strict : Bool) (path : String) :
    Together Eq (Closure.nestedPaths project strict path)
      (Closure.nestedPaths other strict path) := by
  have hpatch := h.patch? path
  unfold Closure.nestedPaths
  generalize project.patch? path = found at hpatch
  generalize other.patch? path = found' at hpatch
  cases hpatch with
  | none => exact .ok rfl
  | some hp => exact h.instantiated strict hp

omit h in
theorem mem_typesOf_iff {patches patches' : List Patch}
    (hp : List.Forall₂ Patch.Alike patches patches') {type : String} : type ∈ Closure.typesOf patches ↔ type ∈ Closure.typesOf patches' := by
  have htypes : List.Forall₂
      (fun p q : Patch => (p.nodes.map Node.type).Perm (q.nodes.map Node.type)) patches patches' := hp.imp fun _ _ hp => hp.nodes.map_perm fun _ _ hn => hn.type_eq
  simp only [Closure.typesOf, List.mem_eraseDups, List.mem_flatMap]
  constructor
  · rintro ⟨p, hp, htype⟩
    obtain ⟨q, hq, hperm⟩ := Matched.exists_right htypes hp
    exact ⟨q, hq, hperm.mem_iff.mp htype⟩
  · rintro ⟨q, hq, htype⟩
    obtain ⟨p, hp, hperm⟩ := Matched.exists_left htypes hq
    exact ⟨p, hp, hperm.mem_iff.mpr htype⟩

/-- An entry has closures that are alike in projects that are alike, or none in both. -/
theorem ofEntry (entryPath : String) (strict : Bool) :
    Together Closure.Alike (Closure.ofEntry project entryPath strict)
      (Closure.ofEntry other entryPath strict) := by
  have hpaths : (project.patches.map Patch.path).Perm (other.patches.map Patch.path) :=
    h.patches.map_perm fun _ _ hp => hp.path_eq
  have hwalk := DepthFirst.postorder_agree [entryPath]
    (fun path _ => h.nestedPaths strict path) h.paths_nodup (hpaths.nodup_iff.mp h.paths_nodup)
    fun path _ => hpaths.mem_iff
  have hentry := h.patch? entryPath
  rw [Closure.ofEntry_eq, Closure.ofEntry_eq]
  generalize project.patch? entryPath = found at hentry
  generalize other.patch? entryPath = found' at hentry
  generalize DepthFirst.postorder (project.patches.map Patch.path) _ [entryPath] = walk at hwalk
  generalize DepthFirst.postorder (other.patches.map Patch.path) _ [entryPath] = walk' at hwalk
  cases hentry with
  | none => exact .error
  | some hentry =>
    cases hwalk with
    | error hstop =>
      cases hstop with
      | cycle path => exact .error
      | refused _ => exact .error
    | @ok order _ horder =>
      subst horder
      have hpatches : List.Forall₂ Patch.Alike (order.filterMap project.patch?)
          (order.filterMap other.patch?) :=
        List.rel_filterMap (R := Eq) (fun path _ heq => heq ▸ h.patch? path) (List.forall₂_refl _)
      refine .ok ⟨fun type => ?_, hentry, hpatches⟩
      rw [Kinds.kind_map, Kinds.kind_map]
      simp only [mem_typesOf_iff hpatches]
      split
      · exact .ok (h.kindOf type)
      · exact .error rfl

end Project.Alike

end Patchbay
