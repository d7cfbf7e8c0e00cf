import Patchbay.Compilation
import Patchbay.Proofs.Flat.Likeness
import Patchbay.Proofs.Flat.PinKeys
import Patchbay.Proofs.Project.Locality

/-!
# The order of the ends of a link

A document gives the ends of a link in an order, and this order decides the direction of the data
only where neither end tells it. Where one end does (`Project.Tells`), the link with its ends
swapped becomes the same edge, or is refused as well (`orient_swap`). So a project in which such links are
drawn the other way round compiles to the same unit, or fails for a failure of the same kind
(`compile_redrawn`).
-/

namespace Patchbay

/-- The link with its ends swapped. -/
def Link.swap (link : Link) : Link := ⟨link.id, link.second, link.first⟩

/-- The link, with its ends swapped if it is selected. -/
def Link.redrawn (selected : Link → Bool) (link : Link) : Link :=
  if selected link then link.swap else link

/-- The patch with the ends of some links swapped. -/
def Patch.redrawn (selected : Link → Bool) (patch : Patch) : Patch :=
  { patch with links := patch.links.map (Link.redrawn selected) }

namespace Project

/-- The project with the ends of some links swapped; a link is selected by the path of its patch and
itself. -/
def redrawn (selected : String → Link → Bool) (project : Project) : Project :=
  { project with patches := project.patches.map fun patch => patch.redrawn (selected patch.path) }

/-- An end of the link is on a node whose type is a patch, is declared, or is a terminal. -/
def Tells (project : Project) (patch : Patch) (link : Link) : Prop :=
  ∃ e ∈ link.ends, ∃ node ∈ patch.nodes, node.id = e.node ∧ project.isUnknown node.type = false

variable {project : Project} {selected : String → Link → Bool}

theorem patch?_redrawn (path : String) : (project.redrawn selected).patch? path =
    (project.patch? path).map fun patch => patch.redrawn (selected patch.path) := by
  unfold patch? redrawn
  rw [List.find?_map]
  rfl

theorem isPatch_redrawn : (project.redrawn selected).isPatch = project.isPatch := by
  funext type
  rw [isPatch, patch?_redrawn, Option.isSome_map]
  rfl

theorem kindOf_redrawn : (project.redrawn selected).kindOf = project.kindOf := by
  funext type
  rw [kindOf, kindOf, isPatch_redrawn]
  rfl

theorem instantiated_redrawn (strict : Bool) (patch : Patch) (chosen : Link → Bool) :
    (project.redrawn selected).instantiated strict (patch.redrawn chosen) =
      project.instantiated strict patch := by
  have hunknown : (project.redrawn selected).isUnknown = project.isUnknown := by
    funext type
    rw [isUnknown, isUnknown, isPatch_redrawn]
    rfl
  unfold instantiated
  rw [hunknown, isPatch_redrawn]
  rfl

end Project

namespace Closure

/-- The closure with the ends of some links swapped. -/
def redrawn (selected : String → Link → Bool) (closure : Closure) : Closure where
  entry := closure.entry.redrawn (selected closure.entry.path)
  patches := closure.patches.map fun patch => patch.redrawn (selected patch.path)
  kinds := closure.kinds

theorem ofEntry_redrawn (project : Project) (selected : String → Link → Bool) (entryPath : String)
    (strict : Bool) : ofEntry (project.redrawn selected) entryPath strict =
      (ofEntry project entryPath strict).map (redrawn selected) := by
  have hpaths : (project.redrawn selected).patches.map Patch.path =
      project.patches.map Patch.path := by
    rw [Project.redrawn, List.map_map]
    rfl
  have hnested : nestedPaths (project.redrawn selected) strict = nestedPaths project strict := by
    funext path
    unfold nestedPaths
    rw [Project.patch?_redrawn]
    cases project.patch? path with
    | none => rfl
    | some patch => exact Project.instantiated_redrawn strict patch _
  have hpatches : ∀ order : List String, order.filterMap (project.redrawn selected).patch? =
      (order.filterMap project.patch?).map fun patch => patch.redrawn (selected patch.path) := by
    intro order
    rw [List.map_filterMap]
    exact List.filterMap_congr fun path _ => Project.patch?_redrawn path
  have htypes : ∀ patches : List Patch,
      typesOf (patches.map fun patch => patch.redrawn (selected patch.path)) = typesOf patches := by
    intro patches
    rw [typesOf, List.flatMap_map]
    rfl
  rw [ofEntry_eq, ofEntry_eq, Project.patch?_redrawn, hpaths, hnested]
  cases project.patch? entryPath with
  | none => rfl
  | some patch =>
    rw [Option.map_some]
    dsimp only
    cases DepthFirst.postorder (project.patches.map Patch.path) (nestedPaths project strict)
        [entryPath] with
    | error interrupt => cases interrupt <;> rfl
    | ok order =>
      dsimp only
      rw [hpatches, htypes, Project.kindOf_redrawn]
      rfl

end Closure

/-! ## One link -/

/-- Two failures are of one kind. -/
def Failure.SameKind (failure other : Failure) : Prop := failure.kind = other.kind

theorem Failure.SameKind.refl (failure : Failure) : failure.SameKind failure := rfl

theorem Failure.IsInvalid.sameKind {failure other : Failure} (h : failure.IsInvalid)
    (h' : other.IsInvalid) : failure.SameKind other :=
  h.trans h'.symm

namespace Inlining

variable {closure : Closure} {patch : Patch} {link : Link}

/-- The type is a patch, is declared, or is a terminal. -/
def Signed (kinds : Kinds) (type : String) : Prop :=
  (∃ path, kinds.kind type = .ok (.subPatch path)) ∨
    ∃ p, kinds.kind type = .ok (.primitive p) ∧ p.hasSignature = true

/-- On a type whose pins are known, an end tells its direction or is refused. -/
theorem direction_ne_none {kinds : Kinds} {type : String} (h : Signed kinds type) (id : String)
    (e : LinkEnd) : direction kinds id type e ≠ .ok none := by
  unfold direction
  rcases h with ⟨path, hkind⟩ | ⟨p, hkind, hsig⟩
  · rw [hkind]
    cases e.pin with
    | named key => simp
    | boundary d terminal => simp
  · rw [hkind]
    cases h : p.direction? e.pin.key with
    | some d => simp [h]
    | none => simp [h, hsig]

/-- A link one end of which tells its direction may be drawn either way round. -/
theorem orient_swap (hs : closure.Sound) (hp : patch ∈ closure.patches)
    (hlink : link ∈ patch.links)
    (htold : ∃ e ∈ link.ends, ∃ node ∈ patch.nodes, node.id = e.node ∧
      Signed closure.kinds node.type) :
    Agree Failure.SameKind Eq (orient closure.kinds patch link)
      (orient closure.kinds patch link.swap) := by
  have hpatch := hs.patch_sound _ hp
  obtain ⟨a, ha, haid⟩ := hpatch.ends_known _ hlink link.first link.first_mem_ends
  obtain ⟨b, hb, hbid⟩ := hpatch.ends_known _ hlink link.second link.second_mem_ends
  unfold orient
  simp only [Link.swap, typeIn_eq_ok hpatch ha haid, typeIn_eq_ok hpatch hb hbid, bind, Except.bind]
  have hknown : direction closure.kinds link.id a.type link.first ≠ .ok none ∨
      direction closure.kinds link.id b.type link.second ≠ .ok none := by
    obtain ⟨e, he, node, hn, hid, hsigned⟩ := htold
    rcases List.mem_cons.mp he with rfl | he
    · obtain rfl := hpatch.eq_of_id_eq hn ha (hid.trans haid.symm)
      exact .inl (direction_ne_none hsigned _ _)
    · obtain rfl := List.mem_singleton.mp he
      obtain rfl := hpatch.eq_of_id_eq hn hb (hid.trans hbid.symm)
      exact .inr (direction_ne_none hsigned _ _)
  rcases direction_cases hs hp ha haid link.id with ⟨f, hf, hinvalid, _⟩ | ⟨da, hda, _⟩
  · rcases direction_cases hs hp hb hbid link.id with ⟨g, hg, hinvalid', _⟩ | ⟨db, hdb, _⟩
    · rw [hf, hg]
      exact .error (hinvalid.sameKind hinvalid')
    · rw [hf, hdb]
      exact .error rfl
  rcases direction_cases hs hp hb hbid link.id with ⟨g, hg, hinvalid', _⟩ | ⟨db, hdb, _⟩
  · rw [hda, hg]
    exact .error rfl
  -- Without a direction of either end the first end would be the source, and the order would show.
  rw [hda, hdb] at hknown ⊢
  match da, db with
  | none, none => simp at hknown
  | some .input, some .input => exact .error rfl
  | some .output, some .output => exact .error rfl
  | some .input, some .output => exact .ok rfl
  | some .output, some .input => exact .ok rfl
  | some .input, none => exact .ok rfl
  | some .output, none => exact .ok rfl
  | none, some .output => exact .ok rfl
  | none, some .input => exact .ok rfl

theorem orient_redrawn (kinds : Kinds) (chosen : Link → Bool) (patch : Patch) :
    orient kinds (patch.redrawn chosen) = orient kinds patch := rfl

end Inlining

/-! ## All links -/

/-- Runs that differ in the wording of their failures at most. -/
def Likeness.sameResult : Likeness :=
  .same Failure.SameKind id Failure.SameKind.refl (fun _ _ _ => Eq.trans) fun _ _ _ _ => rfl

theorem Link.id_redrawn (chosen : Link → Bool) (link : Link) :
    (link.redrawn chosen).id = link.id := by
  unfold redrawn
  split
  · rfl
  · rfl

theorem Patch.sortedLinks_redrawn (chosen : Link → Bool) (patch : Patch) :
    (patch.redrawn chosen).sortedLinks =
      patch.sortedLinks.map (List.map (Link.redrawn chosen)) := by
  have hlinks : (patch.redrawn chosen).links = patch.links.map (Link.redrawn chosen) := rfl
  have hfault : ((patch.links.map (Link.redrawn chosen)).findSome? fun link =>
      Link.idFault? link.id) = patch.links.findSome? fun link => Link.idFault? link.id := by
    simp only [List.findSome?_map, Function.comp_def, Link.id_redrawn]
  unfold Patch.sortedLinks Link.sortById
  rw [hlinks, hfault]
  cases patch.links.findSome? fun link => Link.idFault? link.id with
  | some fault => rfl
  | none =>
    refine congrArg Except.ok (List.map_mergeSort fun a _ b _ => ?_).symm
    rw [Link.id_redrawn, Link.id_redrawn]

namespace Inlining

variable {closure : Closure} {patch : Patch}

/-- Every selected link of the patch has an end on a type whose pins are known. -/
def Redrawable (kinds : Kinds) (patch : Patch) (chosen : Link → Bool) : Prop :=
  ∀ link ∈ patch.links, chosen link = true →
    ∃ e ∈ link.ends, ∃ node ∈ patch.nodes, node.id = e.node ∧ Signed kinds node.type

theorem placedEdge_redrawn (hs : closure.Sound) (hp : patch ∈ closure.patches)
    {chosen : Link → Bool} (hchosen : Redrawable closure.kinds patch chosen) (places : Places)
    {link : Link} (hlink : link ∈ patch.links) :
    Agree Failure.SameKind Eq (placedEdge closure.kinds patch places link)
      (placedEdge closure.kinds (patch.redrawn chosen) places (link.redrawn chosen)) := by
  have horient : Agree Failure.SameKind Eq (orient closure.kinds patch link)
      (orient closure.kinds (patch.redrawn chosen) (link.redrawn chosen)) := by
    rw [orient_redrawn, Link.redrawn]
    split
    · next h => exact orient_swap hs hp hlink (hchosen link hlink h)
    · exact Agree.same Failure.SameKind.refl
  refine horient.bind fun edge edge' h => ?_
  subst h
  exact Agree.same Failure.SameKind.refl

/-- A patch of which some links are drawn the other way round has the same edges. -/
theorem linkEdges_redrawn (hs : closure.Sound) (hp : patch ∈ closure.patches)
    {chosen : Link → Bool} (hchosen : Redrawable closure.kinds patch chosen) (places : Places) :
    Agree Failure.SameKind Eq (linkEdges closure.kinds patch places)
      (linkEdges closure.kinds (patch.redrawn chosen) places) := by
  unfold linkEdges
  rw [Patch.sortedLinks_redrawn]
  rcases sortedLinks_cases patch with ⟨fault, hsort, _⟩ | ⟨links, hsort, hperm, _⟩
  · rw [hsort]
    exact .error rfl
  rw [hsort]
  dsimp only [Except.map]
  have hlinks : List.Forall₂ (fun link link' => link ∈ patch.links ∧ link' = link.redrawn chosen)
      links (links.map (Link.redrawn chosen)) :=
    List.forall₂_map_right_iff.mpr
      (List.forall₂_same.mpr fun link h => ⟨hperm.mem_iff.mp h, rfl⟩)
  refine (Matched.mapM hlinks fun link link' hlink => ?_).imp (fun _ _ => id)
    fun _ _ hedges => List.forall₂_eq_eq_eq ▸ hedges
  obtain ⟨hmem, rfl⟩ := hlink
  exact placedEdge_redrawn hs hp hchosen places hmem

end Inlining

/-! ## Whole projects -/

namespace Closure

variable {project : Project} {selected : String → Link → Bool} {closure : Closure}

/-- A closure of which some links are drawn the other way round is flattened alike. -/
theorem like_redrawn (hs : closure.Sound)
    (hchosen : ∀ patch ∈ closure.patches,
      Inlining.Redrawable closure.kinds patch (selected patch.path)) :
    Like Likeness.sameResult closure (closure.redrawn selected) := by
  have hkinds : closure.kinds.Like .sameResult closure.kinds := by
    intro type
    refine (Agree.same Failure.SameKind.refl).imp (fun _ _ => id) fun kind _ hkind => ?_
    subst hkind
    cases kind with
    | subPatch path => exact .subPatch path
    | primitive p => exact .primitive (.refl p)
  have hpatch : ∀ patch ∈ closure.patches, Patch.Like .sameResult closure.kinds closure.kinds patch
      (patch.redrawn (selected patch.path)) := fun patch hp =>
    .of_shuffled rfl (.of_perm (fun node _ => ⟨rfl, rfl, rfl, rfl⟩) (.refl _))
      (hs.patch_sound _ hp).ids_nodup (Inlining.linkEdges_redrawn hs hp (hchosen patch hp))
  have hpatches : List.Forall₂ (Patch.Like .sameResult closure.kinds closure.kinds) closure.patches
      (closure.redrawn selected).patches := by
    rw [redrawn, List.forall₂_map_right_iff, List.forall₂_same]
    exact hpatch
  refine ⟨hkinds, hpatch _ hs.entry_mem, hpatches.length_eq, fun path => ?_⟩
  exact (patch_agree hpatches (fun _ _ hp => hp.path_eq) path).imp
    (fun f _ heq => heq ▸ Failure.SameKind.refl f) fun _ _ => id

/-- The flat graph of a closure of which some links are drawn the other way round. -/
theorem flatten_redrawn (hs : closure.Sound)
    (hchosen : ∀ patch ∈ closure.patches,
      Inlining.Redrawable closure.kinds patch (selected patch.path)) :
    Agree Failure.SameKind Eq closure.flatten (closure.redrawn selected).flatten := by
  refine (like_redrawn hs hchosen).flatten.imp (fun _ _ => id) fun graph other h => ?_
  have hnodes : graph.nodes.map (FlatNode.renamed id) = graph.nodes := List.map_id _
  rw [h.eq_renamed, FlatGraph.renamed, hnodes]

/-- What tells the direction of a link in a project tells it in the closure. -/
theorem signed_of_known {entryPath : String} {strict : Bool}
    (hc : ofEntry project entryPath strict = .ok closure) {patch : Patch}
    (hp : patch ∈ closure.patches) {node : Node} (hn : node ∈ patch.nodes)
    (h : project.isUnknown node.type = false) : Inlining.Signed closure.kinds node.type := by
  obtain ⟨order, hw⟩ := walked_of_ofEntry hc
  have hkind := hw.kind_eq_ok_iff.mpr ⟨⟨patch, hp, node, hn, rfl⟩, rfl⟩
  unfold Project.kindOf at hkind
  split at hkind
  · exact .inl ⟨_, hkind⟩
  · next hpatch =>
    refine .inr ⟨_, hkind, ?_⟩
    simpa [Project.isUnknown, hpatch, Primitive.isUnknown] using h

end Closure

/-- The closures of an entry in a project and in one with links that are drawn the other way
round. -/
theorem Request.closure_redrawn {document : Value} {project : Project}
    (hp : Document.project document = .ok project) {selected : String → Link → Bool}
    (hselected : ∀ patch ∈ project.patches, ∀ link ∈ patch.links,
      selected patch.path link = true → project.Tells patch link) (strict : Bool) (entry : Value) :
    Agree Failure.SameKind
      (fun closure other => closure.Sound ∧ other = closure.redrawn selected ∧
        ∀ patch ∈ closure.patches,
          Inlining.Redrawable closure.kinds patch (selected patch.path))
      (closure project strict entry) (closure (project.redrawn selected) strict entry) := by
  unfold closure
  cases Label.ofValue entry with
  | error fault => exact .error rfl
  | ok label =>
    cases label with
    | text path =>
      dsimp only
      rw [Closure.ofEntry_redrawn]
      cases hc : Closure.ofEntry project path strict with
      | error failure => exact .error rfl
      | ok closure =>
        refine .ok ⟨Closure.sound_of_ofEntry hp hc, rfl, fun patch hpatch link hlink hchosen => ?_⟩
        obtain ⟨order, hw⟩ := Closure.walked_of_ofEntry hc
        have hmem := (Closure.path_of_patch? (hw.mem_patches_iff.mp hpatch).2).1
        obtain ⟨e, he, node, hn, hid, hknown⟩ := hselected patch hmem link hlink hchosen
        exact ⟨e, he, node, hn, hid, Closure.signed_of_known hc hpatch hn hknown⟩
    | _ => exact .error rfl

namespace Probe

def graph : FlatGraph :=
  ⟨[⟨1, "source", [], 1, "1"⟩, ⟨2, "probe", [], 1, "2"⟩], [⟨1, "out", 2, "in"⟩]⟩

def bound : List BoundNode :=
  [⟨1, "source", false, [], [("out", [⟨2, "in"⟩])], []⟩,
    ⟨2, "probe", false, [(.text "in", "any")], [], []⟩]

theorem collectTemplates_bound :
    collectTemplates (closure "in" (.named "in")).kinds bound [] = .ok [] := by
  have hle : Text.le "source" "probe" = false := by cbv
  have htypes : ascendingTexts (bound.map BoundNode.type) = ["probe", "source"] := by
    simp [ascendingTexts, bound, List.eraseDups_cons, List.mergeSort,
      List.MergeSort.Internal.splitInTwo, hle]
  rw [collectTemplates, htypes]
  cbv

theorem compile_project :
    ∃ unit, (Annex.request "@/main").compile [] (project "in" (.named "in")) = .ok unit := by
  have hflatten : (closure "in" (.named "in")).flatten = .ok graph := by cbv
  have hbound : (Typing.start (closure "in" (.named "in")).kinds graph).bindAll =
    .ok (.start (closure "in" (.named "in")).kinds graph, bound) := by cbv
  obtain ⟨unit, hassemble⟩ : ∃ unit,
      Request.assemble .debug (.obj []) [] (closure "in" (.named "in")).kinds graph = .ok unit := by
    unfold Request.assemble
    rw [hbound]
    exact ⟨_, bind_eq_ok.mpr ⟨bound, rfl, bind_eq_ok.mpr ⟨[1, 2], by cbv,
      bind_eq_ok.mpr ⟨[], by cbv, bind_eq_ok.mpr ⟨[], collectTemplates_bound, rfl⟩⟩⟩⟩⟩
  exact ⟨unit, bind_eq_ok.mpr ⟨.debug, by cbv, bind_eq_ok.mpr ⟨_, by cbv,
    bind_eq_ok.mpr ⟨graph, hflatten, hassemble⟩⟩⟩⟩

end Probe

/-- Which end of a link is drawn first does not matter, where an end of it tells its direction: in
a project in which any number of such links are drawn the other way round, an entry compiles to the
same unit, or fails for a failure of the same kind. -/
theorem Request.compile_redrawn {document : Value} {project : Project}
    (hp : Document.project document = .ok project) {selected : String → Link → Bool}
    (hselected : ∀ patch ∈ project.patches, ∀ link ∈ patch.links,
      selected patch.path link = true → project.Tells patch link)
    (request : Request) (backends : List Value) :
    (∃ unit, request.compile backends project = .ok unit ∧
      request.compile backends (project.redrawn selected) = .ok unit) ∨
    ∃ failure other, request.compile backends project = .error failure ∧
      request.compile backends (project.redrawn selected) = .error other ∧
      failure.kind = other.kind := by
  have hcompile : Agree Failure.SameKind Eq (request.compile backends project)
      (request.compile backends (project.redrawn selected)) := by
    unfold compile
    refine (Agree.same Failure.SameKind.refl).bind fun mode _ hmode => ?_
    subst hmode
    refine (closure_redrawn hp hselected request.strict request.entry).bind
      fun closure other h => ?_
    obtain ⟨hs, rfl, hredrawable⟩ := h
    refine (Closure.flatten_redrawn hs hredrawable).bind fun graph _ hgraph => ?_
    subst hgraph
    exact Agree.same Failure.SameKind.refl
  generalize request.compile backends project = left at hcompile ⊢
  generalize request.compile backends (project.redrawn selected) = right at hcompile ⊢
  cases hcompile with
  | ok h => exact .inl ⟨_, rfl, by rw [h]⟩
  | error h => exact .inr ⟨_, _, rfl, rfl, h⟩

theorem Request.compile_redrawn_probe :
    Document.project (Probe.document "in") = .ok (Probe.project "in" (.named "in")) ∧
    (∀ patch ∈ (Probe.project "in" (.named "in")).patches, ∀ link ∈ patch.links,
      (Probe.project "in" (.named "in")).Tells patch link) ∧
    ∃ unit, (Annex.request "@/main").compile [] (Probe.project "in" (.named "in")) = .ok unit ∧
      (Annex.request "@/main").compile []
        ((Probe.project "in" (.named "in")).redrawn fun _ _ => true) = .ok unit := by
  have hp : Document.project (Probe.document "in") = .ok (Probe.project "in" (.named "in")) := by
    cbv
  have htells : ∀ patch ∈ (Probe.project "in" (.named "in")).patches, ∀ link ∈ patch.links,
      (Probe.project "in" (.named "in")).Tells patch link := by
    intro patch hpatch link hlink
    obtain rfl := List.mem_singleton.mp hpatch
    obtain rfl := List.mem_singleton.mp hlink
    exact ⟨_, Link.first_mem_ends _, _, List.mem_cons_self, rfl, by decide⟩
  refine ⟨hp, htells, ?_⟩
  rcases compile_redrawn hp (fun patch hpatch link hlink _ => htells patch hpatch link hlink)
    (Annex.request "@/main") [] with hsame | ⟨failure, _, hfail, _⟩
  · exact hsame
  · obtain ⟨unit, hunit⟩ := Probe.compile_project
    exact absurd (hunit.symm.trans hfail) (by simp)

end Patchbay
