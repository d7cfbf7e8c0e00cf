import Mathlib
import Patchbay.Compilation
import Patchbay.Proofs.Graph.Locality
import Patchbay.Proofs.Project.Closure

/-!
# What a compilation depends on

A project is read from an entry patch only as far as instances lead (`Project.Reaches`). Two
projects that hold the same patches there, and tell the same about the types of their nodes
(`Project.AgreesFrom`), have the same closure (`ofEntry_eq_of_agrees`), and so they compile to the
same unit or fail in the same way (`compile_eq_of_agrees`). Other patches, be they ill-formed or
nested in a circle, and other declarations have no influence.
-/

namespace Patchbay

namespace Project

/-- The patch of one path instantiates the patch of another. -/
def Nests (project : Project) (path inner : String) : Prop :=
  ∃ patch, project.patch? path = some patch ∧ (∃ node ∈ patch.nodes, node.type = inner) ∧
    project.isPatch inner = true

/-- Instances lead from the entry to the path, in any number of steps. -/
def Reaches (project : Project) (entry path : String) : Prop :=
  Relation.ReflTransGen project.Nests entry path

/-- The type is that of a node which stands in a patch that the entry reaches. -/
def Uses (project : Project) (entry type : String) : Prop :=
  ∃ path patch, project.Reaches entry path ∧ project.patch? path = some patch ∧
    ∃ node ∈ patch.nodes, node.type = type

/-- Another project agrees with a project about all that an entry reaches. -/
structure AgreesFrom (project other : Project) (entry : String) : Prop where
  patch?_eq : ∀ path, project.Reaches entry path → other.patch? path = project.patch? path
  isPatch_eq : ∀ type, project.Uses entry type → other.isPatch type = project.isPatch type
  type?_eq : ∀ type, project.Uses entry type → project.isPatch type = false →
    other.catalog.type? type = project.catalog.type? type

namespace AgreesFrom

variable {project other : Project} {entry type : String} (h : project.AgreesFrom other entry)
include h

theorem kindOf_eq (huses : project.Uses entry type) : other.kindOf type = project.kindOf type := by
  unfold kindOf primitive
  rw [h.isPatch_eq type huses]
  split
  · rfl
  · next hpatch => rw [h.type?_eq type huses (by simpa using hpatch)]

theorem isUnknown_eq (huses : project.Uses entry type) :
    other.isUnknown type = project.isUnknown type := by
  unfold isUnknown primitive
  rw [h.isPatch_eq type huses]
  cases hpatch : project.isPatch type with
  | true => rfl
  | false => rw [h.type?_eq type huses hpatch]

theorem instantiated_eq (strict : Bool) {patch : Patch}
    (huses : ∀ node ∈ patch.nodes, project.Uses entry node.type) :
    other.instantiated strict patch = project.instantiated strict patch := by
  have htypes : ∀ type ∈ patch.nodes.map Node.type, project.Uses entry type := by
    intro type htype
    obtain ⟨node, hnode, rfl⟩ := List.mem_map.mp htype
    exact huses node hnode
  unfold instantiated
  rw [List.find?_congr fun type htype => by rw [h.isUnknown_eq (htypes type htype)],
    List.filter_congr fun type htype => h.isPatch_eq type (htypes type htype)]

end AgreesFrom

end Project

namespace Closure

variable {project other : Project} {entry : String} {strict : Bool}

/-- The walk through a project goes from patches to those that they instantiate. -/
theorem nests_of_leads {path inner : String}
    (h : DepthFirst.Leads (nestedPaths project strict) path inner) : project.Nests path inner := by
  obtain ⟨next, hnext, hmem⟩ := h
  unfold nestedPaths at hnext
  split at hnext
  · obtain rfl := Except.ok.inj hnext
    exact absurd hmem List.not_mem_nil
  · next patch hpatch =>
    obtain ⟨hnode, hinner⟩ := (mem_of_instantiated hnext).mp hmem
    exact ⟨patch, hpatch, hnode, hinner⟩

/-- The walk through a project stays among what the entry reaches. -/
theorem reaches_of_walk {path : String}
    (h : DepthFirst.Reaches (nestedPaths project strict) [entry] path) :
    project.Reaches entry path := by
  obtain ⟨root, hroot, hwalk⟩ := h
  obtain rfl := List.mem_singleton.mp hroot
  exact Relation.ReflTransGen.mono (fun _ _ => nests_of_leads) _ _ hwalk

theorem nestedPaths_eq_of_agrees (strict : Bool) (h : project.AgreesFrom other entry)
    {path : String} (hpath : project.Reaches entry path) :
    nestedPaths other strict path = nestedPaths project strict path := by
  unfold nestedPaths
  rw [h.patch?_eq path hpath]
  cases hpatch : project.patch? path with
  | none => rfl
  | some patch =>
    exact h.instantiated_eq strict fun node hnode => ⟨path, patch, hpath, hpatch, node, hnode, rfl⟩

theorem ofEntry_eq : ofEntry project entry strict =
    match project.patch? entry with
    | none => .error (.noPatch (.str entry))
    | some patch =>
      match DepthFirst.postorder (project.patches.map Patch.path) (nestedPaths project strict)
          [entry] with
      | .error (.cycle path) => .error (.nestingCycle path)
      | .error (.refused failure) => .error failure
      | .ok order =>
        .ok ⟨patch, order.filterMap project.patch?,
          (typesOf (order.filterMap project.patch?)).map fun type =>
            (type, project.kindOf type)⟩ := rfl

/-- The patches that a walk lists, and the kinds of the types in them, are the same in a project
that agrees. -/
theorem listed_eq_of_agrees (h : project.AgreesFrom other entry) {order : List String}
    (horder : ∀ path ∈ order, project.Reaches entry path) :
    order.filterMap other.patch? = order.filterMap project.patch? ∧
      ∀ type ∈ typesOf (order.filterMap project.patch?),
        other.kindOf type = project.kindOf type := by
  refine ⟨List.filterMap_congr fun path hpath => h.patch?_eq path (horder path hpath), ?_⟩
  intro type htype
  rw [typesOf, List.mem_eraseDups] at htype
  obtain ⟨patch, hpatch, htype⟩ := List.mem_flatMap.mp htype
  obtain ⟨path, hpath, hfound⟩ := List.mem_filterMap.mp hpatch
  obtain ⟨node, hnode, rfl⟩ := List.mem_map.mp htype
  exact h.kindOf_eq ⟨path, patch, horder path hpath, hfound, node, hnode, rfl⟩

/-- The closure of an entry depends on what the entry reaches only. -/
theorem ofEntry_eq_of_agrees (hn : (project.patches.map Patch.path).Nodup)
    (hn' : (other.patches.map Patch.path).Nodup) (h : project.AgreesFrom other entry) :
    ofEntry other entry strict = ofEntry project entry strict := by
  have hmem : ∀ path, DepthFirst.Reaches (nestedPaths project strict) [entry] path →
      (path ∈ project.patches.map Patch.path ↔ path ∈ other.patches.map Patch.path) := by
    intro path hpath
    rw [← isPatch_iff_mem, ← isPatch_iff_mem, Project.isPatch, Project.isPatch,
      h.patch?_eq path (reaches_of_walk hpath)]
  have hwalk : DepthFirst.postorder (other.patches.map Patch.path) (nestedPaths other strict)
      [entry] = DepthFirst.postorder (project.patches.map Patch.path) (nestedPaths project strict)
        [entry] := by
    have hagree := DepthFirst.postorder_agree [entry] (fun path hpath => Agree.of_eq
      (nestedPaths_eq_of_agrees strict h (reaches_of_walk hpath)).symm) hn hn' hmem
    refine (Agree.eq (hagree.imp ?_ fun _ _ => id)).symm
    rintro _ _ (path | rfl)
    · rfl
    · rfl
  rw [ofEntry_eq, ofEntry_eq, h.patch?_eq entry .refl, hwalk]
  cases hentry : project.patch? entry with
  | none => rfl
  | some patch =>
    cases horder : DepthFirst.postorder (project.patches.map Patch.path)
        (nestedPaths project strict) [entry] with
    | error interrupt => cases interrupt <;> rfl
    | ok order =>
      obtain ⟨hpatches, hkinds⟩ := listed_eq_of_agrees h fun path hpath =>
        reaches_of_walk (DepthFirst.reaches_of_postorder horder hpath)
      dsimp only
      rw [hpatches, List.map_congr_left fun type htype => by rw [hkinds type htype]]

end Closure

/-! ## A project with more in it -/

namespace Annex

def main : Patch := ⟨"@/main", none, [⟨1, "@/part", [], 1⟩], []⟩

def part : Patch := ⟨"@/part", none, [⟨7, "led", [("color", .int 3)], 1⟩], []⟩

/-- A patch that instantiates itself, with a link off the boundary of the instance. -/
def loop : Patch :=
  ⟨"@/loop", none, [⟨1, "@/loop", [], 1⟩], [⟨"1", ⟨1, .named "in"⟩, ⟨1, .named "out"⟩⟩]⟩

def declared (id : String) (pins : List (String × Pin)) : NodeType :=
  ⟨id, pins, true, false, [("js", "")]⟩

/-- The declaration of the one type that is in use and no patch. -/
def led : NodeType := declared "led" [("color", ⟨.str "color", .input, "number", none, false⟩)]

/-- A patch inside another. -/
def project : Project := ⟨"", [main, part], [led]⟩

/-- The same with a patch that nothing leads to, a declaration of a type that no node has, and one
of a type that is a patch. -/
def wider : Project :=
  ⟨"annex", [loop, part, main], [declared "spare" [], declared "@/part" [], led]⟩

def request (entry : String) : Request := ⟨.str entry, .str "debug", .obj [], true⟩

theorem mem_of_reaches {path : String} (h : project.Reaches "@/main" path) :
    path ∈ ["@/main", "@/part"] := by
  rcases h.cases_tail with rfl | ⟨_, _, _, _, _, hpatch⟩
  · exact List.mem_cons_self
  · exact Closure.isPatch_iff_mem.mp hpatch

theorem type_of_uses {type : String} (h : project.Uses "@/main" type) :
    type = "@/part" ∨ type = "led" := by
  obtain ⟨path, patch, _, hpatch, node, hnode, rfl⟩ := h
  obtain ⟨hmem, _⟩ := Closure.path_of_patch? hpatch
  simp only [project, List.mem_cons, List.not_mem_nil, or_false] at hmem
  rcases hmem with rfl | rfl
  · exact .inl (by rw [List.mem_singleton.mp hnode])
  · exact .inr (by rw [List.mem_singleton.mp hnode])

theorem agreesFrom_wider : project.AgreesFrom wider "@/main" where
  patch?_eq path h := by
    have hmem := mem_of_reaches h
    simp only [List.mem_cons, List.not_mem_nil, or_false] at hmem
    rcases hmem with rfl | rfl
    · rfl
    · rfl
  isPatch_eq type h := by
    rcases type_of_uses h with rfl | rfl
    · rfl
    · rfl
  type?_eq type h hpatch := by
    rcases type_of_uses h with rfl | rfl
    · exact absurd hpatch (by decide)
    · rfl

end Annex

/-- Compilation depends only on what the entry reaches: of two projects, each with every path once,
that hold the same patches there, tell the same of their types for patches, and declare the others
in the same way, the entry becomes the same unit, or fails with the same failure. -/
theorem Request.compile_eq_of_agrees {project other : Project} {request : Request} {entry : String}
    (hn : (project.patches.map Patch.path).Nodup) (hn' : (other.patches.map Patch.path).Nodup)
    (hentry : request.entry = .str entry) (h : project.AgreesFrom other entry)
    (backends : List Value) : request.compile backends other = request.compile backends project := by
  have hclosure : closure other request.strict request.entry =
      closure project request.strict request.entry := by
    rw [hentry]
    exact Closure.ofEntry_eq_of_agrees hn hn' h
  unfold compile
  rw [hclosure]

theorem Request.compile_eq_of_agrees_annex :
    (Annex.project.patches.map Patch.path).Nodup ∧ (Annex.wider.patches.map Patch.path).Nodup ∧
    Annex.project.AgreesFrom Annex.wider "@/main" ∧
    (Annex.request "@/main").compile [.str "js"] Annex.wider =
      (Annex.request "@/main").compile [.str "js"] Annex.project ∧
    (∃ unit, (Annex.request "@/main").compile [.str "js"] Annex.wider = .ok unit) ∧
    ∃ cycle, (Annex.request "@/loop").compile [.str "js"] Annex.wider =
      .error (.nestingCycle cycle) := by
  have hn : (Annex.project.patches.map Patch.path).Nodup := by decide
  have hn' : (Annex.wider.patches.map Patch.path).Nodup := by decide
  have heq : (Annex.request "@/main").compile [.str "js"] Annex.wider =
      (Annex.request "@/main").compile [.str "js"] Annex.project :=
    compile_eq_of_agrees hn hn' rfl Annex.agreesFrom_wider [.str "js"]
  refine ⟨hn, hn', Annex.agreesFrom_wider, heq, ?_, ⟨_, by cbv⟩⟩
  rw [heq]
  exact ⟨_, by cbv⟩

end Patchbay
