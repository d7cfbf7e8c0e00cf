import Patchbay.Proofs.Flat.Passes

/-!
# An instance replaced

What one inlining step makes of a graph under construction, whatever the steps before it: with a
graph that is sound it comes to one that is sound again. The instance is gone, the nodes of its
patch stand under the next ids, and of the edges there were only the ends on the instance have moved
(`inline_replaces`). The step is refused for the structure of the project, or for a numeral that
nobody reads.
-/

namespace Patchbay

namespace Inlining

/-- What a step makes of a graph when it replaces an instance by the nodes and links of its
patch. -/
structure Replaces (closure : Closure) (c : Inlining) (owner : FlatNode) (patch : Patch)
    (c' : Inlining) : Prop where
  gone : ∀ flat ∈ c'.nodes, flat.id ≠ owner.id
  /-- The other nodes stay as they are, and the nodes of the patch follow, by ascending local id,
  under the ids after the greatest one. -/
  nodes_eq : ∃ locals, locals.Perm patch.nodes ∧ locals.Pairwise (fun m n => m.id < n.id) ∧
    c'.nodes = c.nodes.filter (·.id ≠ owner.id) ++
      (numbered (c.maxId + 1) locals).map (copyOf owner.properties.sorted owner.debugId)
  maxId_eq : c'.maxId = c.maxId + patch.nodes.length
  /-- The edges keep their ends, except for those on the instance, and one edge for each link of the
  patch follows. -/
  edges_eq : ∃ moved added links, c'.edges = moved ++ added ∧
    List.Forall₂ (Spliced closure patch (c.newPlaces patch) owner.id) c.edges moved ∧
    links.Perm patch.links ∧ List.Forall₂ (Placed closure patch (c.newPlaces patch)) links added

/-- A numeral among the keys of the instance or the link ids of its patch has too many digits. -/
def Overlong (owner : FlatNode) (patch : Patch) : Prop :=
  (∃ literal ∈ owner.properties, Document.keyFault? literal.1 ≠ none) ∨
    ∃ link ∈ patch.links, Link.idFault? link.id ≠ none

variable {closure : Closure} {patch : Patch} {c c' : Inlining} {owner : FlatNode}

theorem Inlined.replaces (h : Inlined closure c owner patch c') (hp : patch.Sound)
    (hsound : Sound closure c) (howner : owner ∈ c.nodes) :
    Replaces closure c owner patch c' where
  gone flat hflat := by
    rcases h.mem_nodes_iff.mp hflat with ⟨_, hne⟩ | ⟨i, node, hnum, rfl⟩
    · exact hne
    · have := hsound.id_le owner howner
      have := le_of_numbered hnum
      show i ≠ owner.id
      omega
  nodes_eq := ⟨patch.sortedNodes, List.mergeSort_perm _ _, pairwise_sortedNodes hp, h.nodes_eq⟩
  maxId_eq := h.maxId_eq
  edges_eq := h.edges_eq

/-- A refusal is about the structure of the project, or about a numeral with too many digits. -/
theorem Refused.invalid_or_overlong {failure : Failure}
    (h : Refused closure c owner patch failure) :
    failure.kind = .invalidProjectFormat ∨
      (∃ count, failure = .fault (.tooManyDigits count)) ∧ Overlong owner patch := by
  cases h with
  | stray hinvalid _ => exact .inl hinvalid
  | loose hinvalid _ => exact .inl hinvalid
  | badLink hinvalid _ => exact .inl hinvalid
  | unreadKey hunread hkey => exact .inr ⟨hunread, .inl hkey⟩
  | unreadLink hunread hlink => exact .inr ⟨hunread, .inr hlink⟩

/-- One inlining step, on any sound graph: it is refused for the structure of the project or for a
numeral with too many digits, or else replaces the instance and leaves the graph sound. -/
theorem inline_replaces {document : Value} {project : Project} {entryPath : String} {strict : Bool}
    (hp : Document.project document = .ok project)
    (hc : Closure.ofEntry project entryPath strict = .ok closure) (hsound : Sound closure c)
    (howner : owner ∈ c.nodes) (hpatch : closure.Instantiates owner.type patch) :
    (∃ stopped, c.inline owner.id = .error stopped ∧
      (stopped.failure.kind = .invalidProjectFormat ∨
        (∃ count, stopped.failure = .fault (.tooManyDigits count)) ∧ Overlong owner patch)) ∨
    ∃ c', c.inline owner.id = .ok c' ∧ Sound closure c' ∧ Replaces closure c owner patch c' := by
  have hs := Closure.sound_of_ofEntry hp hc
  rcases inline_cases hs hsound howner hpatch with
    ⟨stopped, hstop, hrefused⟩ | ⟨c', hok, hinlined⟩
  · exact .inl ⟨stopped, hstop, hrefused.invalid_or_overlong⟩
  · exact .inr ⟨c', hok, hinlined.sound hs hpatch.1 hsound,
      hinlined.replaces (hs.patch_sound _ hpatch.1) hsound howner⟩

end Inlining

open Inlining

namespace Lamp

/-- The graph of the lamp before the first pass. -/
def begun : Inlining :=
  { entered (closure "input_41") with
    edges := [⟨⟨1, .boundary .output 43⟩, ⟨2, .named "brightness"⟩⟩] }

/-- The instance of the lamp in it. -/
def instanceNode : FlatNode := ⟨1, "@/lamp", [("input_41", .bool true)], 1, "1"⟩

theorem sound_begun : Sound (closure "input_41") begun := by
  have hs := Closure.sound_of_ofEntry (project_document "input_41") (ofEntry_project "input_41")
  have henter : (entered (closure "input_41")).addLinks (main "input_41")
      (ownPlaces (main "input_41")) = .ok begun := by
    cbv
  obtain ⟨_, hk⟩ := (leveled_enter hs henter).counted
  exact hk.unfolds.sound

end Lamp

/-- The lamp gives way to its three nodes, which take the ids from 3 on. -/
theorem inline_replaces_lamp :
    Document.project (Lamp.document "input_41") = .ok (Lamp.project "input_41") ∧
    Closure.ofEntry (Lamp.project "input_41") "@/main" false = .ok (Lamp.closure "input_41") ∧
    Sound (Lamp.closure "input_41") Lamp.begun ∧ Lamp.instanceNode ∈ Lamp.begun.nodes ∧
    (Lamp.closure "input_41").Instantiates Lamp.instanceNode.type Lamp.lamp ∧
    ∃ c', Lamp.begun.inline 1 = .ok c' ∧ c'.nodes.map FlatNode.id = [2, 3, 4, 5] ∧
      Sound (Lamp.closure "input_41") c' ∧
      Replaces (Lamp.closure "input_41") Lamp.begun Lamp.instanceNode Lamp.lamp c' := by
  have hp := Lamp.project_document "input_41"
  have hc := Lamp.ofEntry_project "input_41"
  have howner : Lamp.instanceNode ∈ Lamp.begun.nodes := by
    rw [show Lamp.begun.nodes = [Lamp.instanceNode, ⟨2, "led", [], 1, "2"⟩] by cbv]
    exact List.mem_cons_self
  have hpatch : (Lamp.closure "input_41").Instantiates Lamp.instanceNode.type Lamp.lamp :=
    ⟨by simp [Lamp.closure], rfl⟩
  obtain ⟨c, hok, hids⟩ : ∃ c, Lamp.begun.inline 1 = .ok c ∧
      c.nodes.map FlatNode.id = [2, 3, 4, 5] := ⟨_, by cbv, rfl⟩
  rcases inline_replaces hp hc Lamp.sound_begun howner hpatch with
    ⟨stopped, hstop, _⟩ | ⟨c', hok', hsound, hreplaces⟩
  · exact absurd (hstop.symm.trans hok) (by simp)
  · obtain rfl := Except.ok.inj (hok'.symm.trans hok)
    exact ⟨hp, hc, Lamp.sound_begun, howner, hpatch, c', hok, hids, hsound, hreplaces⟩

namespace Loop

/-- The graph of the entry before the first pass. -/
def begun (id : String) : Inlining := entered (nestedClosure id)

/-- The instance in it. -/
def instanceNode : FlatNode := ⟨1, "@/loop", [], 1, "1"⟩

theorem nodes_begun (id : String) : (begun id).nodes = [instanceNode] := by
  cbv

theorem sound_begun (id : String) : Sound (nestedClosure id) (begun id) := by
  have hs := Closure.sound_of_ofEntry (project_nestedDocument id) (ofEntry_nestedProject id)
  obtain ⟨_, hk⟩ := (leveled_enter hs (addLinks_main id)).counted
  exact hk.unfolds.sound

end Loop

/-- On a sound graph the step is stopped, and not for the structure of the project, where the patch
has a link id that is a numeral with too many digits. -/
theorem inline_replaces_longId :
    Document.project (Loop.nestedDocument Loop.longId) = .ok (Loop.nestedProject Loop.longId) ∧
    Closure.ofEntry (Loop.nestedProject Loop.longId) "@/main" false =
      .ok (Loop.nestedClosure Loop.longId) ∧
    Sound (Loop.nestedClosure Loop.longId) (Loop.begun Loop.longId) ∧
    Loop.instanceNode ∈ (Loop.begun Loop.longId).nodes ∧
    (Loop.nestedClosure Loop.longId).Instantiates Loop.instanceNode.type
      (Loop.inner Loop.longId) ∧
    ∃ stopped, (Loop.begun Loop.longId).inline 1 = .error stopped ∧
      stopped.failure.kind ≠ .invalidProjectFormat := by
  have hp := Loop.project_nestedDocument Loop.longId
  have hc := Loop.ofEntry_nestedProject Loop.longId
  have hs := Closure.sound_of_ofEntry hp hc
  have hsound := Loop.sound_begun Loop.longId
  have howner : Loop.instanceNode ∈ (Loop.begun Loop.longId).nodes := by
    rw [Loop.nodes_begun]
    exact List.mem_cons_self
  have hpatch : (Loop.nestedClosure Loop.longId).Instantiates Loop.instanceNode.type
      (Loop.inner Loop.longId) := ⟨List.mem_cons_self, rfl⟩
  refine ⟨hp, hc, hsound, howner, hpatch, ?_⟩
  rcases inline_cases hs hsound howner hpatch with ⟨stopped, hstop, hrefused⟩ | ⟨c', _, hinlined⟩
  · refine ⟨stopped, hstop, ?_⟩
    cases hrefused with
    | stray _ h =>
      obtain ⟨_, hmem, _⟩ := h
      exact absurd hmem List.not_mem_nil
    | unreadKey _ h =>
      obtain ⟨_, hmem, _⟩ := h
      exact absurd hmem List.not_mem_nil
    | loose _ h =>
      obtain ⟨_, hmem, _⟩ := h
      exact absurd hmem List.not_mem_nil
    | badLink _ h =>
      exact absurd ⟨_, hpatch.1, .inl h⟩ (Loop.not_illFormed_nested Loop.longId)
    | unreadLink hunread _ =>
      obtain ⟨count, hcount⟩ := hunread
      rw [hcount]
      simp [Failure.kind]
  · exact absurd (hinlined.good _ (List.mem_singleton_self _)).2 Loop.idFault?_longId

end Patchbay
