import Patchbay.Proofs.Flat.Likeness
import Patchbay.Proofs.Project.Renaming

/-!
# Inlining under other names

The names of patches decide nothing in the inlining but what an instance stands for. Two closures
that answer alike to the old and the new names are flattened together, to one graph up to the names
of types (`Closure.Renamed.flatten`): ids, debug ids, literal values, arities and links are the same.
-/

namespace Patchbay

/-- Runs that may fail in different ways, on the same but for the names of types. -/
def Likeness.renamed (σ : String → String) : Likeness :=
  .same (fun _ _ => True) σ (fun _ => trivial) (fun _ _ _ _ _ => trivial) fun _ _ _ _ => trivial

variable {σ : String → String}

/-! ## Patches -/

namespace Patch

variable (patch : Patch)

theorem node_like_renamed (node : Node) : Node.Like (.renamed σ) node (node.renamed σ) :=
  ⟨rfl, rfl, rfl, rfl⟩

theorem ids_renamed : (patch.renamed σ).nodes.map Node.id = patch.nodes.map Node.id := by
  show (patch.nodes.map (Node.renamed σ)).map Node.id = _
  rw [List.map_map]
  rfl

theorem sameNodes_renamed : SameNodes (.renamed σ) patch (patch.renamed σ) := by
  intro id
  have hnode : (patch.renamed σ).node? id = (patch.node? id).map (Node.renamed σ) := by
    show (patch.nodes.map (Node.renamed σ)).find? (fun node => node.id = id) = _
    rw [List.find?_map]
    rfl
  rw [hnode]
  cases patch.node? id with
  | none => exact .none
  | some node => exact .some (node_like_renamed node)

theorem sortedNodes_renamed :
    List.Forall₂ (Node.Like (.renamed σ)) patch.sortedNodes (patch.renamed σ).sortedNodes := by
  have hnodes : List.Forall₂ (Node.Like (.renamed σ)) patch.nodes (patch.renamed σ).nodes :=
    List.forall₂_map_right_iff.mpr (List.forall₂_same.mpr fun node _ => node_like_renamed node)
  exact Matched.mergeSort hnodes fun _ _ _ _ ha hb => by rw [ha.id_eq, hb.id_eq]

end Patch

namespace Closure.Renamed

variable {closure other : Closure} (h : Closure.Renamed σ closure other)
include h

theorem kinds_like : closure.kinds.Like (.renamed σ) other.kinds := by
  intro type
  refine (h.kind type).mono fun kind kind' hkind => ?_
  subst hkind
  cases kind with
  | primitive p => exact .primitive (.refl p)
  | subPatch path => exact .subPatch path

theorem linkEdges (patch : Patch) (places : Inlining.Places) :
    Together Eq (Inlining.linkEdges closure.kinds patch places)
      (Inlining.linkEdges other.kinds (patch.renamed σ) places) := by
  have hsorted : (patch.renamed σ).sortedLinks = patch.sortedLinks := rfl
  unfold Inlining.linkEdges
  rw [hsorted]
  cases patch.sortedLinks with
  | error fault => exact .error
  | ok links =>
    have hmatch : List.Forall₂ Eq links links := List.forall₂_same.mpr fun _ _ => rfl
    refine Together.mono (Matched.mapM hmatch fun link link' hlink => ?_)
      fun _ _ hedges => List.forall₂_eq_eq_eq ▸ hedges
    subst hlink
    exact Inlining.placedEdge_like h.kinds_like patch.sameNodes_renamed places rfl rfl

theorem patch_like (patch : Patch) :
    Patch.Like (.renamed σ) closure.kinds other.kinds patch (patch.renamed σ) where
  path_eq := rfl
  ids_perm := patch.ids_renamed ▸ .refl _
  node? := patch.sameNodes_renamed
  sortedNodes := patch.sortedNodes_renamed
  links := h.linkEdges patch

theorem like : Closure.Like (.renamed σ) closure other where
  kinds := h.kinds_like
  entry := h.entry_eq ▸ h.patch_like closure.entry
  length_eq := h.length_eq.symm
  patch path := (h.patch path).mono fun patch _ hpatch => hpatch ▸ h.patch_like patch

/-- The flat graphs of two closures that answer alike to the old and the new names are the same but
for the names of types. -/
theorem flatten :
    Together (fun graph graph' => graph' = graph.renamed σ) closure.flatten other.flatten :=
  h.like.flatten.imp (fun _ _ => id) fun _ _ hgraph => hgraph.eq_renamed

end Closure.Renamed

end Patchbay
