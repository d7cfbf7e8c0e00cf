import Mathlib.Logic.Equiv.Basic
import Patchbay.Proofs.Graph.DepthFirst

/-!
# When a depth-first walk finishes

A walk through a graph finishes exactly if the successors of all that the roots lead to are known and
have a rank that falls along the edges: if there is no circle (`postorder_eq_ok_iff`). Then it lists
all that the roots lead to. Neither says anything about the order of the successors, so two graphs
that differ in that order and in the names of their vertices are walked together
(`postorder_renamed`).
-/

namespace Patchbay.DepthFirst

variable {α ε : Type} {edges : α → Except ε (List α)} {vertices roots : List α}

/-- What the vertices of the graph lead to, and the roots, are vertices. -/
structure Closed (vertices : List α) (edges : α → Except ε (List α)) (roots : List α) : Prop where
  roots : ∀ root ∈ roots, root ∈ vertices
  edges : ∀ v w, Leads edges v w → w ∈ vertices

/-- The successors of all that the roots lead to are known, and of a lower rank. -/
def Ranked (edges : α → Except ε (List α)) (roots : List α) (rank : α → Nat) : Prop :=
  ∀ v, Reaches edges roots v → ∃ next, edges v = .ok next ∧ ∀ w ∈ next, rank w < rank v

/-- A path along which the rank rises, and what is pending on it is reached. -/
structure Rising (edges : α → Except ε (List α)) (roots : List α) (rank : α → Nat)
    (path : List (Frame α)) : Prop where
  pairwise : path.Pairwise fun frame outer => rank frame.vertex < rank outer.vertex
  pending : ∀ frame ∈ path, ∀ w ∈ frame.pending, Reaches edges roots w ∧ rank w < rank frame.vertex

namespace Rising

variable {rank : α → Nat} {path : List (Frame α)} {v w : α} {next pending : List α}

theorem finish (h : Rising edges roots rank (⟨v, []⟩ :: path)) : Rising edges roots rank path where
  pairwise := (List.pairwise_cons.mp h.pairwise).2
  pending frame hframe := h.pending frame (List.mem_cons_of_mem _ hframe)

theorem skip (h : Rising edges roots rank (⟨v, w :: pending⟩ :: path)) :
    Rising edges roots rank (⟨v, pending⟩ :: path) where
  pairwise := by
    obtain ⟨houter, hpath⟩ := List.pairwise_cons.mp h.pairwise
    exact List.pairwise_cons.mpr ⟨houter, hpath⟩
  pending frame hframe u hu := by
    rcases List.mem_cons.mp hframe with rfl | hframe
    · exact h.pending _ List.mem_cons_self u (List.mem_cons_of_mem _ hu)
    · exact h.pending frame (List.mem_cons_of_mem _ hframe) u hu

/-- What is pending on the innermost vertex is not on the path. -/
theorem not_on_path (h : Rising edges roots rank (⟨v, w :: pending⟩ :: path)) :
    w ∉ (⟨v, pending⟩ :: path : List (Frame α)).map Frame.vertex := by
  have hlt : rank w < rank v := (h.pending _ List.mem_cons_self w List.mem_cons_self).2
  intro hmem
  rcases List.mem_cons.mp hmem with rfl | hmem
  · exact absurd hlt (Nat.lt_irrefl _)
  · obtain ⟨outer, houter, rfl⟩ := List.mem_map.mp hmem
    have hrise : rank v < rank outer.vertex := (List.pairwise_cons.mp h.pairwise).1 outer houter
    exact absurd (Nat.lt_trans hlt hrise) (Nat.lt_irrefl _)

theorem push (h : Rising edges roots rank (⟨v, w :: pending⟩ :: path)) (hnext : edges w = .ok next)
    (hrank : ∀ u ∈ next, rank u < rank w) :
    Rising edges roots rank (⟨w, next⟩ :: ⟨v, pending⟩ :: path) where
  pairwise := by
    have hlt : rank w < rank v := (h.pending _ List.mem_cons_self w List.mem_cons_self).2
    refine List.pairwise_cons.mpr ⟨fun outer houter => ?_, h.skip.pairwise⟩
    rcases List.mem_cons.mp houter with rfl | houter
    · exact hlt
    · exact Nat.lt_trans hlt ((List.pairwise_cons.mp h.pairwise).1 outer houter)
  pending frame hframe u hu := by
    rcases List.mem_cons.mp hframe with rfl | hframe
    · have hw := (h.pending _ List.mem_cons_self w List.mem_cons_self).1
      exact ⟨hw.step ⟨next, hnext, hu⟩, hrank u hu⟩
    · exact h.skip.pending frame hframe u hu

end Rising

variable [DecidableEq α]

theorem visit_eq_ok {rank : α → Nat} (hranked : Ranked edges roots rank)
    (unvisited finished : List α) {path : List (Frame α)} (h : Rising edges roots rank path) :
    ∃ result, visit edges unvisited path finished = .ok result := by
  fun_induction visit edges unvisited path finished with
  | case1 unvisited finished => exact ⟨_, rfl⟩
  | case2 unvisited finished v rest ih => exact ih h.finish
  | case3 unvisited finished v w pending rest hon => exact absurd hon h.not_on_path
  | case4 unvisited finished v w pending rest _ _ cause hcause =>
    obtain ⟨next, hnext, _⟩ := hranked w (h.pending _ List.mem_cons_self w List.mem_cons_self).1
    exact absurd (hcause.symm.trans hnext) (by simp)
  | case5 unvisited finished v w pending rest _ _ next hnext ih =>
    obtain ⟨next', hnext', hrank⟩ :=
      hranked w (h.pending _ List.mem_cons_self w List.mem_cons_self).1
    obtain rfl := Except.ok.inj (hnext.symm.trans hnext')
    exact ih (h.push hnext hrank)
  | case6 unvisited finished v w pending rest _ _ ih => exact ih h.skip

theorem visitRoots_eq_ok {rank : α → Nat} (hranked : Ranked edges roots rank) {left : List α}
    (hleft : ∀ root ∈ left, root ∈ roots) (unvisited finished : List α) :
    ∃ result, visitRoots edges unvisited finished left = .ok result := by
  induction left generalizing unvisited finished with
  | nil => exact ⟨_, rfl⟩
  | cons root left ih =>
    have hrest := fun other h => hleft other (List.mem_cons_of_mem _ h)
    have hroot : Reaches edges roots root := ⟨root, hleft root List.mem_cons_self, .refl⟩
    obtain ⟨next, hnext, hrank⟩ := hranked root hroot
    have hstart : Rising edges roots rank [⟨root, next⟩] := by
      refine ⟨List.pairwise_singleton _ _, fun frame hframe w hw => ?_⟩
      obtain rfl := List.mem_singleton.mp hframe
      exact ⟨hroot.step ⟨next, hnext, hw⟩, hrank w hw⟩
    obtain ⟨result, hvisit⟩ := visit_eq_ok hranked (unvisited.erase root) finished hstart
    unfold visitRoots
    split
    · rw [hnext]
      dsimp only
      rw [hvisit]
      exact ih hrest _ _
    · exact ih hrest _ _

/-- A walk lists what the roots lead to. -/
theorem mem_postorder_iff {order : List α} (h : postorder vertices edges roots = .ok order)
    (hclosed : Closed vertices edges roots) {v : α} : v ∈ order ↔ Reaches edges roots v := by
  refine ⟨reaches_of_postorder h, ?_⟩
  rintro ⟨root, hroot, hv⟩
  obtain ⟨_, hrank⟩ := (grounded_of_postorder h).exists_rank
  induction hv with
  | refl => exact mem_of_postorder h hroot (hclosed.roots root hroot)
  | @tail u w _ hlead ih =>
    obtain ⟨_, next, hnext, hmem⟩ := hrank u (List.mem_reverse.mpr ih)
    obtain ⟨next', hnext', hw⟩ := id hlead
    obtain rfl := Except.ok.inj (hnext.symm.trans hnext')
    exact List.mem_reverse.mp (hmem w hw (hclosed.edges u w hlead)).1

/-- A walk finishes exactly if the edges have a rank. -/
theorem postorder_eq_ok_iff (hclosed : Closed vertices edges roots) :
    (∃ order, postorder vertices edges roots = .ok order) ↔ ∃ rank, Ranked edges roots rank := by
  constructor
  · rintro ⟨order, h⟩
    obtain ⟨rank, hrank⟩ := (grounded_of_postorder h).exists_rank
    refine ⟨rank, fun v hv => ?_⟩
    have hmem := List.mem_reverse.mpr ((mem_postorder_iff h hclosed).mpr hv)
    obtain ⟨_, next, hnext, hfalls⟩ := hrank v hmem
    exact ⟨next, hnext, fun w hw => (hfalls w hw (hclosed.edges v w ⟨next, hnext, hw⟩)).2⟩
  · rintro ⟨rank, hranked⟩
    obtain ⟨result, h⟩ := visitRoots_eq_ok hranked (fun _ h => h) vertices []
    exact ⟨result.2.reverse, by rw [postorder, h]; rfl⟩

/-! ## Other names -/

section

variable {ε' : Type} {edges' : α → Except ε' (List α)} {σ : Equiv.Perm α}

/-- Two graphs have the same edges, up to the names of the vertices and the order of successors. -/
def SameEdges (σ : Equiv.Perm α) (edges : α → Except ε (List α))
    (edges' : α → Except ε' (List α)) : Prop :=
  ∀ v, Together (fun next next' => ∀ w, w ∈ next ↔ σ w ∈ next') (edges v) (edges' (σ v))

omit [DecidableEq α]

theorem SameEdges.leads_iff (h : SameEdges σ edges edges') {v w : α} :
    Leads edges v w ↔ Leads edges' (σ v) (σ w) := by
  have hv := h v
  unfold Leads
  generalize edges v = here at hv
  generalize edges' (σ v) = there at hv
  cases hv with
  | error _ => simp
  | ok hnext => simp [hnext]

theorem SameEdges.reaches_iff (h : SameEdges σ edges edges') {v : α} :
    Reaches edges roots v ↔ Reaches edges' (roots.map σ) (σ v) := by
  constructor
  · rintro ⟨root, hroot, hv⟩
    exact ⟨σ root, List.mem_map_of_mem hroot, hv.lift σ fun _ _ hlead => h.leads_iff.mp hlead⟩
  · rintro ⟨root', hroot', hv⟩
    obtain ⟨root, hroot, rfl⟩ := List.mem_map.mp hroot'
    refine ⟨root, hroot, ?_⟩
    have hback : Relation.ReflTransGen (Leads edges) (σ.symm (σ root)) (σ.symm (σ v)) := by
      refine hv.lift σ.symm fun u w hlead => h.leads_iff.mpr ?_
      rwa [Equiv.apply_symm_apply, Equiv.apply_symm_apply]
    rwa [Equiv.symm_apply_apply, Equiv.symm_apply_apply] at hback

theorem SameEdges.ranked_iff (h : SameEdges σ edges edges') :
    (∃ rank, Ranked edges roots rank) ↔ ∃ rank, Ranked edges' (roots.map σ) rank := by
  constructor
  · rintro ⟨rank, hranked⟩
    refine ⟨fun v => rank (σ.symm v), fun v' hv' => ?_⟩
    obtain ⟨v, rfl⟩ := σ.surjective v'
    obtain ⟨next, hnext, hfalls⟩ := hranked v (h.reaches_iff.mpr hv')
    have hv := h v
    rw [hnext] at hv
    generalize edges' (σ v) = there at hv ⊢
    cases hv with
    | ok hmem =>
      refine ⟨_, rfl, fun w' hw' => ?_⟩
      obtain ⟨w, rfl⟩ := σ.surjective w'
      show rank (σ.symm (σ w)) < rank (σ.symm (σ v))
      rw [Equiv.symm_apply_apply, Equiv.symm_apply_apply]
      exact hfalls w ((hmem w).mpr hw')
  · rintro ⟨rank, hranked⟩
    refine ⟨fun v => rank (σ v), fun v hv => ?_⟩
    obtain ⟨next', hnext', hfalls⟩ := hranked (σ v) (h.reaches_iff.mp hv)
    have hv := h v
    rw [hnext'] at hv
    generalize edges v = here at hv ⊢
    cases hv with
    | ok hmem => exact ⟨_, rfl, fun w hw => hfalls (σ w) ((hmem w).mp hw)⟩

end

/-- Two graphs with the same edges are walked together, and the same vertices are listed. -/
theorem postorder_renamed {ε' : Type} {edges' : α → Except ε' (List α)} {vertices' : List α}
    {σ : Equiv.Perm α} (h : SameEdges σ edges edges') (hclosed : Closed vertices edges roots)
    (hclosed' : Closed vertices' edges' (roots.map σ)) :
    Together (fun order order' => ∀ v, v ∈ order ↔ σ v ∈ order')
      (postorder vertices edges roots) (postorder vertices' edges' (roots.map σ)) := by
  have hiff := ((postorder_eq_ok_iff hclosed).trans h.ranked_iff).trans
    (postorder_eq_ok_iff hclosed').symm
  refine Together.of_ok (fun order hwalk => ?_) fun order' hwalk' => hiff.mpr ⟨order', hwalk'⟩
  obtain ⟨order', hwalk'⟩ := hiff.mp ⟨order, hwalk⟩
  refine ⟨order', hwalk', fun v => ?_⟩
  rw [mem_postorder_iff hwalk hclosed, mem_postorder_iff hwalk' hclosed', h.reaches_iff]

end Patchbay.DepthFirst
