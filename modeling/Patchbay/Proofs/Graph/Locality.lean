import Patchbay.Proofs.Graph.DepthFirst

/-!
# What a depth-first walk depends on

Two graphs whose edges agree on all that the roots lead to are walked alike (`postorder_agree`): the
same order is listed, or the same cycle or vertex stops the walk. What the roots do not lead to has
no influence, and neither has the order in which the vertices are given.
-/

namespace Patchbay.DepthFirst

variable {α ε ε' : Type} {E : ε → ε' → Prop} {edges : α → Except ε (List α)}
  {edges' : α → Except ε' (List α)} {roots : List α}

/-- Two walks are stopped alike: by the same cycle, or by causes that correspond. -/
inductive Interrupt.Alike (E : ε → ε' → Prop) : Interrupt ε α → Interrupt ε' α → Prop
  | cycle (path : List α) : Alike E (.cycle path) (.cycle path)
  | refused {x : ε} {y : ε'} (h : E x y) : Alike E (.refused x) (.refused y)

/-- Two lists of unvisited vertices hold the same of those that the roots lead to. -/
structure SameUnvisited (edges : α → Except ε (List α)) (roots unvisited unvisited' : List α) :
    Prop where
  nodup : unvisited.Nodup
  nodup' : unvisited'.Nodup
  mem_iff : ∀ v, Reaches edges roots v → (v ∈ unvisited ↔ v ∈ unvisited')

variable [DecidableEq α]

theorem SameUnvisited.erase {unvisited unvisited' : List α}
    (h : SameUnvisited edges roots unvisited unvisited') (v : α) :
    SameUnvisited edges roots (unvisited.erase v) (unvisited'.erase v) where
  nodup := h.nodup.erase v
  nodup' := h.nodup'.erase v
  mem_iff w hw := by rw [h.nodup.mem_erase_iff, h.nodup'.mem_erase_iff, h.mem_iff w hw]

/-- Two states of a walk that go on alike. -/
def SameProgress (edges : α → Except ε (List α)) (roots : List α) (state state' : List α × List α) :
    Prop :=
  SameUnvisited edges roots state.1 state'.1 ∧ state.2 = state'.2

variable (hedges : ∀ v, Reaches edges roots v → Agree E Eq (edges v) (edges' v))
include hedges

theorem visit_agree {unvisited unvisited' finished : List α} {path : List (Frame α)}
    (hpath : ∀ frame ∈ path, ∀ w ∈ frame.pending, Reaches edges roots w)
    (hu : SameUnvisited edges roots unvisited unvisited') :
    Agree (Interrupt.Alike E) (SameProgress edges roots) (visit edges unvisited path finished)
      (visit edges' unvisited' path finished) := by
  -- By the steps of the first walk: what is pending stays reachable, and there the edges agree.
  fun_induction visit edges unvisited path finished generalizing unvisited' with
  | case1 unvisited finished =>
    rw [visit]
    exact .ok ⟨hu, rfl⟩
  | case2 unvisited finished v rest ih =>
    rw [visit]
    exact ih (fun frame hframe => hpath frame (List.mem_cons_of_mem _ hframe)) hu
  | case3 unvisited finished v w pending rest hon =>
    rw [visit, if_pos hon]
    exact .error (.cycle _)
  | case4 unvisited finished v w pending rest hon hfresh cause hcause =>
    have hw := hpath _ List.mem_cons_self w List.mem_cons_self
    have hagree := hedges w hw
    rw [hcause] at hagree
    rw [visit, if_neg hon, dif_pos ((hu.mem_iff w hw).mp hfresh)]
    generalize edges' w = other at hagree
    cases hagree with
    | error h => exact .error (.refused h)
  | case5 unvisited finished v w pending rest hon hfresh next hnext ih =>
    have hw := hpath _ List.mem_cons_self w List.mem_cons_self
    have hagree := hedges w hw
    rw [hnext] at hagree
    rw [visit, if_neg hon, dif_pos ((hu.mem_iff w hw).mp hfresh)]
    generalize edges' w = other at hagree
    cases hagree with
    | ok h =>
      subst h
      refine ih (fun frame hframe u hpending => ?_) (hu.erase w)
      rcases List.mem_cons.mp hframe with rfl | hframe
      · exact hw.step ⟨next, hnext, hpending⟩
      rcases List.mem_cons.mp hframe with rfl | hframe
      · exact hpath _ List.mem_cons_self u (List.mem_cons_of_mem _ hpending)
      · exact hpath frame (List.mem_cons_of_mem _ hframe) u hpending
  | case6 unvisited finished v w pending rest hon hfresh ih =>
    have hw := hpath _ List.mem_cons_self w List.mem_cons_self
    rw [visit, if_neg hon, dif_neg (fun h => hfresh ((hu.mem_iff w hw).mpr h))]
    refine ih (fun frame hframe u hpending => ?_) hu
    rcases List.mem_cons.mp hframe with rfl | hframe
    · exact hpath _ List.mem_cons_self u (List.mem_cons_of_mem _ hpending)
    · exact hpath frame (List.mem_cons_of_mem _ hframe) u hpending

theorem visitRoots_agree {unvisited unvisited' finished left : List α}
    (hleft : ∀ root ∈ left, root ∈ roots) (hu : SameUnvisited edges roots unvisited unvisited') :
    Agree (Interrupt.Alike E) (SameProgress edges roots) (visitRoots edges unvisited finished left)
      (visitRoots edges' unvisited' finished left) := by
  induction left generalizing unvisited unvisited' finished with
  | nil => exact .ok ⟨hu, rfl⟩
  | cons root left ih =>
    have hroot : Reaches edges roots root := ⟨root, hleft root List.mem_cons_self, .refl⟩
    have hrest := fun other h => hleft other (List.mem_cons_of_mem _ h)
    have hagree := hedges root hroot
    unfold visitRoots
    by_cases hfresh : root ∈ unvisited
    · rw [if_pos hfresh, if_pos ((hu.mem_iff root hroot).mp hfresh)]
      generalize hnext : edges root = here at hagree
      generalize edges' root = there at hagree
      cases hagree with
      | error h => exact .error (.refused h)
      | @ok next next' h =>
        subst h
        have hpath : ∀ frame ∈ [Frame.mk root next], ∀ w ∈ frame.pending,
            Reaches edges roots w := by
          intro frame hframe w hpending
          rw [List.mem_singleton.mp hframe] at hpending
          exact hroot.step ⟨next, hnext, hpending⟩
        have hvisit : Agree (Interrupt.Alike E) (SameProgress edges roots)
            (visit edges (unvisited.erase root) [⟨root, next⟩] finished)
            (visit edges' (unvisited'.erase root) [⟨root, next⟩] finished) :=
          visit_agree hedges hpath (hu.erase root)
        dsimp only
        generalize visit edges (unvisited.erase root) [⟨root, next⟩] finished = walk at hvisit
        generalize visit edges' (unvisited'.erase root) [⟨root, next⟩] finished = walk' at hvisit
        cases hvisit with
        | error h => exact .error h
        | @ok state state' h =>
          obtain ⟨unvisited, finished⟩ := state
          obtain ⟨unvisited', finished'⟩ := state'
          obtain ⟨hstate, rfl⟩ := h
          exact ih hrest hstate
    · rw [if_neg hfresh, if_neg (fun h => hfresh ((hu.mem_iff root hroot).mpr h))]
      exact ih hrest hu

variable (roots) in
theorem postorder_agree {vertices vertices' : List α} (hn : vertices.Nodup)
    (hn' : vertices'.Nodup)
    (hmem : ∀ v, Reaches edges roots v → (v ∈ vertices ↔ v ∈ vertices')) :
    Agree (Interrupt.Alike E) Eq (postorder vertices edges roots)
      (postorder vertices' edges' roots) :=
  (visitRoots_agree hedges (fun _ h => h) ⟨hn, hn', hmem⟩).map fun _ _ h =>
    congrArg List.reverse h.2

end Patchbay.DepthFirst
