import Patchbay.Proofs.Graph.Postorder

/-!
# The turns of the roots

A walk takes its roots in turn. A vertex is listed at the turn of a root that leads to it, and the
roots before that one are listed by then (`AtTurn`). In an order a vertex therefore stands after all
roots that come before the root of its turn (`exists_turn`).
-/

namespace Patchbay.DepthFirst

variable {α ε : Type} {edges : α → Except ε (List α)} {vertices roots order unvisited finished
  unvisited' finished' : List α}

/-- The vertex is listed at the turn of this root: the root leads to it, and the roots that are done
with are listed earlier. Lists have what is listed last in front. -/
structure AtTurn (vertices : List α) (edges : α → Except ε (List α)) (done : List α) (root : α)
    (finished : List α) (v : α) : Prop where
  reached : Reaches edges [root] v
  listed : ∃ turn earlier, finished = turn ++ earlier ∧ v ∈ turn ∧
    ∀ u ∈ done, u ∈ vertices → u ∈ earlier

theorem AtTurn.grow {done : List α} {root v : α}
    (h : AtTurn vertices edges done root finished v) (later : List α) :
    AtTurn vertices edges done root (later ++ finished) v := by
  obtain ⟨turn, earlier, rfl, hv, hdone⟩ := h.listed
  exact ⟨h.reached, later ++ turn, earlier, by rw [List.append_assoc],
    List.mem_append_right later hv, hdone⟩

variable [DecidableEq α]

/-- A path adds vertices that its roots lead to. -/
theorem visit_adds {path : List (Frame α)}
    (h : visit edges unvisited path finished = .ok (unvisited', finished'))
    (ht : Threaded edges roots path) :
    ∃ listed, finished' = listed ++ finished ∧ ∀ v ∈ listed, Reaches edges roots v := by
  fun_induction visit edges unvisited path finished with
  | case1 =>
    obtain ⟨rfl, rfl⟩ := Prod.mk.inj (Except.ok.inj h)
    exact ⟨[], rfl, by simp⟩
  | case2 unvisited finished v rest ih =>
    obtain ⟨listed, rfl, hlisted⟩ := ih h ht.finish
    refine ⟨listed ++ [v], by simp, fun u hu => ?_⟩
    rcases List.mem_append.mp hu with hu | hu
    · exact hlisted u hu
    · rw [List.mem_singleton.mp hu]
      exact ht.reached _ List.mem_cons_self
  | case3 => exact absurd h (by simp)
  | case4 => exact absurd h (by simp)
  | case5 unvisited finished v w pending rest hon _ next hnext ih => exact ih h (ht.push hon hnext)
  | case6 unvisited finished v w pending rest _ _ ih => exact ih h ht.skip

/-- The roots that are left add vertices, each at the turn of one of them. -/
theorem visitRoots_adds {done left : List α}
    (h : visitRoots edges unvisited finished left = .ok (unvisited', finished'))
    (hw : Walking vertices edges roots unvisited [] finished) (hroots : roots = done ++ left)
    (hdone : ∀ u ∈ done, u ∈ vertices → u ∈ finished) :
    ∃ listed, finished' = listed ++ finished ∧ ∀ v ∈ listed, ∃ before root after,
      roots = before ++ root :: after ∧ AtTurn vertices edges before root finished' v := by
  fun_induction visitRoots edges unvisited finished left generalizing done with
  | case1 =>
    obtain ⟨rfl, rfl⟩ := Prod.mk.inj (Except.ok.inj h)
    exact ⟨[], rfl, by simp⟩
  | case2 => exact absurd h (by simp)
  | case3 => exact absurd h (by simp)
  | case4 unvisited finished root left hfresh next hnext unvisited₁ finished₁ hvisit ih =>
    have hroot : root ∈ roots := by
      rw [hroots]
      exact List.mem_append_right _ List.mem_cons_self
    obtain ⟨hw₁, hkept⟩ := walking_of_visit hvisit (hw.start hroot hfresh hnext)
    have hdone₁ : ∀ u ∈ done ++ [root], u ∈ vertices → u ∈ finished₁ := by
      intro u hu hv
      rcases List.mem_append.mp hu with hu | hu
      · exact hkept u (.inr (hdone u hu hv))
      · exact hkept u (.inl (by simpa using hu))
    obtain ⟨listed₁, rfl, hreached⟩ :=
      visit_adds hvisit (.start ⟨root, List.mem_singleton_self root, .refl⟩ hnext)
    obtain ⟨later, rfl, hlater⟩ := ih h hw₁ (by rw [hroots, List.append_cons]) hdone₁
    refine ⟨later ++ listed₁, by rw [List.append_assoc], fun v hv => ?_⟩
    rcases List.mem_append.mp hv with hv | hv
    · exact hlater v hv
    · have hturn : AtTurn vertices edges done root (listed₁ ++ finished) v :=
        ⟨hreached v hv, listed₁, finished, rfl, hv, hdone⟩
      exact ⟨done, root, left, hroots, hturn.grow later⟩
  | case5 unvisited finished root left hold ih =>
    refine ih h hw (by rw [hroots, List.append_cons]) fun u hu hv => ?_
    rcases List.mem_append.mp hu with hu | hu
    · exact hdone u hu hv
    · obtain rfl := List.mem_singleton.mp hu
      exact ((hw.split u hv).resolve_left hold).resolve_left (by simp)

/-- Each vertex of an order is reached from a root, and stands after all roots before that one. -/
theorem exists_turn (h : postorder vertices edges roots = .ok order) (hn : vertices.Nodup) {v : α}
    (hv : v ∈ order) : ∃ before root after, roots = before ++ root :: after ∧
      Reaches edges [root] v ∧ ∀ u ∈ before, u ∈ vertices → order.idxOf u < order.idxOf v := by
  have hnodup := nodup_of_postorder h hn
  obtain ⟨⟨unvisited, finished⟩, hroots, rfl⟩ := map_eq_ok.mp h
  have hstart : Walking vertices edges roots vertices [] [] :=
    ⟨fun v hv => .inl hv, trivial, trivial, by simp, by simp⟩
  obtain ⟨listed, hlisted, hturns⟩ :=
    visitRoots_adds hroots hstart (List.nil_append roots).symm (by simp)
  rw [List.append_nil] at hlisted
  obtain ⟨before, root, after, heq, hturn⟩ := hturns v (hlisted ▸ List.mem_reverse.mp hv)
  refine ⟨before, root, after, heq, hturn.reached, fun u hu hknown => ?_⟩
  obtain ⟨turn, earlier, rfl, hmem, hearlier⟩ := hturn.listed
  dsimp only at hnodup ⊢
  rw [List.reverse_append] at hnodup ⊢
  have hu : u ∈ earlier.reverse := List.mem_reverse.mpr (hearlier u hu hknown)
  have hlate : v ∉ earlier.reverse := fun hmem' =>
    (List.nodup_append.mp hnodup).2.2 v hmem' v (List.mem_reverse.mpr hmem) rfl
  rw [List.idxOf_append_of_mem hu, List.idxOf_append_of_notMem hlate]
  have := List.idxOf_lt_length_of_mem hu
  omega

end Patchbay.DepthFirst
