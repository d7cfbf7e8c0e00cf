import Mathlib.Data.List.Nodup
import Mathlib.Logic.Relation
import Mathlib.Tactic.Tauto
import Patchbay.Graph.DepthFirst
import Patchbay.Proofs.Outcome

/-!
# What a depth-first walk lists

The order that a finished walk lists is grounded: the successors of each vertex are known and stand
before it (`grounded_of_postorder`, `idxOf_lt_of_postorder`). It holds the roots
(`mem_of_postorder`) and nothing but vertices that the roots lead to (`reaches_of_postorder`), each
once (`nodup_of_postorder`). A walk is refused only by a vertex whose successors could not be told
(`refused_of_postorder`).
-/

namespace Patchbay.DepthFirst

variable {α ε : Type} {edges : α → Except ε (List α)}

/-- One vertex leads to another by an edge. -/
def Leads (edges : α → Except ε (List α)) (v w : α) : Prop :=
  ∃ next, edges v = .ok next ∧ w ∈ next

/-- Some root leads to the vertex, by any number of edges. -/
def Reaches (edges : α → Except ε (List α)) (roots : List α) (v : α) : Prop :=
  ∃ root ∈ roots, Relation.ReflTransGen (Leads edges) root v

theorem Reaches.step {roots : List α} {v w : α} (h : Reaches edges roots v) (he : Leads edges v w) :
    Reaches edges roots w := by
  obtain ⟨root, hroot, hv⟩ := h
  exact ⟨root, hroot, hv.tail he⟩

/-- The vertices of a list, last one first: each is preceded by its successors. -/
def Grounded (vertices : List α) (edges : α → Except ε (List α)) : List α → Prop
  | [] => True
  | v :: earlier =>
    (∃ next, edges v = .ok next ∧ ∀ w ∈ next, w ∈ vertices → w ∈ earlier)
      ∧ Grounded vertices edges earlier

/-- The successors of each vertex on the path that are not pending are finished, or they stand
right above the vertex on the path. -/
def Supported (vertices : List α) (edges : α → Except ε (List α)) (finished : List α) :
    List (Frame α) → Prop
  | [] => True
  | frame :: rest =>
    (∃ tried, edges frame.vertex = .ok (tried ++ frame.pending)
      ∧ ∀ w ∈ tried, w ∈ vertices → w ∈ finished)
      ∧ Supported vertices edges (frame.vertex :: finished) rest

theorem Supported.mono {vertices finished finished' : List α} {path : List (Frame α)}
    (h : Supported vertices edges finished path) (hsub : finished ⊆ finished') :
    Supported vertices edges finished' path := by
  -- The frames further out count their inner neighbours as finished, so both lists grow with them.
  induction path generalizing finished finished' with
  | nil => trivial
  | cons frame rest ih =>
    obtain ⟨⟨tried, hedges, htried⟩, hrest⟩ := h
    exact ⟨⟨tried, hedges, fun w hw hv => hsub (htried w hw hv)⟩,
      ih hrest (List.cons_subset_cons _ hsub)⟩

/-- What holds at every point of a walk. -/
structure Walking (vertices : List α) (edges : α → Except ε (List α)) (roots unvisited : List α)
    (path : List (Frame α)) (finished : List α) : Prop where
  split : ∀ v ∈ vertices, v ∈ unvisited ∨ v ∈ path.map Frame.vertex ∨ v ∈ finished
  supported : Supported vertices edges finished path
  grounded : Grounded vertices edges finished
  reached : ∀ v, v ∈ path.map Frame.vertex ∨ v ∈ finished → Reaches edges roots v
  known : ∀ v, v ∈ unvisited ∨ v ∈ path.map Frame.vertex ∨ v ∈ finished → v ∈ vertices

namespace Walking

variable {vertices roots unvisited finished : List α} {path rest : List (Frame α)} {v w : α}
  {next pending : List α}

/-- The innermost vertex is finished when nothing is pending on it. -/
theorem finish (h : Walking vertices edges roots unvisited (⟨v, []⟩ :: rest) finished) :
    Walking vertices edges roots unvisited rest (v :: finished) := by
  obtain ⟨⟨tried, hedges, htried⟩, hrest⟩ := h.supported
  rw [List.append_nil] at hedges
  refine ⟨fun u hu => ?_, hrest, ⟨⟨tried, hedges, htried⟩, h.grounded⟩, fun u hu => ?_,
    fun u hu => ?_⟩
  · have := h.split u hu
    simp only [List.map_cons, List.mem_cons] at this ⊢
    tauto
  · refine h.reached u ?_
    simp only [List.map_cons, List.mem_cons] at hu ⊢
    tauto
  · refine h.known u ?_
    simp only [List.map_cons, List.mem_cons] at hu ⊢
    tauto

/-- A successor that is neither unvisited nor on the path is finished. -/
theorem skip (h : Walking vertices edges roots unvisited (⟨v, w :: pending⟩ :: rest) finished)
    (hpath : w ∉ (⟨v, pending⟩ :: rest : List (Frame α)).map Frame.vertex)
    (hold : w ∉ unvisited) :
    Walking vertices edges roots unvisited (⟨v, pending⟩ :: rest) finished := by
  obtain ⟨⟨tried, hedges, htried⟩, hrest⟩ := h.supported
  refine ⟨h.split, ⟨⟨tried ++ [w], by simpa using hedges, ?_⟩, hrest⟩, h.grounded, h.reached,
    h.known⟩
  intro u hu hv
  rcases List.mem_append.mp hu with hu | hu
  · exact htried u hu hv
  · rw [List.mem_singleton.mp hu] at hv ⊢
    exact ((h.split w hv).resolve_left hold).resolve_left hpath

/-- A root that has not been visited starts a path. -/
theorem start [DecidableEq α] {root : α} (h : Walking vertices edges roots unvisited [] finished)
    (hroot : root ∈ roots) (hfresh : root ∈ unvisited) (hnext : edges root = .ok next) :
    Walking vertices edges roots (unvisited.erase root) [⟨root, next⟩] finished := by
  refine ⟨fun u hu => ?_, ⟨⟨[], hnext, by simp⟩, trivial⟩, h.grounded, fun u hu => ?_,
    fun u hu => ?_⟩
  · by_cases hur : u = root
    · exact .inr (.inl (by simp [hur]))
    · rw [List.mem_erase_of_ne hur]
      exact (h.split u hu).imp_right fun hu => .inr (by simpa using hu)
  · rcases hu with hu | hu
    · rw [show u = root by simpa using hu]
      exact ⟨root, hroot, .refl⟩
    · exact h.reached u (.inr hu)
  · rcases hu with hu | hu | hu
    · exact h.known u (.inl (List.mem_of_mem_erase hu))
    · rw [show u = root by simpa using hu]
      exact h.known root (.inl hfresh)
    · exact h.known u (.inr (.inr hu))

/-- A successor that has not been visited comes onto the path. -/
theorem push [DecidableEq α]
    (h : Walking vertices edges roots unvisited (⟨v, w :: pending⟩ :: rest) finished)
    (hfresh : w ∈ unvisited) (hnext : edges w = .ok next) :
    Walking vertices edges roots (unvisited.erase w) (⟨w, next⟩ :: ⟨v, pending⟩ :: rest)
      finished := by
  obtain ⟨⟨tried, hedges, htried⟩, hrest⟩ := h.supported
  have hlead : Leads edges v w := ⟨_, hedges, by simp⟩
  refine ⟨fun u hu => ?_, ⟨⟨[], hnext, by simp⟩, ⟨tried ++ [w], by simpa using hedges, ?_⟩,
    hrest.mono ?_⟩, h.grounded, fun u hu => ?_, fun u hu => ?_⟩
  · have hsplit := h.split u hu
    simp only [List.map_cons, List.mem_cons] at hsplit ⊢
    by_cases huw : u = w
    · exact .inr (.inl (.inl huw))
    · rw [List.mem_erase_of_ne huw]
      tauto
  · intro u hu hv
    rcases List.mem_append.mp hu with hu | hu
    · exact List.mem_cons_of_mem _ (htried u hu hv)
    · rw [List.mem_singleton.mp hu]
      exact List.mem_cons_self
  · exact List.cons_subset_cons _ (List.subset_cons_self _ _)
  · simp only [List.map_cons, List.mem_cons] at hu
    rcases hu with (rfl | hu) | hu
    · exact (h.reached v (.inl List.mem_cons_self)).step hlead
    · exact h.reached u (.inl (by simpa using hu))
    · exact h.reached u (.inr hu)
  · simp only [List.map_cons, List.mem_cons] at hu
    refine h.known u ?_
    rcases hu with hu | (rfl | hu) | hu
    · exact .inl (List.mem_of_mem_erase hu)
    · exact .inl hfresh
    · exact .inr (.inl (by simpa using hu))
    · exact .inr (.inr hu)

end Walking

variable [DecidableEq α] {vertices roots : List α}

theorem walking_of_visit {unvisited finished unvisited' finished' : List α}
    {path : List (Frame α)}
    (h : visit edges unvisited path finished = .ok (unvisited', finished'))
    (hw : Walking vertices edges roots unvisited path finished) :
    Walking vertices edges roots unvisited' [] finished' ∧
      ∀ v, v ∈ path.map Frame.vertex ∨ v ∈ finished → v ∈ finished' := by
  fun_induction visit edges unvisited path finished with
  | case1 =>
    obtain ⟨rfl, rfl⟩ := Prod.mk.inj (Except.ok.inj h)
    exact ⟨hw, by simp⟩
  | case2 unvisited finished v rest ih =>
    obtain ⟨hw', hmem⟩ := ih h hw.finish
    refine ⟨hw', fun u hu => hmem u ?_⟩
    simp only [List.map_cons, List.mem_cons] at hu ⊢
    tauto
  | case3 => exact absurd h (by simp)
  | case4 => exact absurd h (by simp)
  | case5 unvisited finished v w pending rest _ hfresh next hnext ih =>
    obtain ⟨hw', hmem⟩ := ih h (hw.push hfresh hnext)
    refine ⟨hw', fun u hu => hmem u ?_⟩
    simp only [List.map_cons, List.mem_cons] at hu ⊢
    tauto
  | case6 unvisited finished v w pending rest hpath hold ih =>
    exact ih h (hw.skip hpath hold)

theorem walking_of_visitRoots {unvisited finished unvisited' finished' left : List α}
    (h : visitRoots edges unvisited finished left = .ok (unvisited', finished'))
    (hw : Walking vertices edges roots unvisited [] finished) (hleft : left ⊆ roots) :
    Walking vertices edges roots unvisited' [] finished' ∧
      ∀ v, v ∈ finished ∨ v ∈ left ∧ v ∈ vertices → v ∈ finished' := by
  fun_induction visitRoots edges unvisited finished left with
  | case1 =>
    obtain ⟨rfl, rfl⟩ := Prod.mk.inj (Except.ok.inj h)
    exact ⟨hw, by simp⟩
  | case2 => exact absurd h (by simp)
  | case3 => exact absurd h (by simp)
  | case4 unvisited finished root left hfresh next hnext unvisited1 finished1 hvisit ih =>
    have hstart := hw.start (hleft List.mem_cons_self) hfresh hnext
    obtain ⟨hw1, hmem1⟩ := walking_of_visit hvisit hstart
    obtain ⟨hw', hmem⟩ := ih h hw1 (fun u hu => hleft (List.mem_cons_of_mem _ hu))
    refine ⟨hw', fun u hu => hmem u ?_⟩
    rcases hu with hu | ⟨hu, hv⟩
    · exact .inl (hmem1 u (.inr hu))
    · rcases List.mem_cons.mp hu with rfl | hu
      · exact .inl (hmem1 u (.inl (by simp)))
      · exact .inr ⟨hu, hv⟩
  | case5 unvisited finished root left hold ih =>
    obtain ⟨hw', hmem⟩ := ih h hw (fun u hu => hleft (List.mem_cons_of_mem _ hu))
    refine ⟨hw', fun u hu => hmem u ?_⟩
    rcases hu with hu | ⟨hu, hv⟩
    · exact .inl hu
    · rcases List.mem_cons.mp hu with rfl | hu
      · exact .inl (((hw.split u hv).resolve_left hold).resolve_left (by simp))
      · exact .inr ⟨hu, hv⟩

/-! ## Finished walks -/

variable {order : List α}

theorem walking_of_postorder (h : postorder vertices edges roots = .ok order) :
    (∃ unvisited, Walking vertices edges roots unvisited [] order.reverse) ∧
      ∀ v ∈ roots, v ∈ vertices → v ∈ order := by
  unfold postorder at h
  cases hv : visitRoots edges vertices [] roots with
  | error interrupt => exact absurd h (by simp [hv, Except.map])
  | ok result =>
    obtain ⟨unvisited, finished⟩ := result
    have horder : finished.reverse = order := by simpa [hv, Except.map] using h
    have hstart : Walking vertices edges roots vertices [] [] :=
      ⟨fun v hv => .inl hv, trivial, trivial, by simp, by simp⟩
    obtain ⟨hw, hmem⟩ := walking_of_visitRoots hv hstart (List.Subset.refl roots)
    subst horder
    refine ⟨⟨unvisited, by rwa [List.reverse_reverse]⟩, fun v hr hv => ?_⟩
    exact List.mem_reverse.mpr (hmem v (.inr ⟨hr, hv⟩))

theorem grounded_of_postorder (h : postorder vertices edges roots = .ok order) :
    Grounded vertices edges order.reverse :=
  (walking_of_postorder h).1.elim fun _ hw => hw.grounded

theorem mem_of_postorder (h : postorder vertices edges roots = .ok order) {v : α} (hr : v ∈ roots)
    (hv : v ∈ vertices) : v ∈ order :=
  (walking_of_postorder h).2 v hr hv

theorem reaches_of_postorder (h : postorder vertices edges roots = .ok order) {v : α}
    (hv : v ∈ order) : Reaches edges roots v :=
  (walking_of_postorder h).1.elim fun _ hw => hw.reached v (.inr (List.mem_reverse.mpr hv))

theorem mem_vertices_of_postorder (h : postorder vertices edges roots = .ok order) {v : α}
    (hv : v ∈ order) : v ∈ vertices :=
  (walking_of_postorder h).1.elim fun _ hw =>
    hw.known v (.inr (.inr (List.mem_reverse.mpr hv)))

/-- A grounded list has a rank that falls along its edges and stays below its length. -/
theorem Grounded.exists_rank {listed : List α} (h : Grounded vertices edges listed) :
    ∃ rank : α → Nat, ∀ v ∈ listed, rank v < listed.length ∧
      ∃ next, edges v = .ok next ∧
        ∀ w ∈ next, w ∈ vertices → w ∈ listed ∧ rank w < rank v := by
  induction listed with
  | nil => exact ⟨fun _ => 0, by simp⟩
  | cons v earlier ih =>
    obtain ⟨⟨next, hnext, hmem⟩, hearlier⟩ := h
    obtain ⟨rank, hrank⟩ := ih hearlier
    refine ⟨fun u => if u ∈ earlier then rank u else earlier.length, fun u hu => ?_⟩
    by_cases hue : u ∈ earlier
    · obtain ⟨hlt, nextu, hnextu, hmemu⟩ := hrank u hue
      refine ⟨by simp only [if_pos hue, List.length_cons]; omega, nextu, hnextu, fun w hw hv => ?_⟩
      obtain ⟨hwe, hwlt⟩ := hmemu w hw hv
      exact ⟨List.mem_cons_of_mem _ hwe, by simpa only [if_pos hue, if_pos hwe] using hwlt⟩
    · obtain rfl : u = v := (List.mem_cons.mp hu).resolve_right hue
      refine ⟨by simp only [if_neg hue, List.length_cons]; omega, next, hnext, fun w hw hv => ?_⟩
      have hwe := hmem w hw hv
      refine ⟨List.mem_cons_of_mem _ hwe, ?_⟩
      simp only [if_neg hue, if_pos hwe]
      exact (hrank w hwe).1

/-! ## Positions -/

/-- A walk moves the vertices from list to list. -/
theorem perm_of_visit {unvisited finished unvisited' finished' : List α} {path : List (Frame α)}
    (h : visit edges unvisited path finished = .ok (unvisited', finished')) :
    (unvisited ++ (path.map Frame.vertex ++ finished)).Perm (unvisited' ++ finished') := by
  fun_induction visit edges unvisited path finished with
  | case1 =>
    obtain ⟨rfl, rfl⟩ := Prod.mk.inj (Except.ok.inj h)
    exact .refl _
  | case2 unvisited finished v rest ih =>
    refine .trans (.append_left unvisited ?_) (ih h)
    exact List.perm_middle.symm
  | case3 => exact absurd h (by simp)
  | case4 => exact absurd h (by simp)
  | case5 unvisited finished v w pending rest _ hfresh next hnext ih =>
    refine .trans ?_ (ih h)
    refine .trans ?_ List.perm_middle.symm
    exact (List.perm_cons_erase hfresh).append_right _
  | case6 _ _ _ _ _ _ _ _ ih => exact ih h

theorem perm_of_visitRoots {unvisited finished unvisited' finished' left : List α}
    (h : visitRoots edges unvisited finished left = .ok (unvisited', finished')) :
    (unvisited ++ finished).Perm (unvisited' ++ finished') := by
  fun_induction visitRoots edges unvisited finished left with
  | case1 =>
    obtain ⟨rfl, rfl⟩ := Prod.mk.inj (Except.ok.inj h)
    exact .refl _
  | case2 => exact absurd h (by simp)
  | case3 => exact absurd h (by simp)
  | case4 unvisited finished root left hfresh next hnext unvisited1 finished1 hvisit ih =>
    refine .trans ?_ (ih h)
    refine .trans ?_ (perm_of_visit hvisit)
    refine .trans ?_ List.perm_middle.symm
    exact (List.perm_cons_erase hfresh).append_right _
  | case5 _ _ _ _ _ ih => exact ih h

/-- A walk lists each vertex once. -/
theorem nodup_of_postorder (h : postorder vertices edges roots = .ok order)
    (hn : vertices.Nodup) : order.Nodup := by
  obtain ⟨⟨unvisited, finished⟩, hv, rfl⟩ := map_eq_ok.mp h
  have hperm := perm_of_visitRoots hv
  rw [List.append_nil] at hperm
  exact List.nodup_reverse.mpr (List.nodup_append.mp (hperm.nodup_iff.mp hn)).2.1

/-- In a grounded list, read backwards, each vertex stands after its successors. -/
theorem Grounded.idxOf_lt {listed next : List α} (h : Grounded vertices edges listed)
    (hn : listed.Nodup) {v w : α} (hv : v ∈ listed) (hnext : edges v = .ok next) (hw : w ∈ next)
    (hknown : w ∈ vertices) : listed.reverse.idxOf w < listed.reverse.idxOf v := by
  induction listed with
  | nil => exact absurd hv List.not_mem_nil
  | cons u earlier ih =>
    obtain ⟨⟨next', hnext', hmem⟩, hearlier⟩ := h
    rw [List.nodup_cons] at hn
    rw [List.reverse_cons]
    rcases List.mem_cons.mp hv with rfl | hv
    · obtain rfl := Except.ok.inj (hnext.symm.trans hnext')
      have hwe : w ∈ earlier.reverse := List.mem_reverse.mpr (hmem w hw hknown)
      have hve : v ∉ earlier.reverse := fun hve => hn.1 (List.mem_reverse.mp hve)
      rw [List.idxOf_append_of_mem hwe, List.idxOf_append_of_notMem hve]
      have := List.idxOf_lt_length_of_mem hwe
      omega
    · have hlt := ih hearlier hn.2 hv
      have hve := List.mem_reverse.mpr hv
      have hwe : w ∈ earlier.reverse :=
        List.idxOf_lt_length_iff.mp (Nat.lt_trans hlt (List.idxOf_lt_length_of_mem hve))
      rwa [List.idxOf_append_of_mem hwe, List.idxOf_append_of_mem hve]

/-- In the order of a walk each vertex stands after its successors. -/
theorem idxOf_lt_of_postorder (h : postorder vertices edges roots = .ok order)
    (hn : vertices.Nodup) {v w : α} {next : List α} (hv : v ∈ order) (hnext : edges v = .ok next)
    (hw : w ∈ next) (hknown : w ∈ vertices) : order.idxOf w < order.idxOf v := by
  have hlt := (grounded_of_postorder h).idxOf_lt (List.nodup_reverse.mpr (nodup_of_postorder h hn))
    (List.mem_reverse.mpr hv) hnext hw hknown
  rwa [List.reverse_reverse] at hlt

/-! ## Refused walks -/

theorem refused_of_visit {unvisited finished : List α} {path : List (Frame α)} {cause : ε}
    (h : visit edges unvisited path finished = .error (.refused cause)) :
    ∃ v, edges v = .error cause := by
  fun_induction visit edges unvisited path finished with
  | case1 => exact absurd h (by simp)
  | case2 _ _ _ _ ih => exact ih h
  | case3 => exact absurd h (by simp)
  | case4 unvisited finished v w pending rest _ _ cause' hnext =>
    obtain rfl : cause' = cause := by simpa using h
    exact ⟨w, hnext⟩
  | case5 _ _ _ _ _ _ _ _ _ _ ih => exact ih h
  | case6 _ _ _ _ _ _ _ _ ih => exact ih h

theorem refused_of_postorder {cause : ε}
    (h : postorder vertices edges roots = .error (.refused cause)) :
    ∃ v, edges v = .error cause := by
  have hroots : ∀ left unvisited finished : List α,
      visitRoots edges unvisited finished left = .error (.refused cause) →
        ∃ v, edges v = .error cause := by
    intro left unvisited finished hv
    fun_induction visitRoots edges unvisited finished left with
    | case1 => exact absurd hv (by simp)
    | case2 unvisited finished root left _ cause' hnext =>
      obtain rfl : cause' = cause := by simpa using hv
      exact ⟨root, hnext⟩
    | case3 _ _ _ _ _ _ _ interrupt hvisit =>
      obtain rfl : interrupt = .refused cause := by simpa using hv
      exact refused_of_visit hvisit
    | case4 _ _ _ _ _ _ _ _ _ _ ih => exact ih hv
    | case5 _ _ _ _ _ ih => exact ih hv
  unfold postorder at h
  cases hv : visitRoots edges vertices [] roots with
  | error interrupt =>
    obtain rfl : interrupt = .refused cause := by simpa [hv, Except.map] using h
    exact hroots _ _ _ hv
  | ok result => exact absurd h (by simp [hv, Except.map])

end Patchbay.DepthFirst
