import Mathlib.Data.List.Chain
import Patchbay.Proofs.Graph.DepthFirst

/-!
# Orders and cycles

A walk through a graph either lists all that the roots lead to, each vertex once and after all that
it leads to (`Postordered`), or it is stopped: by a cycle, which the path it reports is, or by a
vertex whose successors cannot be told (`Stops`). Both say something about the graph alone, and they
exclude each other; so a walk finishes exactly if it meets no such vertex and no cycle is within
reach (`postorder_eq_ok_iff_acyclic`).
-/

namespace Patchbay.DepthFirst

variable {α ε : Type} {leads : α → α → Prop} {edges : α → Except ε (List α)}
  {vertices roots order : List α}

/-! ## Cycles -/

/-- A path along edges that ends with its first vertex; no other vertex is on it twice. -/
structure Closes (leads : α → α → Prop) (path : List α) : Prop where
  shape : ∃ v between, path = v :: between ++ [v] ∧ (v :: between).Nodup
  chain : path.IsChain leads

theorem Closes.reverse {path : List α} (h : Closes leads path) :
    Closes (fun v w => leads w v) path.reverse := by
  obtain ⟨⟨v, between, rfl, hnodup⟩, hchain⟩ := h
  refine ⟨⟨v, between.reverse, by simp, ?_⟩, List.isChain_reverse.mpr hchain⟩
  exact ((List.reverse_perm between).cons v).nodup_iff.mpr hnodup

theorem Closes.mono {leads' : α → α → Prop} {path : List α} (h : Closes leads path)
    (hleads : ∀ v w, leads v w → leads' v w) : Closes leads' path :=
  ⟨h.shape, h.chain.imp hleads⟩

theorem transGen_of_isChain {v w : α} {between : List α}
    (h : (v :: between ++ [w]).IsChain leads) : Relation.TransGen leads v w := by
  induction between generalizing v with
  | nil => exact .single (List.isChain_pair.mp h)
  | cons u between ih =>
    obtain ⟨hfirst, hrest⟩ := List.isChain_cons_cons.mp h
    exact .head hfirst (ih hrest)

/-- From a vertex of a cycle, edges lead back to it. -/
theorem Closes.exists_transGen {path : List α} (h : Closes leads path) :
    ∃ v ∈ path, Relation.TransGen leads v v := by
  obtain ⟨⟨v, between, rfl, _⟩, hchain⟩ := h
  exact ⟨v, by simp, transGen_of_isChain hchain⟩

/-! ## What a walk answers -/

/-- The vertices of the graph are all that the roots lead to, and maybe others, each once. -/
structure Spans (vertices : List α) (edges : α → Except ε (List α)) (roots : List α) : Prop where
  nodup : vertices.Nodup
  mem : ∀ v, Reaches edges roots v → v ∈ vertices

/-- The order has each vertex that the roots lead to once, after all that it leads to; the
successors of all of them are known. -/
structure Postordered [DecidableEq α] (edges : α → Except ε (List α)) (roots order : List α) :
    Prop where
  nodup : order.Nodup
  mem_iff : ∀ v, v ∈ order ↔ Reaches edges roots v
  known : ∀ v ∈ order, ∃ next, edges v = .ok next
  after : ∀ v w, v ∈ order → Relation.TransGen (Leads edges) v w → order.idxOf w < order.idxOf v

/-- What stops a walk is there: a cycle that the roots lead to, or a vertex that they lead to whose
successors cannot be told. -/
inductive Stops (edges : α → Except ε (List α)) (roots : List α) : Interrupt ε α → Prop
  | cycle {path : List α} : Closes (Leads edges) path → (∀ v ∈ path, Reaches edges roots v) →
      Stops edges roots (.cycle path)
  | refused {v : α} {cause : ε} : Reaches edges roots v → edges v = .error cause →
      Stops edges roots (.refused cause)

theorem Postordered.not_stops [DecidableEq α] (h : Postordered edges roots order)
    {interrupt : Interrupt ε α} : ¬ Stops edges roots interrupt := by
  rintro (⟨hcloses, hreached⟩ | ⟨hreached, hcause⟩)
  · obtain ⟨v, hv, hback⟩ := hcloses.exists_transGen
    exact absurd (h.after v v ((h.mem_iff v).mpr (hreached v hv)) hback) (Nat.lt_irrefl _)
  · obtain ⟨next, hnext⟩ := h.known _ ((h.mem_iff _).mpr hreached)
    exact absurd (hnext.symm.trans hcause) (by simp)

/-! ## The path of a walk -/

/-- The path of a walk leads from a root to its innermost vertex, and each of its vertices to what
is pending on it. -/
structure Threaded (edges : α → Except ε (List α)) (roots : List α) (path : List (Frame α)) :
    Prop where
  nodup : (path.map Frame.vertex).Nodup
  chain : (path.map Frame.vertex).IsChain fun inner outer => Leads edges outer inner
  reached : ∀ frame ∈ path, Reaches edges roots frame.vertex
  pending : ∀ frame ∈ path, ∀ w ∈ frame.pending, Leads edges frame.vertex w

namespace Threaded

variable {path rest : List (Frame α)} {v w : α} {next pending : List α}

theorem start (hv : Reaches edges roots v) (hnext : edges v = .ok next) :
    Threaded edges roots [⟨v, next⟩] where
  nodup := List.nodup_singleton v
  chain := .singleton v
  reached frame hframe := by
    rw [List.mem_singleton.mp hframe]
    exact hv
  pending frame hframe w hw := by
    rw [List.mem_singleton.mp hframe] at hw ⊢
    exact ⟨next, hnext, hw⟩

theorem finish (h : Threaded edges roots (⟨v, []⟩ :: rest)) : Threaded edges roots rest where
  nodup := (List.nodup_cons.mp h.nodup).2
  chain := h.chain.tail
  reached frame hframe := h.reached frame (List.mem_cons_of_mem _ hframe)
  pending frame hframe := h.pending frame (List.mem_cons_of_mem _ hframe)

theorem skip (h : Threaded edges roots (⟨v, w :: pending⟩ :: rest)) :
    Threaded edges roots (⟨v, pending⟩ :: rest) where
  nodup := h.nodup
  chain := h.chain
  reached frame hframe := by
    rcases List.mem_cons.mp hframe with rfl | hframe
    · exact h.reached ⟨v, w :: pending⟩ List.mem_cons_self
    · exact h.reached frame (List.mem_cons_of_mem _ hframe)
  pending frame hframe u hu := by
    rcases List.mem_cons.mp hframe with rfl | hframe
    · exact h.pending _ List.mem_cons_self u (List.mem_cons_of_mem _ hu)
    · exact h.pending frame (List.mem_cons_of_mem _ hframe) u hu

theorem leads_next (h : Threaded edges roots (⟨v, w :: pending⟩ :: rest)) : Leads edges v w :=
  h.pending _ List.mem_cons_self w List.mem_cons_self

theorem reaches_next (h : Threaded edges roots (⟨v, w :: pending⟩ :: rest)) :
    Reaches edges roots w :=
  Reaches.step (h.reached _ List.mem_cons_self) h.leads_next

theorem push (h : Threaded edges roots (⟨v, w :: pending⟩ :: rest))
    (hon : w ∉ (⟨v, pending⟩ :: rest : List (Frame α)).map Frame.vertex)
    (hnext : edges w = .ok next) :
    Threaded edges roots (⟨w, next⟩ :: ⟨v, pending⟩ :: rest) where
  nodup := List.nodup_cons.mpr ⟨hon, h.nodup⟩
  chain := .cons_cons h.leads_next h.chain
  reached frame hframe := by
    rcases List.mem_cons.mp hframe with rfl | hframe
    · exact h.reaches_next
    · exact h.skip.reached frame hframe
  pending frame hframe u hu := by
    rcases List.mem_cons.mp hframe with rfl | hframe
    · exact ⟨next, hnext, hu⟩
    · exact h.skip.pending frame hframe u hu

variable [DecidableEq α]

/-- The path from its outermost vertex on, cut where the cycle begins. -/
theorem exists_cut (hon : w ∈ path.map Frame.vertex) :
    ∃ before after, (path.map Frame.vertex).reverse = before ++ w :: after ∧ w ∉ before ∧
      closeCycle path w = w :: after ++ [w] := by
  obtain ⟨before, after, heq, hbefore⟩ := List.eq_append_cons_of_mem (List.mem_reverse.mpr hon)
  refine ⟨before, after, heq, hbefore, ?_⟩
  have hskip : ∀ u ∈ before, decide (u ≠ w) = true := fun u hu =>
    decide_eq_true fun huw => hbefore (huw ▸ hu)
  rw [closeCycle, heq, List.dropWhile_append_of_pos hskip, List.dropWhile_cons_of_neg (by simp)]

/-- A pending vertex that is on the path closes a cycle. -/
theorem closes (h : Threaded edges roots (⟨v, w :: pending⟩ :: rest))
    (hon : w ∈ (⟨v, pending⟩ :: rest : List (Frame α)).map Frame.vertex) :
    Closes (Leads edges) (closeCycle (⟨v, pending⟩ :: rest) w) ∧
      ∀ u ∈ closeCycle (⟨v, pending⟩ :: rest) w, Reaches edges roots u := by
  obtain ⟨before, after, heq, _, hcycle⟩ := exists_cut hon
  have hnodup : (before ++ w :: after).Nodup := heq ▸ List.nodup_reverse.mpr h.nodup
  have hchain : (before ++ (w :: after ++ [w])).IsChain (Leads edges) := by
    rw [← List.append_assoc, ← heq, ← List.reverse_cons]
    exact List.isChain_reverse.mpr (.cons_cons h.leads_next h.chain)
  rw [hcycle]
  refine ⟨⟨⟨w, after, rfl, (List.nodup_append.mp hnodup).2.1⟩, hchain.right_of_append⟩,
    fun u hu => ?_⟩
  rcases List.mem_append.mp hu with hu | hu
  · have hu : u ∈ (⟨v, pending⟩ :: rest : List (Frame α)).map Frame.vertex :=
      List.mem_reverse.mp (heq ▸ List.mem_append_right before hu)
    obtain ⟨frame, hframe, rfl⟩ := List.mem_map.mp hu
    exact h.skip.reached frame hframe
  · rw [List.mem_singleton.mp hu]
    exact h.reaches_next

end Threaded

/-! ## Stopped walks -/

variable [DecidableEq α]

theorem stops_of_visit {unvisited finished : List α} {path : List (Frame α)}
    {interrupt : Interrupt ε α} (h : visit edges unvisited path finished = .error interrupt)
    (ht : Threaded edges roots path) : Stops edges roots interrupt := by
  fun_induction visit edges unvisited path finished with
  | case1 => exact absurd h (by simp)
  | case2 unvisited finished v rest ih => exact ih h ht.finish
  | case3 unvisited finished v w pending rest hon =>
    obtain rfl := Except.error.inj h
    obtain ⟨hcloses, hreached⟩ := ht.closes hon
    exact .cycle hcloses hreached
  | case4 unvisited finished v w pending rest _ _ cause hcause =>
    obtain rfl := Except.error.inj h
    exact .refused ht.reaches_next hcause
  | case5 unvisited finished v w pending rest hon _ next hnext ih => exact ih h (ht.push hon hnext)
  | case6 unvisited finished v w pending rest _ _ ih => exact ih h ht.skip

theorem stops_of_visitRoots {unvisited finished left : List α} {interrupt : Interrupt ε α}
    (h : visitRoots edges unvisited finished left = .error interrupt) (hleft : left ⊆ roots) :
    Stops edges roots interrupt := by
  fun_induction visitRoots edges unvisited finished left with
  | case1 => exact absurd h (by simp)
  | case2 unvisited finished root left _ cause hcause =>
    obtain rfl := Except.error.inj h
    exact .refused ⟨root, hleft List.mem_cons_self, .refl⟩ hcause
  | case3 unvisited finished root left _ next hnext stop hvisit =>
    obtain rfl := Except.error.inj h
    exact stops_of_visit hvisit (.start ⟨root, hleft List.mem_cons_self, .refl⟩ hnext)
  | case4 _ _ _ _ _ _ _ _ _ _ ih => exact ih h fun u hu => hleft (List.mem_cons_of_mem _ hu)
  | case5 _ _ _ _ _ ih => exact ih h fun u hu => hleft (List.mem_cons_of_mem _ hu)

/-- A walk that does not finish is stopped by something that the roots lead to. -/
theorem stops_of_postorder {interrupt : Interrupt ε α}
    (h : postorder vertices edges roots = .error interrupt) : Stops edges roots interrupt := by
  unfold postorder at h
  cases hv : visitRoots edges vertices [] roots with
  | error stop =>
    obtain rfl : stop = interrupt := by simpa [hv, Except.map] using h
    exact stops_of_visitRoots hv (List.Subset.refl roots)
  | ok result => exact absurd h (by simp [hv, Except.map])

/-! ## Finished walks -/

theorem mem_of_reaches (hs : Spans vertices edges roots)
    (h : postorder vertices edges roots = .ok order) {v : α} (hv : Reaches edges roots v) :
    v ∈ order := by
  obtain ⟨root, hroot, hpath⟩ := hv
  induction hpath with
  | refl => exact mem_of_postorder h hroot (hs.mem root ⟨root, hroot, .refl⟩)
  | @tail v w hpath hlead ih =>
    obtain ⟨next, hnext, hw⟩ := hlead
    have hknown := hs.mem w ⟨root, hroot, hpath.tail ⟨next, hnext, hw⟩⟩
    have hlt := idxOf_lt_of_postorder h hs.nodup ih hnext hw hknown
    exact List.idxOf_lt_length_iff.mp (Nat.lt_trans hlt (List.idxOf_lt_length_of_mem ih))

/-- A walk over all that the roots lead to lists it in postorder. -/
theorem postordered_of_postorder (hs : Spans vertices edges roots)
    (h : postorder vertices edges roots = .ok order) : Postordered edges roots order := by
  have hmem : ∀ v, v ∈ order ↔ Reaches edges roots v := fun v =>
    ⟨reaches_of_postorder h, mem_of_reaches hs h⟩
  refine ⟨nodup_of_postorder h hs.nodup, hmem, fun v hv => ?_, fun v w hv hpath => ?_⟩
  · obtain ⟨_, hrank⟩ := (grounded_of_postorder h).exists_rank
    obtain ⟨_, next, hnext, _⟩ := hrank v (List.mem_reverse.mpr hv)
    exact ⟨next, hnext⟩
  · have hstep : ∀ {u w : α}, u ∈ order → Leads edges u w → order.idxOf w < order.idxOf u := by
      rintro u w hu ⟨next, hnext, hw⟩
      have hreach := ((hmem u).mp hu).step ⟨next, hnext, hw⟩
      exact idxOf_lt_of_postorder h hs.nodup hu hnext hw (hs.mem w hreach)
    induction hpath with
    | single hlead => exact hstep hv hlead
    | @tail u w hpath hlead ih =>
      have hu := List.idxOf_lt_length_iff.mp (Nat.lt_trans ih (List.idxOf_lt_length_of_mem hv))
      exact Nat.lt_trans (hstep hu hlead) ih

/-- The only root of an order comes last. -/
theorem Postordered.getLast?_eq {root : α} (h : Postordered edges [root] order) :
    order.getLast? = some root := by
  have hroot : root ∈ order := (h.mem_iff root).mpr ⟨root, List.mem_singleton_self _, .refl⟩
  rcases List.eq_nil_or_concat order with rfl | ⟨before, last, rfl⟩
  · exact absurd hroot List.not_mem_nil
  rw [List.concat_eq_append] at h hroot ⊢
  obtain ⟨_, hstart, hpath⟩ := (h.mem_iff last).mp (by simp)
  obtain rfl := List.mem_singleton.mp hstart
  rcases Relation.reflTransGen_iff_eq_or_transGen.mp hpath with rfl | hpath
  · simp
  · have hlast : last ∉ before := fun hmem =>
      (List.nodup_append.mp h.nodup).2.2 last hmem last (by simp) rfl
    have hlt := h.after _ last hroot hpath
    have hle := List.idxOf_lt_length_of_mem hroot
    simp only [List.idxOf_append_of_notMem hlast, List.idxOf_cons_self, List.length_append,
      List.length_singleton] at hlt hle
    omega

/-- A walk over all that the roots lead to finishes exactly if the successors of all of it are known
and no cycle is within reach. -/
theorem postorder_eq_ok_iff_acyclic (hs : Spans vertices edges roots) :
    (∃ order, postorder vertices edges roots = .ok order) ↔
      (∀ v, Reaches edges roots v → ∃ next, edges v = .ok next) ∧
        ¬ ∃ cycle, Closes (Leads edges) cycle ∧ ∀ v ∈ cycle, Reaches edges roots v := by
  constructor
  · rintro ⟨order, h⟩
    have hp := postordered_of_postorder hs h
    exact ⟨fun v hv => hp.known v ((hp.mem_iff v).mpr hv),
      fun ⟨cycle, hcloses, hreached⟩ => hp.not_stops (.cycle hcloses hreached)⟩
  · rintro ⟨hknown, hacyclic⟩
    cases h : postorder vertices edges roots with
    | ok order => exact ⟨order, rfl⟩
    | error interrupt =>
      cases stops_of_postorder h with
      | cycle hcloses hreached => exact absurd ⟨_, hcloses, hreached⟩ hacyclic
      | refused hreached hcause =>
        obtain ⟨next, hnext⟩ := hknown _ hreached
        exact absurd (hnext.symm.trans hcause) (by simp)

end Patchbay.DepthFirst
