import Mathlib
import Patchbay.Proofs.Flat.Flattening
import Patchbay.Proofs.Flat.Graph

/-!
# Ids of a flat graph

The entry keeps its ids, and the passes count on from the greatest of them: every occurrence below
the entry, instances included, gets a number of its own. Passes go level by level and through a
level by ascending id, so the numbers follow the paths of the occurrences, the shorter ones first
and those of one length in lexicographic order (`flatten_ids`).

The run is a sequence of steps (`Inlining.Step`). At every stage of it the paths that have a number
are a list in that order (`Counted`); a step appends the paths below the instance that it inlines
(`Counted.inline`), and so no path changes its number later.
-/

namespace Patchbay

/-- The greatest id of a patch is this one, zero where the patch has no nodes. -/
def Patch.HasGreatestId (patch : Patch) (greatest : Int) : Prop :=
  (patch.nodes = [] ∧ greatest = 0) ∨ IsGreatest {id | ∃ node ∈ patch.nodes, node.id = id} greatest

/-- The id of the node at a path: its own id in the entry; elsewhere the rank of the path, counted
on from the greatest id of the entry. -/
def globalId (greatest : Int) (paths : List (List Int)) (path : List Int) : Int :=
  match path with
  | [id] => id
  | path => greatest + (paths.idxOf path + 1 : Nat)

/-! ## Paths in order -/

section Order

variable {greatest : Int} {paths more : List (List Int)} {p q s t : List Int}

theorem shortlex_append (h : List.Shortlex (· < ·) p q) (hlength : p.length = q.length)
    (hlast : s.length = t.length) : List.Shortlex (· < ·) (p ++ s) (q ++ t) := by
  have hlex := (List.shortlex_iff_lex hlength).mp h
  clear h
  refine .of_lex (by simp [hlength, hlast]) ?_
  induction hlex with
  | nil => exact absurd hlength (by simp)
  | rel hab => exact .rel hab
  | cons _ ih => exact .cons (ih (Nat.succ.inj hlength))

theorem idxOf_lt_idxOf (hsorted : paths.Pairwise (List.Shortlex (· < ·))) (hp : p ∈ paths)
    (hq : q ∈ paths) (h : List.Shortlex (· < ·) p q) : paths.idxOf p < paths.idxOf q := by
  have hp' := List.idxOf_lt_length_iff.mpr hp
  have hq' := List.idxOf_lt_length_iff.mpr hq
  rcases Nat.lt_trichotomy (paths.idxOf p) (paths.idxOf q) with hlt | heq | hgt
  · exact hlt
  · obtain rfl := (List.idxOf_inj hp).mp heq
    exact absurd h (Std.Asymm.asymm _ _ h)
  · have hback := List.pairwise_iff_getElem.mp hsorted _ _ hq' hp' hgt
    rw [List.getElem_idxOf, List.getElem_idxOf] at hback
    exact absurd hback (Std.Asymm.asymm _ _ h)

theorem globalId_of_two_le (h : 2 ≤ p.length) :
    globalId greatest paths p = greatest + (paths.idxOf p + 1 : Nat) := by
  match p, h with
  | _ :: _ :: _, _ => rfl

end Order

/-- Paths of nodes that have a number. -/
inductive HasNumber (patch : Patch) (paths : List (List Int)) : List Int → Prop
  | own {node : Node} : node ∈ patch.nodes → HasNumber patch paths [node.id]
  | below {path : List Int} : 2 ≤ path.length → path ∈ paths → HasNumber patch paths path

namespace HasNumber

open Inlining (greatestId id_le_greatestId)

variable {patch : Patch} {paths more : List (List Int)} {p q : List Int}

/-- The number of a path does not change when others are appended. -/
theorem globalId_append (h : HasNumber patch paths p) (greatest : Int) :
    globalId greatest (paths ++ more) p = globalId greatest paths p := by
  cases h with
  | own hn => rfl
  | below hlength hmem =>
    rw [globalId_of_two_le hlength, globalId_of_two_le hlength, List.idxOf_append_of_mem hmem]

/-- Numbers follow the order of the paths. -/
theorem globalId_lt (hsorted : paths.Pairwise (List.Shortlex (· < ·)))
    (hp : HasNumber patch paths p) (hq : HasNumber patch paths q)
    (h : List.Shortlex (· < ·) p q) :
    globalId (greatestId patch) paths p < globalId (greatestId patch) paths q := by
  cases hp with
  | @own m hm =>
    cases hq with
    | own hn => exact (List.shortlex_singleton_iff _ _).mp h
    | below hlength hmem =>
      have := id_le_greatestId hm
      rw [globalId_of_two_le hlength]
      show m.id < _
      omega
  | below hlength hmem =>
    cases hq with
    | own hn =>
      rcases List.shortlex_def.mp h with h | h
      · exact absurd (Nat.lt_of_le_of_lt hlength h) (by simp)
      · exact absurd (h.1 ▸ hlength) (by simp)
    | below hlength' hmem' =>
      have := idxOf_lt_idxOf hsorted hmem hmem' h
      rw [globalId_of_two_le hlength, globalId_of_two_le hlength']
      omega

theorem shortlex_of_globalId_lt (hsorted : paths.Pairwise (List.Shortlex (· < ·)))
    (hp : HasNumber patch paths p) (hq : HasNumber patch paths q)
    (h : globalId (greatestId patch) paths p < globalId (greatestId patch) paths q) :
    List.Shortlex (· < ·) p q := by
  rcases Std.Trichotomous.rel_or_eq_or_rel_swap (r := List.Shortlex (· < ·)) (a := p) (b := q) with
    hpq | rfl | hqp
  · exact hpq
  · exact absurd h (lt_irrefl _)
  · exact absurd h (lt_asymm (globalId_lt hsorted hq hp hqp))

theorem globalId_inj (hsorted : paths.Pairwise (List.Shortlex (· < ·)))
    (hp : HasNumber patch paths p) (hq : HasNumber patch paths q)
    (h : globalId (greatestId patch) paths p = globalId (greatestId patch) paths q) : p = q := by
  rcases Std.Trichotomous.rel_or_eq_or_rel_swap (r := List.Shortlex (· < ·)) (a := p) (b := q) with
    hpq | rfl | hqp
  · exact absurd h (globalId_lt hsorted hp hq hpq).ne
  · rfl
  · exact absurd h (globalId_lt hsorted hq hp hqp).ne'

end HasNumber

namespace Inlining

/-! ## Stages of the run -/

/-- A step of the run, with the instances that the pass still has to inline: a pass begins with all
the instances there are, or inlines the next one. -/
inductive Step : Inlining × List Int → Inlining × List Int → Prop
  | turn {c : Inlining} {id : Int} {ids : List Int} : c.pending = .ok (id :: ids) →
      Step (c, []) ({ c with passes := c.passes + 1 }, id :: ids)
  | inline {c c' : Inlining} {id : Int} {ids : List Int} : c.inline id = .ok c' →
      Step (c, id :: ids) (c', ids)

/-- The graphs that the run goes through once the entry is in. -/
def Stage (closure : Closure) (c : Inlining) (waiting : List Int) : Prop :=
  ∃ c₀, (entered closure).addLinks closure.entry (ownPlaces closure.entry) = .ok c₀ ∧
    Relation.ReflTransGen Step (c₀, []) (c, waiting)

variable {closure : Closure} {c c' : Inlining}

theorem steps_of_inlineAll {ids : List Int} (h : c.inlineAll ids = .ok c') :
    Relation.ReflTransGen Step (c, ids) (c', []) := by
  induction ids generalizing c with
  | nil =>
    obtain rfl := Except.ok.inj h
    exact .refl
  | cons id ids ih =>
    obtain ⟨d, hd, hrest⟩ := bind_eq_ok.mp h
    exact .head (.inline hd) (ih hrest)

theorem steps_of_expand {fuel : Nat} (h : expand fuel c = .ok c') :
    Relation.ReflTransGen Step (c, []) (c', []) := by
  induction fuel generalizing c with
  | zero =>
    obtain rfl := Except.ok.inj h
    exact .refl
  | succ fuel ih =>
    unfold expand at h
    split at h
    · exact absurd h (by simp)
    · obtain rfl := Except.ok.inj h
      exact .refl
    · next id ids hpending =>
      obtain ⟨d, hd, hrest⟩ := bind_eq_ok.mp h
      exact .head (.turn hpending) ((steps_of_inlineAll hd).trans (ih hrest))

/-- The run ends in a stage of it. -/
theorem stage_of_run (hs : closure.Sound) (h : (start closure).run = .ok c) :
    Stage closure c [] := by
  rw [run_eq hs] at h
  obtain ⟨c₀, hc₀, hexpand⟩ := bind_eq_ok.mp h
  exact ⟨c₀, hc₀, steps_of_expand hexpand⟩

/-- The run has no choice. -/
theorem rightUnique_step : Relator.RightUnique Step := by
  intro s t u h h'
  cases h with
  | turn hpending =>
    cases h' with
    | turn hpending' =>
      obtain ⟨rfl, rfl⟩ := List.cons.inj (Except.ok.inj (hpending.symm.trans hpending'))
      rfl
  | inline hinline =>
    cases h' with
    | inline hinline' => rw [Except.ok.inj (hinline.symm.trans hinline')]

/-- A stage leads to every stage from which no step goes on. -/
theorem Stage.steps {waiting : List Int} (h : Stage closure c waiting)
    (hlast : Stage closure c' []) (hend : ∀ s, ¬ Step (c', []) s) :
    Relation.ReflTransGen Step (c, waiting) (c', []) := by
  obtain ⟨c₀, hc₀, hsteps⟩ := h
  obtain ⟨d₀, hd₀, hsteps'⟩ := hlast
  obtain rfl := Except.ok.inj (hc₀.symm.trans hd₀)
  rcases Relation.ReflTransGen.total_of_right_unique rightUnique_step hsteps hsteps' with
    h | h
  · exact h
  · rcases h.cases_head with heq | ⟨s, hs, _⟩
    · rw [heq]
    · exact absurd hs (hend s)

/-! ## What a stage has numbered -/

/-- A node of a stage under its number. An instance that waits lies on the level that is being
inlined, and what is below it will come after all that has a number; other instances lie one level
deeper. -/
structure Counts (closure : Closure) (sites : List Site) (paths : List (List Int)) (level : Nat)
    (waiting : List Int) (flat : FlatNode) (site : Site) (node : Node) (path : List Int) :
    Prop where
  leaf : Leaf sites site node path
  shows' : Shows site node flat
  id_eq : flat.id = globalId (greatestId closure.entry) paths path
  next : flat.id ∈ waiting → path.length = level ∧
    ∀ p ∈ paths, ∀ id, List.Shortlex (· < ·) p (path ++ [id])
  later : IsInstance closure flat → flat.id ∉ waiting → path.length = level + 1

/-- A stage of the run that has these sites opened and these paths numbered, while it inlines the
instances of a level. -/
structure Counted (closure : Closure) (sites : List Site) (paths : List (List Int)) (level : Nat)
    (waiting : List Int) (c : Inlining) : Prop where
  unfolds : Unfolds closure sites c
  ordered : paths.Pairwise (List.Shortlex (· < ·))
  mem_iff : ∀ path, path ∈ paths ↔ 2 ≤ path.length ∧
    ∃ site ∈ sites, ∃ node ∈ site.patch.nodes, path = site.path ++ [node.id]
  maxId_eq : c.maxId = greatestId closure.entry + paths.length
  length_le : ∀ path ∈ paths, path.length ≤ level + 1
  ascending : waiting.Pairwise (· < ·)
  waits : ∀ id ∈ waiting, ∃ flat ∈ c.nodes, flat.id = id ∧ IsInstance closure flat
  counts : ∀ flat ∈ c.nodes, ∃ site node path,
    Counts closure sites paths level waiting flat site node path

variable {sites : List Site} {paths : List (List Int)} {level : Nat} {waiting : List Int}
  {site : Site} {node : Node} {path : List Int}

/-- An occurrence has a number once its path is numbered. -/
theorem hasNumber_of_occurs (hs : closure.Sound) (ho : closure.Occurs site node path)
    (hmem : 2 ≤ path.length → path ∈ paths) : HasNumber closure.entry paths path := by
  by_cases hlength : 2 ≤ path.length
  · exact .below hlength (hmem hlength)
  · have hroot : site.path = [] := by
      have := congrArg List.length ho.path_eq
      rw [List.length_append, List.length_singleton] at this
      exact List.length_eq_zero_iff.mp (by omega)
    obtain rfl : site = entrySite closure := hs.stands_unique ho.stands .entry hroot
    rw [ho.path_eq]
    exact .own ho.mem

namespace Counted

variable (hk : Counted closure sites paths level waiting c) (hs : closure.Sound)

include hk in
theorem occurs_of_leaf (hleaf : Leaf sites site node path) : closure.Occurs site node path :=
  ⟨hk.unfolds.cut.stands site hleaf.site_mem, hleaf.node_mem, hleaf.path_eq⟩

include hk hs in
theorem hasNumber (hleaf : Leaf sites site node path) : HasNumber closure.entry paths path :=
  hasNumber_of_occurs hs (hk.occurs_of_leaf hleaf) fun hlength =>
    (hk.mem_iff path).mpr ⟨hlength, site, hleaf.site_mem, node, hleaf.node_mem, hleaf.path_eq⟩

end Counted

/-! ### The entry -/

theorem counted_enter (hs : closure.Sound)
    (h : (entered closure).addLinks closure.entry (ownPlaces closure.entry) = .ok c) :
    Counted closure [entrySite closure] [] 0 [] c := by
  rcases enter_cases hs with ⟨_, hstop, _⟩ | ⟨d, links, edges, hok, heq, he⟩
  · exact absurd (hstop.symm.trans h) (by simp)
  obtain rfl := Except.ok.inj (hok.symm.trans h)
  subst heq
  refine ⟨he.unfolds hs, .nil, fun path => ?_, ?_, by simp, .nil, by simp, fun flat hflat => ?_⟩
  · refine iff_of_false List.not_mem_nil fun ⟨hlength, site, hsite, node, _, hpath⟩ => ?_
    rw [hpath, List.mem_singleton.mp hsite] at hlength
    exact absurd hlength (by simp [entrySite])
  · show greatestId closure.entry = _
    simp
  · obtain ⟨node, hn, rfl⟩ := mem_entryNodes_iff.mp hflat
    exact ⟨_, node, [node.id], leaf_entry_iff.mpr ⟨rfl, hn, rfl⟩, shows_entry node, rfl,
      fun hid => absurd hid List.not_mem_nil, fun _ _ => rfl⟩

/-! ### A new pass -/

theorem pairwise_pending {ids : List Int} (h : c.pending = .ok ids) : ids.Pairwise (· ≤ ·) := by
  obtain ⟨found, _, rfl⟩ := map_eq_ok.mp h
  exact Keyed.pairwise_mergeSort_le (fun id => id) found

/-- The instances that are left when a pass ends lie one level deeper, and there they wait. -/
theorem Counted.turn (hs : closure.Sound) (hk : Counted closure sites paths level [] c)
    (h : c.pending = .ok waiting) :
    Counted closure sites paths (level + 1) waiting { c with passes := c.passes + 1 } := by
  obtain ⟨ids, hids, hnodup, hmem⟩ := pending_cases hs hk.unfolds.sound
  obtain rfl := Except.ok.inj (hids.symm.trans h)
  refine ⟨hk.unfolds.withPasses _, hk.ordered, hk.mem_iff, hk.maxId_eq, fun path hpath => ?_, ?_,
    fun id hid => (hmem id).mp hid, fun flat hflat => ?_⟩
  · have := hk.length_le path hpath
    omega
  · exact ((pairwise_pending h).and hnodup).imp fun ⟨hle, hne⟩ => lt_of_le_of_ne hle hne
  · obtain ⟨site, node, path, hcounts⟩ := hk.counts flat hflat
    refine ⟨site, node, path, hcounts.leaf, hcounts.shows', hcounts.id_eq, fun hid => ?_,
      fun hinst hnot => absurd ((hmem _).mpr ⟨flat, hflat, rfl, hinst⟩) hnot⟩
    have hinst : IsInstance closure flat := by
      obtain ⟨other, hother, heq, hinst⟩ := (hmem _).mp hid
      rwa [hk.unfolds.sound.eq_of_id_eq hother hflat heq] at hinst
    have hlength := hcounts.later hinst List.not_mem_nil
    refine ⟨hlength, fun p hp i => .of_length_lt ?_⟩
    have := hk.length_le p hp
    rw [List.length_append, List.length_singleton]
    omega

/-! ### An instance inlined -/

/-- The paths of the nodes of a patch below a path, by ascending id. -/
def pathsBelow (path : List Int) (patch : Patch) : List (List Int) :=
  patch.sortedNodes.map fun node => path ++ [node.id]

variable {patch : Patch} {p : List Int}

theorem mem_pathsBelow_iff :
    p ∈ pathsBelow path patch ↔ ∃ node ∈ patch.nodes, p = path ++ [node.id] := by
  simp only [pathsBelow, List.mem_map, mem_sortedNodes, eq_comm]

theorem pairwise_pathsBelow (hp : patch.Sound) (path : List Int) :
    (pathsBelow path patch).Pairwise (List.Shortlex (· < ·)) := by
  refine List.pairwise_map.mpr ((pairwise_sortedNodes hp).imp fun {m n} h => ?_)
  exact ((List.shortlex_singleton_iff m.id n.id).mpr h).append_left path

/-- A number tells the place of its node in the order. -/
theorem idxOf_of_numbered {nodes : List Node} {f : Node → List Int} {first i : Int}
    (hf : ∀ m ∈ nodes, ∀ n ∈ nodes, f m = f n → m.id = n.id)
    (hnodes : (nodes.map Node.id).Nodup) (h : (i, node) ∈ numbered first nodes) :
    i = first + ((nodes.map f).idxOf (f node) : Nat) := by
  induction nodes generalizing first with
  | nil => exact absurd h List.not_mem_nil
  | cons m rest ih =>
    obtain ⟨hm, hrest⟩ := List.nodup_cons.mp hnodes
    rcases List.mem_cons.mp h with h | h
    · obtain ⟨rfl, rfl⟩ := Prod.mk.inj h
      simp
    · have hn := mem_of_numbered h
      have hne : f m ≠ f node := fun heq => hm
        (hf m List.mem_cons_self node (List.mem_cons_of_mem _ hn) heq ▸ List.mem_map_of_mem hn)
      have hi := ih (fun a ha b hb => hf a (List.mem_cons_of_mem _ ha) b
        (List.mem_cons_of_mem _ hb)) hrest h
      rw [List.map_cons, List.idxOf_cons_ne _ hne]
      omega

namespace Counted

variable {owner : FlatNode} (hk : Counted closure sites paths level (owner.id :: waiting) c)
  (hs : closure.Sound) (ho : Opens closure sites c site node path owner patch c')
  (hcounts : Counts closure sites paths level (owner.id :: waiting) owner site node path)

include hk hs ho hcounts in
/-- The other nodes keep their numbers, and those that wait come after what is below the instance
too. -/
theorem counts_of_ne {flat : FlatNode} (hflat : flat ∈ c.nodes) (hne : flat.id ≠ owner.id) :
    ∃ s m p, Counts closure (opened path node patch :: sites) (paths ++ pathsBelow path patch)
      level waiting flat s m p := by
  obtain ⟨s, m, p, hflatcounts⟩ := hk.counts flat hflat
  have hnumber := hk.hasNumber hs hflatcounts.leaf
  refine ⟨s, m, p,
    hflatcounts.leaf.insert (ho.ne_path_of_ne hflat hflatcounts.leaf hflatcounts.shows' hne),
    hflatcounts.shows', ?_, fun hid => ?_, fun hinst hnot => ?_⟩
  · rw [hnumber.globalId_append]
    exact hflatcounts.id_eq
  · obtain ⟨hlength, hbehind⟩ := hflatcounts.next (List.mem_cons_of_mem _ hid)
    refine ⟨hlength, fun q hq i => ?_⟩
    rcases List.mem_append.mp hq with hq | hq
    · exact hbehind q hq i
    · obtain ⟨n, _, rfl⟩ := mem_pathsBelow_iff.mp hq
      have hids := (List.pairwise_cons.mp hk.ascending).1 flat.id hid
      rw [hcounts.id_eq, hflatcounts.id_eq] at hids
      have hpaths := (hk.hasNumber hs hcounts.leaf).shortlex_of_globalId_lt hk.ordered hnumber hids
      exact shortlex_append hpaths ((hcounts.next List.mem_cons_self).1.trans hlength.symm) rfl
  · exact hflatcounts.later hinst fun hid => (List.mem_cons.mp hid).elim hne hnot

include hk hs ho hcounts in
/-- The copies are numbered in the order of their paths. -/
theorem counts_copy {i : Int} {n : Node} (hnum : Numbered patch (c.maxId + 1) i n) :
    Counts closure (opened path node patch :: sites) (paths ++ pathsBelow path patch) level waiting
      (copyOf owner.properties.sorted owner.debugId (i, n)) (opened path node patch) n
      (path ++ [n.id]) := by
  have hp := hs.patch_sound _ ho.instance'.1
  have hn := mem_sortedNodes.mp (mem_of_numbered hnum)
  obtain ⟨hlength, hbehind⟩ := hcounts.next List.mem_cons_self
  have hlong : 2 ≤ (path ++ [n.id]).length := by
    have := List.length_pos_of_ne_nil ho.leaf.ne_nil
    rw [List.length_append, List.length_singleton]
    omega
  refine ⟨ho.leaf_of_mem hn, ho.shows_copy hs, ?_, fun hid => ?_, fun _ _ => ?_⟩
  · have hfresh : path ++ [n.id] ∉ paths := fun hmem =>
      absurd (hbehind _ hmem n.id) (Std.Irrefl.irrefl _)
    have hi := idxOf_of_numbered (f := fun m => path ++ [m.id])
      (fun a _ b _ hab => by simpa using hab) (nodup_sortedNodes hp) hnum
    rw [globalId_of_two_le hlong, List.idxOf_append_of_notMem hfresh]
    show i = _
    have := hk.maxId_eq
    unfold pathsBelow
    omega
  · obtain ⟨flat, hflat, hflatid, _⟩ := hk.waits _ (List.mem_cons_of_mem _ hid)
    have := hk.unfolds.sound.id_le flat hflat
    have := le_of_numbered hnum
    simp only [copyOf] at hflatid
    omega
  · rw [List.length_append, hlength, List.length_singleton]

include hk hcounts in
theorem ordered_inline (hp : patch.Sound) :
    (paths ++ pathsBelow path patch).Pairwise (List.Shortlex (· < ·)) := by
  refine List.pairwise_append.mpr ⟨hk.ordered, pairwise_pathsBelow hp path, fun p hmem q hq => ?_⟩
  obtain ⟨n, _, rfl⟩ := mem_pathsBelow_iff.mp hq
  exact (hcounts.next List.mem_cons_self).2 p hmem n.id

include hk ho in
theorem mem_iff_inline (p : List Int) : p ∈ paths ++ pathsBelow path patch ↔ 2 ≤ p.length ∧
    ∃ s ∈ opened path node patch :: sites, ∃ m ∈ s.patch.nodes, p = s.path ++ [m.id] := by
  have := List.length_pos_of_ne_nil ho.leaf.ne_nil
  rw [List.mem_append, hk.mem_iff, mem_pathsBelow_iff, List.exists_mem_cons_iff, and_or_left,
    or_comm]
  refine or_congr_left ⟨fun hp => ⟨?_, hp⟩, fun hp => hp.2⟩
  obtain ⟨n, _, rfl⟩ := hp
  rw [List.length_append, List.length_singleton]
  omega

end Counted

/-- To inline the next instance opens a site on the level of the pass, and numbers the paths below
it. -/
theorem Counted.inline {id : Int} (hs : closure.Sound)
    (hk : Counted closure sites paths level (id :: waiting) c) (h : c.inline id = .ok c') :
    ∃ site added, Counted closure (site :: sites) (paths ++ added) level waiting c' ∧
      site.path.length = level ∧
      ∀ node ∈ site.patch.nodes, ∃ flat ∈ c'.nodes, Shows site node flat := by
  obtain ⟨owner, howner, rfl, patch, hpatch⟩ := hk.waits id List.mem_cons_self
  rcases Inlining.inline_cases hs hk.unfolds.sound howner hpatch with
    ⟨_, hstop, _⟩ | ⟨d, hok, hin⟩
  · exact absurd (hstop.symm.trans h) (by simp)
  obtain rfl := Except.ok.inj (hok.symm.trans h)
  obtain ⟨site, node, path, hcounts⟩ := hk.counts owner howner
  have ho : Opens closure sites c site node path owner patch d :=
    ⟨hk.unfolds, hcounts.leaf, howner, hcounts.shows', hpatch, hin⟩
  obtain ⟨hfirst, hascending⟩ := List.pairwise_cons.mp hk.ascending
  refine ⟨opened path node patch, pathsBelow path patch,
    ⟨ho.unfolds_insert hs, hk.ordered_inline hcounts (hs.patch_sound _ hpatch.1),
      hk.mem_iff_inline ho, ?_, fun p hp => ?_, hascending, fun i hi => ?_, fun flat hflat => ?_⟩,
    (hcounts.next List.mem_cons_self).1, fun n hn => ho.node_of_leaf hs (ho.leaf_of_mem hn)⟩
  · rw [hin.maxId_eq, hk.maxId_eq, List.length_append, pathsBelow, List.length_map,
      length_sortedNodes]
    omega
  · rcases List.mem_append.mp hp with hp | hp
    · exact hk.length_le p hp
    · obtain ⟨n, _, rfl⟩ := mem_pathsBelow_iff.mp hp
      rw [List.length_append, (hcounts.next List.mem_cons_self).1, List.length_singleton]
  · obtain ⟨flat, hflat, rfl, hinst⟩ := hk.waits i (List.mem_cons_of_mem _ hi)
    exact ⟨flat, hin.mem_nodes_iff.mpr (.inl ⟨hflat, (hfirst _ hi).ne'⟩), rfl, hinst⟩
  · rcases hin.mem_nodes_iff.mp hflat with ⟨hold, hne⟩ | ⟨i, n, hnum, rfl⟩
    · exact hk.counts_of_ne hs ho hcounts hold hne
    · exact ⟨_, n, _, hk.counts_copy hs ho hcounts hnum⟩

/-! ### The whole run -/

/-- The nodes of these sites are shown at some stage. -/
def Seen (closure : Closure) (sites : List Site) : Prop :=
  ∀ site ∈ sites, ∀ node ∈ site.patch.nodes, ∃ stage waiting, Stage closure stage waiting ∧
    ∃ flat ∈ stage.nodes, Shows site node flat

/-- A step numbers more paths, behind those that have a number. -/
theorem Counted.step {s t : Inlining × List Int} (hs : closure.Sound)
    (hk : Counted closure sites paths level s.2 s.1) (h : Step s t) :
    ∃ sites' added level', Counted closure sites' (paths ++ added) level' t.2 t.1 ∧
      ∀ site ∈ sites', site ∈ sites ∨
        ∀ node ∈ site.patch.nodes, ∃ flat ∈ t.1.nodes, Shows site node flat := by
  cases h with
  | turn hpending =>
    exact ⟨sites, [], level + 1, by rw [List.append_nil]; exact hk.turn hs hpending,
      fun _ hsite => .inl hsite⟩
  | inline hinline =>
    obtain ⟨site, added, hk', _, hseen⟩ := hk.inline hs hinline
    refine ⟨site :: sites, added, level, hk', fun s hsite => ?_⟩
    rcases List.mem_cons.mp hsite with rfl | hsite
    · exact .inr hseen
    · exact .inl hsite

theorem Counted.steps {s t : Inlining × List Int} (hs : closure.Sound)
    (hk : Counted closure sites paths level s.2 s.1) (h : Relation.ReflTransGen Step s t) :
    ∃ sites' added level', Counted closure sites' (paths ++ added) level' t.2 t.1 := by
  induction h with
  | refl => exact ⟨sites, [], level, by rw [List.append_nil]; exact hk⟩
  | tail _ hstep ih =>
    obtain ⟨sites', added, level', hk'⟩ := ih
    obtain ⟨sites'', more, level'', hk'', _⟩ := hk'.step hs hstep
    exact ⟨sites'', added ++ more, level'', by rw [← List.append_assoc]; exact hk''⟩

/-- Every stage has numbered what it has opened, all of which was shown. -/
theorem Stage.counted (hs : closure.Sound) (h : Stage closure c waiting) :
    ∃ sites paths level, Counted closure sites paths level waiting c ∧ Seen closure sites := by
  obtain ⟨c₀, hc₀, hsteps⟩ := h
  -- The induction is on the steps up to a stage, whatever it is.
  suffices ∀ t, Relation.ReflTransGen Step (c₀, []) t → ∃ sites paths level,
      Counted closure sites paths level t.2 t.1 ∧ Seen closure sites from this _ hsteps
  intro t hsteps
  induction hsteps with
  | refl =>
    have hk := counted_enter hs hc₀
    refine ⟨_, _, _, hk, fun site hsite node hn => ⟨c₀, [], ⟨c₀, hc₀, .refl⟩, ?_⟩⟩
    obtain rfl := List.mem_singleton.mp hsite
    exact hk.unfolds.node_of_leaf _ node [node.id] (leaf_entry_iff.mpr ⟨rfl, hn, rfl⟩)
  | @tail _ t hsteps hstep ih =>
    obtain ⟨sites, paths, level, hk, hseen⟩ := ih
    obtain ⟨sites', added, level', hk', hnew⟩ := hk.step hs hstep
    refine ⟨sites', _, level', hk', fun site hsite node hn => ?_⟩
    rcases hnew site hsite with hold | hshown
    · exact hseen site hold node hn
    · exact ⟨t.1, t.2, ⟨c₀, hc₀, hsteps.tail hstep⟩, hshown node hn⟩

theorem run_of_flatten {graph : FlatGraph} (hf : closure.flatten = .ok graph) :
    ∃ c, (start closure).run = .ok c ∧ graph = c.graph := by
  unfold Closure.flatten at hf
  split at hf
  · next c hrun => exact ⟨c, hrun, (Except.ok.inj hf).symm⟩
  · exact absurd hf (by simp)

theorem no_step_of_primitive (hs : closure.Sound) (hsound : Sound closure c)
    (hprimitive : ∀ flat ∈ c.nodes, ¬ IsInstance closure flat) (s : Inlining × List Int) :
    ¬ Step (c, []) s := by
  intro hstep
  cases hstep with
  | turn hpending =>
    obtain ⟨found, hfound, _, hmem⟩ := pending_cases hs hsound
    obtain rfl := Except.ok.inj (hfound.symm.trans hpending)
    obtain ⟨flat, hflat, _, hinst⟩ := (hmem _).mp List.mem_cons_self
    exact hprimitive flat hflat hinst

/-- Where no instance is left, the occurrences below the entry have a number. -/
theorem Counted.mem_iff_occurs (hs : closure.Sound)
    (hk : Counted closure sites paths level waiting c)
    (hprimitive : ∀ flat ∈ c.nodes, ¬ IsInstance closure flat) (p : List Int) :
    p ∈ paths ↔ 2 ≤ p.length ∧ ∃ site node, closure.Occurs site node p := by
  have hstands := (hk.unfolds.complete hs hprimitive).mem_iff
  rw [hk.mem_iff]
  refine and_congr_right fun _ => ⟨?_, ?_⟩
  · rintro ⟨site, hsite, node, hn, hpath⟩
    exact ⟨site, node, (hstands site).mp hsite, hn, hpath⟩
  · rintro ⟨site, node, hoccurs⟩
    exact ⟨site, (hstands site).mpr hoccurs.stands, node, hoccurs.mem, hoccurs.path_eq⟩

/-- The same paths have a number wherever no instance is left. -/
theorem Counted.paths_eq (hs : closure.Sound) {sites' : List Site} {paths' : List (List Int)}
    {level' : Nat} {waiting' : List Int} (hk : Counted closure sites paths level waiting c)
    (hk' : Counted closure sites' paths' level' waiting' c)
    (hprimitive : ∀ flat ∈ c.nodes, ¬ IsInstance closure flat) : paths = paths' := by
  have hmem : ∀ p, p ∈ paths ↔ p ∈ paths' := fun p =>
    (hk.mem_iff_occurs hs hprimitive p).trans (hk'.mem_iff_occurs hs hprimitive p).symm
  have hperm : paths.Perm paths' :=
    (List.perm_ext_iff_of_nodup (hk.ordered.imp fun h => ne_of_irrefl h)
      (hk'.ordered.imp fun h => ne_of_irrefl h)).mpr hmem
  exact hperm.eq_of_pairwise (fun _ _ _ _ h h' => absurd h' (Std.Asymm.asymm _ _ h)) hk.ordered
    hk'.ordered

/-- What a stage shows has the number that its path has at the end. -/
theorem Counted.id_of_stage (hs : closure.Sound) (hk : Counted closure sites paths level [] c)
    (hprimitive : ∀ flat ∈ c.nodes, ¬ IsInstance closure flat) (hlast : Stage closure c [])
    {stage : Inlining} (hstage : Stage closure stage waiting) {flat : FlatNode}
    (hflat : flat ∈ stage.nodes) (hoccurs : closure.Occurs site node path)
    (hshows : Shows site node flat) :
    flat.id = globalId (greatestId closure.entry) paths path := by
  obtain ⟨sites', paths', level', hk', _⟩ := hstage.counted hs
  obtain ⟨site', node', path', hcounts⟩ := hk'.counts flat hflat
  have hpath : path' = path := by
    rw [hcounts.leaf.path_eq, hoccurs.path_eq]
    exact spell_injective (by simp) (by simp)
      (hcounts.shows'.debugId_eq.symm.trans hshows.debugId_eq)
  have hsteps := hstage.steps hlast (no_step_of_primitive hs hk.unfolds.sound hprimitive)
  obtain ⟨sites'', added, level'', hk''⟩ := hk'.steps hs hsteps
  have hpaths : paths' ++ added = paths := hk''.paths_eq hs hk hprimitive
  rw [← hpaths, ← hpath, (hk'.hasNumber hs hcounts.leaf).globalId_append]
  exact hcounts.id_eq

theorem foldl_max_mem (greatest : Int) (ids : List Int) :
    ids.foldl max greatest ∈ greatest :: ids := by
  induction ids generalizing greatest with
  | nil => exact List.mem_singleton_self _
  | cons id ids ih =>
    rcases List.mem_cons.mp (ih (max greatest id)) with h | h
    · rw [List.foldl_cons, h]
      rcases max_choice greatest id with h | h
      · simp [h]
      · simp [h]
    · exact List.mem_cons_of_mem _ (List.mem_cons_of_mem _ h)

theorem hasGreatestId_greatestId (patch : Patch) : patch.HasGreatestId (greatestId patch) := by
  cases hnodes : patch.nodes with
  | nil => exact .inl ⟨hnodes, by simp [greatestId, hnodes]⟩
  | cons node nodes =>
    have hmem := foldl_max_mem node.id (nodes.map Node.id)
    rw [← List.map_cons, ← hnodes] at hmem
    obtain ⟨n, hn, hid⟩ := List.mem_map.mp hmem
    refine .inr ⟨⟨n, hn, by simpa [greatestId, hnodes] using hid⟩, ?_⟩
    rintro _ ⟨m, hm, rfl⟩
    exact id_le_greatestId hm

end Inlining

open Inlining

/-- The ids that a run hands out follow the paths of the occurrences: each path below the entry has
the number of its rank, the shorter ones first and those of one length in lexicographic order. -/
structure IdsInOrder (closure : Closure) (c : Inlining) (greatest : Int) (paths : List (List Int)) :
    Prop where
  ordered : paths.Pairwise (List.Shortlex (· < ·))
  mem_iff : ∀ path, path ∈ paths ↔ 2 ≤ path.length ∧ ∃ site node, closure.Occurs site node path
  maxId_eq : c.maxId = greatest + paths.length
  /-- Every occurrence is shown at some stage of the run. -/
  shown : ∀ site node path, closure.Occurs site node path →
    ∃ stage waiting, Stage closure stage waiting ∧ ∃ flat ∈ stage.nodes, Shows site node flat
  /-- A stage shows nothing else. -/
  occurs : ∀ stage waiting, Stage closure stage waiting → ∀ flat ∈ stage.nodes,
    ∃ site node path, closure.Occurs site node path ∧ Shows site node flat
  /-- What a stage shows of an occurrence has the number of its path. -/
  id_eq : ∀ stage waiting, Stage closure stage waiting → ∀ flat ∈ stage.nodes,
    ∀ site node path, closure.Occurs site node path → Shows site node flat →
      flat.id = globalId greatest paths path
  /-- No id is used twice. -/
  id_inj : ∀ s m p t n q, closure.Occurs s m p → closure.Occurs t n q →
    globalId greatest paths p = globalId greatest paths q → p = q

/-- Global ids follow the order of the tree of instances by levels. -/
theorem flatten_ids {document : Value} {project : Project} {entryPath : String} {strict : Bool}
    {closure : Closure} {graph : FlatGraph} (hp : Document.project document = .ok project)
    (hc : Closure.ofEntry project entryPath strict = .ok closure)
    (hf : closure.flatten = .ok graph) :
    ∃ c greatest paths, (start closure).run = .ok c ∧ graph = c.graph ∧ Stage closure c [] ∧
      closure.entry.HasGreatestId greatest ∧ IdsInOrder closure c greatest paths := by
  have hs := Closure.sound_of_ofEntry hp hc
  obtain ⟨c, hrun, rfl⟩ := run_of_flatten hf
  obtain ⟨d, _, hgraph, hcomplete⟩ := complete_of_flatten hs hf
  have hprimitive : ∀ flat ∈ c.nodes, ¬ IsInstance closure flat := fun flat hflat =>
    hcomplete.primitive flat (mem_graph_nodes_iff.mp (hgraph ▸ mem_graph_nodes_iff.mpr hflat))
  have hlast := stage_of_run hs hrun
  obtain ⟨sites, paths, level, hk, hseen⟩ := hlast.counted hs
  have hmem := hk.mem_iff_occurs hs hprimitive
  have hnumber : ∀ site node path, closure.Occurs site node path →
      HasNumber closure.entry paths path := fun site node path hoccurs =>
    hasNumber_of_occurs hs hoccurs fun hlength => (hmem path).mpr ⟨hlength, site, node, hoccurs⟩
  refine ⟨c, _, paths, hrun, rfl, hlast, hasGreatestId_greatestId _, hk.ordered, hmem, hk.maxId_eq,
    fun site node path hoccurs => ?_, fun stage waiting hstage flat hflat => ?_,
    fun stage waiting hstage flat hflat site node path hoccurs hshows => ?_,
    fun s m p t n q hp hq => (hnumber s m p hp).globalId_inj hk.ordered (hnumber t n q hq)⟩
  · have hsite := ((hk.unfolds.complete hs hprimitive).mem_iff site).mpr hoccurs.stands
    exact hseen site hsite node hoccurs.mem
  · obtain ⟨sites', paths', level', hk', _⟩ := hstage.counted hs
    obtain ⟨site, node, path, hcounts⟩ := hk'.counts flat hflat
    exact ⟨site, node, path, hk'.occurs_of_leaf hcounts.leaf, hcounts.shows'⟩
  · exact hk.id_of_stage hs hprimitive hlast hstage hflat hoccurs hshows

theorem flatten_ids_lamp :
    Document.project (Lamp.document "input_41") = .ok (Lamp.project "input_41") ∧
    Closure.ofEntry (Lamp.project "input_41") "@/main" false = .ok (Lamp.closure "input_41") ∧
    ∃ graph, (Lamp.closure "input_41").flatten = .ok graph ∧
      ∃ c greatest paths, (start (Lamp.closure "input_41")).run = .ok c ∧ graph = c.graph ∧
        Stage (Lamp.closure "input_41") c [] ∧
        (Lamp.closure "input_41").entry.HasGreatestId greatest ∧
        IdsInOrder (Lamp.closure "input_41") c greatest paths := by
  have hp := Lamp.project_document "input_41"
  have hc := Lamp.ofEntry_project "input_41"
  obtain ⟨graph, hf, _⟩ := Lamp.flatten_closure
  exact ⟨hp, hc, graph, hf, flatten_ids hp hc hf⟩

end Patchbay
