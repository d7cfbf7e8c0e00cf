import Patchbay.Flat.Schedule
import Patchbay.Proofs.Flat.Graph
import Patchbay.Proofs.Graph.Turns
import Patchbay.Proofs.Shuffled

/-!
# Schedules

A schedule is about the nodes of a graph and all that links lead from to them, be it a node or not
(`Upstream`). It exists exactly if no circle of links is among these; it has each of them once,
after all that feed it, and otherwise the circle that is reported is one, in the direction of the
data (`schedule_exact`). The walk that finds it goes against the links (`against`).

Links of a sound graph join nodes of it, so that its schedule lists the nodes, and all links point
forward in it (`forward_of_schedule`).
-/

namespace Patchbay.FlatGraph

open DepthFirst (Closes Leads Postordered Reaches Spans Stops)

/-- A link leads from the one id to the other. -/
def Feeds (graph : FlatGraph) (a b : Int) : Prop :=
  ∃ l ∈ graph.links, l.source = a ∧ l.target = b

/-- The id is that of a node, or links lead from it to a node. -/
def Upstream (graph : FlatGraph) (id : Int) : Prop :=
  ∃ node ∈ graph.ids, Relation.ReflTransGen graph.Feeds id node

/-- The ids that feed an id, as the successors of a walk. -/
def against (graph : FlatGraph) (id : Int) : Except Empty (List Int) := .ok (graph.feeders id)

variable {graph : FlatGraph} {a b id : Int} {order : List Int}

/-! ## The walk against the links -/

theorem mem_ascending {ids : List Int} : id ∈ ascending ids ↔ id ∈ ids := by
  rw [ascending, List.mem_mergeSort, List.mem_eraseDups]

theorem nodup_ascending (ids : List Int) : (ascending ids).Nodup :=
  (List.mergeSort_perm _ _).nodup_iff.mpr (nodup_eraseDups ids)

/-- A list of ids put in order depends on what is in it only. -/
theorem ascending_eq {ids ids' : List Int} (h : ∀ id, id ∈ ids ↔ id ∈ ids') :
    ascending ids = ascending ids' :=
  mergeSort_eraseDups_eq (by simp; omega) (by simp; omega) (by simp; omega) h

theorem mem_feeders_iff : a ∈ graph.feeders b ↔ graph.Feeds a b := by
  simp [feeders, mem_ascending, incoming, Feeds, and_assoc, and_comm]

theorem leads_against_iff : Leads graph.against b a ↔ graph.Feeds a b := by
  rw [← mem_feeders_iff]
  constructor
  · rintro ⟨next, hnext, hmem⟩
    obtain rfl := Except.ok.inj hnext
    exact hmem
  · exact fun h => ⟨_, rfl, h⟩

theorem reaches_against_roots_iff {roots : List Int} : Reaches graph.against roots id ↔
    ∃ node ∈ roots, Relation.ReflTransGen graph.Feeds id node := by
  have hleads : Leads graph.against = Function.swap graph.Feeds := by
    funext b a
    exact propext leads_against_iff
  simp only [Reaches, hleads, Relation.reflTransGen_swap]

theorem reaches_against_iff : Reaches graph.against (ascending graph.ids) id ↔
    graph.Upstream id := by
  simp only [reaches_against_roots_iff, Upstream, mem_ascending]

theorem mentioned_of_upstream (h : graph.Upstream id) : id ∈ graph.mentioned := by
  obtain ⟨node, hnode, hpath⟩ := h
  rw [mentioned, mem_ascending]
  rcases hpath.cases_head with rfl | ⟨_, ⟨l, hl, rfl, _⟩, _⟩
  · exact List.mem_append_left _ (List.mem_append_left _ hnode)
  · exact List.mem_append_left _ (List.mem_append_right _ (List.mem_map_of_mem hl))

theorem spans_mentioned (graph : FlatGraph) :
    Spans graph.mentioned graph.against (ascending graph.ids) where
  nodup := nodup_ascending _
  mem _ h := mentioned_of_upstream (reaches_against_iff.mp h)

/-- A schedule is the order that the walk lists, or the circle that it meets, turned around. -/
theorem schedule_eq (graph : FlatGraph) : graph.schedule =
    match DepthFirst.postorder graph.mentioned graph.against (ascending graph.ids) with
    | .ok order => .ok order
    | .error (.cycle path) => .error (.dataCycle path.reverse) := by
  have hagainst : (fun id => Except.ok (graph.feeders id)) = graph.against := rfl
  unfold schedule DepthFirst.order
  rw [hagainst]
  cases DepthFirst.postorder graph.mentioned graph.against (ascending graph.ids) with
  | ok order => rfl
  | error interrupt =>
    cases interrupt with
    | cycle path => rfl
    | refused cause => exact cause.elim

/-! ## Schedules -/

theorem postordered_of_schedule (h : graph.schedule = .ok order) :
    Postordered graph.against (ascending graph.ids) order := by
  rw [schedule_eq] at h
  split at h
  · next listed hwalk =>
    obtain rfl := Except.ok.inj h
    exact DepthFirst.postordered_of_postorder graph.spans_mentioned hwalk
  · exact absurd h (by simp)

/-- What keeps a graph from having a schedule is a circle of links. -/
theorem circle_of_schedule {failure : Failure} (h : graph.schedule = .error failure) :
    ∃ circle, failure = .dataCycle circle ∧ Closes graph.Feeds circle ∧
      ∀ id ∈ circle, graph.Upstream id := by
  rw [schedule_eq] at h
  split at h
  · exact absurd h (by simp)
  · next path hwalk =>
    obtain rfl := Except.error.inj h
    cases DepthFirst.stops_of_postorder hwalk with
    | cycle hcloses hreached =>
      refine ⟨_, rfl, hcloses.reverse.mono fun _ _ => leads_against_iff.mp, fun id hid => ?_⟩
      exact reaches_against_iff.mp (hreached id (List.mem_reverse.mp hid))

/-- A graph with a circle of links has no schedule. -/
theorem not_closes_of_schedule (h : graph.schedule = .ok order) {circle : List Int}
    (hcloses : Closes graph.Feeds circle) : ¬ ∀ id ∈ circle, graph.Upstream id := by
  intro hupstream
  have hback : Closes (Leads graph.against) circle.reverse :=
    hcloses.reverse.mono fun _ _ => leads_against_iff.mpr
  exact (postordered_of_schedule h).not_stops (.cycle hback fun id hid =>
    reaches_against_iff.mpr (hupstream id (List.mem_reverse.mp hid)))

/-- The order has each id that is a node or upstream of one once, after all that feed it. -/
structure Ordered (graph : FlatGraph) (order : List Int) : Prop where
  nodup : order.Nodup
  mem_iff : ∀ id, id ∈ order ↔ graph.Upstream id
  after : ∀ a b, graph.Feeds a b → b ∈ order → order.idxOf a < order.idxOf b

theorem ordered_of_schedule (h : graph.schedule = .ok order) : graph.Ordered order := by
  have hp := postordered_of_schedule h
  refine ⟨hp.nodup, fun id => (hp.mem_iff id).trans reaches_against_iff, fun a b hfeeds hb => ?_⟩
  exact hp.after b a hb (.single (leads_against_iff.mpr hfeeds))

/-- Where links are between nodes, nothing else is upstream of them. -/
theorem upstream_iff_mem (hlinks : ∀ l ∈ graph.links, l.source ∈ graph.ids) :
    graph.Upstream id ↔ id ∈ graph.ids := by
  refine ⟨fun ⟨node, hnode, hpath⟩ => ?_, fun hid => ⟨id, hid, .refl⟩⟩
  rcases hpath.cases_head with rfl | ⟨_, ⟨l, hl, rfl, _⟩, _⟩
  · exact hnode
  · exact hlinks l hl

theorem Ordered.perm_ids (h : graph.Ordered order) (hids : graph.ids.Nodup)
    (hlinks : ∀ l ∈ graph.links, l.source ∈ graph.ids) : order.Perm graph.ids :=
  (List.perm_ext_iff_of_nodup h.nodup hids).mpr fun id =>
    (h.mem_iff id).trans (upstream_iff_mem hlinks)

theorem schedule_eq_ok_iff (graph : FlatGraph) : (∃ order, graph.schedule = .ok order) ↔
    ¬ ∃ circle, Closes graph.Feeds circle ∧ ∀ id ∈ circle, graph.Upstream id := by
  constructor
  · rintro ⟨order, h⟩ ⟨circle, hcloses, hupstream⟩
    exact not_closes_of_schedule h hcloses hupstream
  · intro hnone
    cases h : graph.schedule with
    | ok order => exact ⟨order, rfl⟩
    | error failure =>
      obtain ⟨circle, _, hcloses, hupstream⟩ := circle_of_schedule h
      exact absurd ⟨circle, hcloses, hupstream⟩ hnone

/-- A schedule depends on which ids are nodes and which ids feed which only: not on the links'
pins, nor on the order in which nodes and links stand, nor on how often a link is there. -/
theorem schedule_congr {other : FlatGraph} (hids : ∀ id, id ∈ graph.ids ↔ id ∈ other.ids)
    (hfeeds : ∀ a b, graph.Feeds a b ↔ other.Feeds a b) : graph.schedule = other.schedule := by
  have hroots : ascending graph.ids = ascending other.ids := ascending_eq hids
  have hagainst : graph.against = other.against := by
    funext id
    refine congrArg Except.ok (ascending_eq fun a => ?_)
    have hmem : a ∈ graph.feeders id ↔ a ∈ other.feeders id := by
      rw [mem_feeders_iff, mem_feeders_iff, hfeeds]
    simpa only [feeders, mem_ascending] using hmem
  have hmentioned : graph.mentioned = other.mentioned := ascending_eq fun id => by
    have hsplit : ∀ g : FlatGraph, id ∈ g.ids ++ g.links.map FlatLink.source ++
        g.links.map FlatLink.target ↔ id ∈ g.ids ∨ (∃ b, g.Feeds id b) ∨ ∃ a, g.Feeds a id := by
      intro g
      simp only [List.mem_append, List.mem_map, or_assoc, Feeds]
      grind
    simp only [hsplit, hids, hfeeds]
  rw [schedule_eq, schedule_eq, hroots, hagainst, hmentioned]

/-- A graph has a schedule exactly if no circle of links is among its nodes and what is upstream of
them. The schedule lists these ids, each once and after all that feed it; the failure names a
circle. All this is up to the nodes' ids and which of them feed which. -/
theorem schedule_exact (graph : FlatGraph) :
    ((∃ order, graph.schedule = .ok order) ↔
      ¬ ∃ circle, Closes graph.Feeds circle ∧ ∀ id ∈ circle, graph.Upstream id) ∧
    (∀ order, graph.schedule = .ok order → graph.Ordered order ∧
      (graph.ids.Nodup → (∀ l ∈ graph.links, l.source ∈ graph.ids ∧ l.target ∈ graph.ids) →
        order.Perm graph.ids)) ∧
    (∀ failure, graph.schedule = .error failure → ∃ circle, failure = .dataCycle circle ∧
      Closes graph.Feeds circle ∧ ∀ id ∈ circle, graph.Upstream id) ∧
    ∀ other : FlatGraph, (∀ id, id ∈ graph.ids ↔ id ∈ other.ids) →
      (∀ a b, graph.Feeds a b ↔ other.Feeds a b) → graph.schedule = other.schedule := by
  refine ⟨schedule_eq_ok_iff graph, fun order h => ?_, fun failure h => circle_of_schedule h,
    fun other hids hfeeds => schedule_congr hids hfeeds⟩
  have hordered := ordered_of_schedule h
  exact ⟨hordered, fun hids hlinks => hordered.perm_ids hids fun l hl => (hlinks l hl).1⟩

/-- A node fed by an id that is none, which is fed by another node. -/
example : schedule { nodes := [⟨43, "led", [], 1, "43"⟩, ⟨42, "led", [], 1, "42"⟩],
                     links := [⟨7, "out", 42, "in"⟩, ⟨43, "out", 7, "in"⟩] } = .ok [43, 7, 42] := by
  cbv

/-! ## Nodes ahead of smaller ones -/

theorem pairwise_ascending (ids : List Int) : (ascending ids).Pairwise (· < ·) :=
  ((Keyed.pairwise_mergeSort_le (fun id => id) ids.eraseDups).and (nodup_ascending ids)).imp
    fun ⟨hle, hne⟩ => lt_of_le_of_ne hle hne

/-- Of ascending ids, those that are not after a cut are before it. -/
theorem mem_before_of_lt {before after : List Int} (h : (before ++ b :: after).Pairwise (· < ·))
    (ha : a ∈ before ++ b :: after) (hlt : a < b) : a ∈ before := by
  have hafter := (List.pairwise_cons.mp (List.pairwise_append.mp h).2.1).1
  rcases List.mem_append.mp ha with ha | ha
  · exact ha
  · rcases List.mem_cons.mp ha with rfl | ha
    · exact absurd hlt (lt_irrefl a)
    · exact absurd (hafter a ha) hlt.asymm

/-- What is ahead of a node has been listed at the turn of that node or of a smaller one. -/
theorem upstream_of_ahead (h : graph.schedule = .ok order) (ha : a ∈ graph.ids) (hlt : a < b)
    (hahead : order.idxOf b < order.idxOf a) :
    ∃ node ∈ graph.ids, node ≤ a ∧ Relation.TransGen graph.Feeds b node := by
  rw [schedule_eq] at h
  split at h
  · next listed hwalk =>
    obtain rfl := Except.ok.inj h
    have hb : b ∈ listed := List.idxOf_lt_length_iff.mp (hahead.trans_le List.idxOf_le_length)
    obtain ⟨before, node, after, hroots, hreached, hbefore⟩ :=
      DepthFirst.exists_turn hwalk (nodup_ascending _) hb
    have hsorted := pairwise_ascending graph.ids
    have hmem : a ∈ ascending graph.ids := mem_ascending.mpr ha
    rw [hroots] at hsorted hmem
    have hle : node ≤ a := by
      by_contra hgt
      have hdone := mem_before_of_lt hsorted hmem (not_le.mp hgt)
      have hknown : a ∈ graph.mentioned := mentioned_of_upstream ⟨a, ha, .refl⟩
      exact absurd (hbefore a hdone hknown) hahead.asymm
    obtain ⟨_, hnode, hpath⟩ := reaches_against_roots_iff.mp hreached
    obtain rfl := List.mem_singleton.mp hnode
    refine ⟨_, mem_ascending.mp (by simp [hroots]), hle, ?_⟩
    exact (Relation.reflTransGen_iff_eq_or_transGen.mp hpath).resolve_left (hle.trans_lt hlt).ne
  · exact absurd h (by simp)

theorem lt_of_transGen (hup : ∀ l ∈ graph.links, l.source < l.target)
    (h : Relation.TransGen graph.Feeds a b) : a < b := by
  have hstep : ∀ {a b : Int}, graph.Feeds a b → a < b := by
    rintro _ _ ⟨l, hl, rfl, rfl⟩
    exact hup l hl
  induction h with
  | single hfeeds => exact hstep hfeeds
  | tail _ hfeeds ih => exact ih.trans (hstep hfeeds)

/-- A schedule has a node ahead of a smaller one only if the node is upstream of that one or of an
even smaller one. So, where links between nodes lead from smaller to greater ids, a schedule has the
ids of the nodes in ascending order. -/
theorem schedule_ahead (h : graph.schedule = .ok order) :
    (∀ u ∈ graph.ids, ∀ v, u < v → order.idxOf v < order.idxOf u →
      ∃ w ∈ graph.ids, w ≤ u ∧ Relation.TransGen graph.Feeds v w) ∧
    ((∀ l ∈ graph.links, l.source ∈ graph.ids ∧ l.target ∈ graph.ids) →
      (∀ l ∈ graph.links, l.source < l.target) →
      order.Pairwise (· < ·) ∧ ∀ id, id ∈ order ↔ id ∈ graph.ids) := by
  have hahead : ∀ u ∈ graph.ids, ∀ v, u < v → order.idxOf v < order.idxOf u →
      ∃ w ∈ graph.ids, w ≤ u ∧ Relation.TransGen graph.Feeds v w :=
    fun u hu v huv hvu => upstream_of_ahead h hu huv hvu
  refine ⟨hahead, fun hlinks hup => ?_⟩
  have ho := ordered_of_schedule h
  have hmem : ∀ id, id ∈ order ↔ id ∈ graph.ids := fun id =>
    (ho.mem_iff id).trans (upstream_iff_mem fun l hl => (hlinks l hl).1)
  refine ⟨List.pairwise_iff_getElem.mpr fun i j hi hj hij => ?_, hmem⟩
  rcases lt_trichotomy order[i] order[j] with hlt | heq | hgt
  · exact hlt
  · exact absurd ((ho.nodup.getElem_inj_iff).mp heq) hij.ne
  · have hidx : order.idxOf order[i] < order.idxOf order[j] := by
      rwa [ho.nodup.idxOf_getElem, ho.nodup.idxOf_getElem]
    obtain ⟨w, _, hle, hpath⟩ := hahead _ ((hmem _).mp (List.getElem_mem hj)) _ hgt hidx
    have := lt_of_transGen hup hpath
    omega

/-- Two lamps, and a clock under this id that feeds the first of them. -/
def clocked (clock : Int) : FlatGraph where
  nodes := [⟨1, "led", [], 1, "1"⟩, ⟨2, "led", [], 1, "2"⟩, ⟨clock, "clock", [], 1, "3"⟩]
  links := [⟨clock, "out", 1, "in"⟩]

/-- The clock is ahead of the second lamp, too, which it does not feed. -/
theorem schedule_ahead_clocked :
    (clocked 3).schedule = .ok [3, 1, 2] ∧
    (∃ w ∈ (clocked 3).ids, w ≤ 2 ∧ Relation.TransGen (clocked 3).Feeds 3 w) ∧
    (clocked 0).schedule = .ok [0, 1, 2] ∧
    (∀ l ∈ (clocked 0).links, l.source ∈ (clocked 0).ids ∧ l.target ∈ (clocked 0).ids) ∧
    (∀ l ∈ (clocked 0).links, l.source < l.target) ∧
    [0, 1, 2].Pairwise (fun a b : Int => a < b) ∧ ∀ id, id ∈ [0, 1, 2] ↔ id ∈ (clocked 0).ids := by
  have h₃ : (clocked 3).schedule = .ok [3, 1, 2] := by cbv
  have h₀ : (clocked 0).schedule = .ok [0, 1, 2] := by cbv
  have hlinks : ∀ l ∈ (clocked 0).links,
      l.source ∈ (clocked 0).ids ∧ l.target ∈ (clocked 0).ids := by decide
  have hup : ∀ l ∈ (clocked 0).links, l.source < l.target := by decide
  exact ⟨h₃, (schedule_ahead h₃).1 2 (by decide) 3 (by decide) (by decide), h₀, hlinks, hup,
    (schedule_ahead h₀).2 hlinks hup⟩

/-! ## Sound graphs -/

variable {kinds : Kinds}

/-- The nodes of a sound graph are put in order, unless their links form a circle. -/
theorem schedule_cases (hg : graph.Sound kinds) :
    (∃ failure, graph.schedule = .error failure ∧ failure.kind = .cycleDetected) ∨
    (∃ order, graph.schedule = .ok order ∧ ∀ id ∈ order, id ∈ graph.ids) := by
  cases h : graph.schedule with
  | error failure =>
    obtain ⟨circle, rfl, _⟩ := circle_of_schedule h
    exact .inl ⟨_, rfl, rfl⟩
  | ok order =>
    refine .inr ⟨order, rfl, fun id hid => ?_⟩
    exact (upstream_iff_mem fun l hl => hg.source_mem hl).mp
      (((ordered_of_schedule h).mem_iff id).mp hid)

/-- An order that has each node of the graph once, with all links pointing forward. -/
structure Forward (graph : FlatGraph) (order : List Int) : Prop where
  nodup : order.Nodup
  mem_iff : ∀ id, id ∈ order ↔ id ∈ graph.ids
  forward : ∀ l ∈ graph.links, order.idxOf l.source < order.idxOf l.target

/-- All links point forward in a schedule. -/
theorem forward_of_schedule (hg : graph.Sound kinds) (h : graph.schedule = .ok order) :
    graph.Forward order := by
  have ho := ordered_of_schedule h
  have hmem : ∀ id, id ∈ order ↔ id ∈ graph.ids := fun id =>
    (ho.mem_iff id).trans (upstream_iff_mem fun l hl => hg.source_mem hl)
  refine ⟨ho.nodup, hmem, fun l hl => ho.after _ _ ⟨l, hl, rfl, rfl⟩ ?_⟩
  exact (hmem _).mpr (hg.ends_known l hl).2

end Patchbay.FlatGraph
