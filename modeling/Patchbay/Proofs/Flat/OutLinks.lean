import Mathlib.Data.List.Forall2
import Patchbay.Flat.Liveness
import Patchbay.Proofs.Flat.LinkOrder
import Patchbay.Proofs.Flat.Settling

/-!
# The links that leave bound nodes

A bound node holds the links that leave it, by pin. Read together, the bound nodes of a graph hold
each of its links once, and no other (`perm_links`).
-/

namespace Patchbay

theorem mem_ascendingTexts {texts : List String} {text : String} :
    text ∈ ascendingTexts texts ↔ text ∈ texts := by
  rw [ascendingTexts, List.mem_mergeSort, List.mem_eraseDups]

theorem nodup_ascendingTexts (texts : List String) : (ascendingTexts texts).Nodup :=
  (List.mergeSort_perm _ _).nodup_iff.mpr (nodup_eraseDups texts)

theorem pairwise_ascendingTexts (texts : List String) :
    (ascendingTexts texts).Pairwise fun s t => Text.le s t = true :=
  @List.pairwise_mergeSort _ Text.le (fun _ _ _ => Text.le_trans)
    (fun s t => (Bool.or_eq_true _ _).mpr (Text.le_total s t)) _

namespace BoundNode

/-- The links that leave a bound node, as links of the flat graph. -/
def flatLinks (node : BoundNode) : List FlatLink :=
  node.outLinks.flatMap fun entry =>
    entry.2.map fun link => ⟨node.id, entry.1, link.node, link.key⟩

variable {graph : FlatGraph} {id : Int} {entry : String × List OutLink}

/-! ## The links of one node -/

theorem nodup_outLinksOf (graph : FlatGraph) (id : Int) :
    ((outLinksOf graph id).map Prod.fst).Nodup := by
  rw [outLinksOf, List.map_map]
  exact (List.map_id _).symm ▸ nodup_ascendingTexts _

theorem mem_links_iff (h : entry ∈ outLinksOf graph id) {link : OutLink} :
    link ∈ entry.2 ↔ ⟨id, entry.1, link.node, link.key⟩ ∈ graph.links := by
  obtain ⟨pin, _, rfl⟩ := List.mem_map.mp h
  simp only [List.mem_mergeSort, List.mem_map, List.mem_filter, FlatGraph.outgoing,
    decide_eq_true_eq]
  constructor
  · rintro ⟨l, ⟨⟨hl, rfl⟩, rfl⟩, rfl⟩
    exact hl
  · intro hl
    exact ⟨_, ⟨⟨hl, rfl⟩, rfl⟩, rfl⟩

theorem ne_nil_of_mem_outLinksOf (h : entry ∈ outLinksOf graph id) : entry.2 ≠ [] := by
  have hpin : entry.1 ∈ (graph.outgoing id).map FlatLink.sourcePin := by
    obtain ⟨pin, hpin, rfl⟩ := List.mem_map.mp h
    exact mem_ascendingTexts.mp hpin
  obtain ⟨l, hl, hsource⟩ := List.mem_map.mp hpin
  obtain ⟨hmem, hid⟩ := List.mem_filter.mp hl
  rw [decide_eq_true_eq] at hid
  have hlink : ⟨l.target, l.targetPin⟩ ∈ entry.2 := by
    rw [mem_links_iff h, ← hid, ← hsource]
    exact hmem
  exact List.ne_nil_of_mem hlink

/-- The links that leave one pin of a node ascend strictly. -/
theorem pairwise_of_mem_outLinksOf (hn : graph.links.Nodup) (h : entry ∈ outLinksOf graph id) :
    entry.2.Pairwise OutLink.Before := by
  obtain ⟨pin, _, rfl⟩ := List.mem_map.mp h
  refine OutLink.pairwise_before (List.Nodup.map_on ?_ ((hn.filter _).filter _))
  intro a ha b hb heq
  simp only [FlatGraph.outgoing, List.mem_filter, decide_eq_true_eq] at ha hb
  obtain ⟨⟨_, hsource⟩, hpin⟩ := ha
  obtain ⟨⟨_, hsource'⟩, hpin'⟩ := hb
  obtain ⟨htarget, hkey⟩ := OutLink.mk.inj heq
  rw [FlatLink.mk.injEq]
  exact ⟨hsource.trans hsource'.symm, hpin.trans hpin'.symm, htarget, hkey⟩

variable {node : BoundNode}

theorem mem_flatLinks_iff (h : node.outLinks = outLinksOf graph node.id) {l : FlatLink} :
    l ∈ node.flatLinks ↔ l ∈ graph.links ∧ l.source = node.id := by
  simp only [flatLinks, List.mem_flatMap, List.mem_map, h]
  constructor
  · rintro ⟨entry, hentry, link, hlink, rfl⟩
    exact ⟨(mem_links_iff hentry).mp hlink, rfl⟩
  · rintro ⟨hl, hsource⟩
    have hpin : l.sourcePin ∈ ascendingTexts ((graph.outgoing node.id).map FlatLink.sourcePin) := by
      refine mem_ascendingTexts.mpr (List.mem_map_of_mem (List.mem_filter.mpr ⟨hl, ?_⟩))
      exact decide_eq_true hsource
    have hentry := List.mem_map_of_mem (f := fun pin => (pin,
      (((graph.outgoing node.id).filter (·.sourcePin = pin)).map fun link =>
        (⟨link.target, link.targetPin⟩ : OutLink)).mergeSort OutLink.le)) hpin
    refine ⟨_, hentry, ⟨l.target, l.targetPin⟩, (mem_links_iff hentry).mpr ?_, ?_⟩
    · rw [← hsource]
      exact hl
    · rw [← hsource]

theorem mem_targets_iff {link : OutLink} :
    link ∈ Liveness.targets node ↔
      ∃ l ∈ node.flatLinks, l.target = link.node ∧ l.targetPin = link.key := by
  simp only [Liveness.targets, flatLinks, List.mem_flatMap, List.mem_map]
  constructor
  · rintro ⟨entry, hentry, hlink⟩
    exact ⟨_, ⟨entry, hentry, link, hlink, rfl⟩, rfl, rfl⟩
  · rintro ⟨_, ⟨entry, hentry, other, hother, rfl⟩, hnode, hkey⟩
    obtain rfl : other = link := by
      rw [OutLink.mk.injEq]
      exact ⟨hnode, hkey⟩
    exact ⟨entry, hentry, hother⟩

theorem nodup_flatLinks (hn : graph.links.Nodup) (h : node.outLinks = outLinksOf graph node.id) :
    node.flatLinks.Nodup := by
  have hkeys : node.outLinks.Pairwise fun a b => a.1 ≠ b.1 := by
    rw [h]
    exact List.pairwise_map.mp (nodup_outLinksOf graph node.id)
  rw [flatLinks, List.nodup_flatMap]
  constructor
  · intro entry hentry
    have hlinks := (pairwise_of_mem_outLinksOf hn (h ▸ hentry)).imp OutLink.Before.ne
    refine List.Nodup.map ?_ hlinks
    rintro ⟨target, key⟩ ⟨target', key'⟩ heq
    simpa using heq
  · refine hkeys.imp fun hne => ?_
    intro l hl hl'
    obtain ⟨link, _, rfl⟩ := List.mem_map.mp hl
    obtain ⟨link', _, heq⟩ := List.mem_map.mp hl'
    exact hne (FlatLink.mk.inj heq).2.1.symm

/-! ## The links of a graph -/

/-- The bound nodes of a graph hold each of its links once, and no other. -/
theorem perm_links {nodes : List BoundNode} (hn : graph.links.Nodup)
    (hids : (nodes.map BoundNode.id).Nodup)
    (hsource : ∀ l ∈ graph.links, l.source ∈ nodes.map BoundNode.id)
    (h : ∀ node ∈ nodes, node.outLinks = outLinksOf graph node.id) :
    (nodes.flatMap flatLinks).Perm graph.links := by
  have hdistinct : nodes.Pairwise fun a b => a.id ≠ b.id := List.pairwise_map.mp hids
  have hnodup : (nodes.flatMap flatLinks).Nodup := by
    rw [List.nodup_flatMap]
    refine ⟨fun node hnode => nodup_flatLinks hn (h node hnode), ?_⟩
    refine hdistinct.imp_of_mem fun {a b} ha hb hne => ?_
    intro l hl hl'
    exact hne (((mem_flatLinks_iff (h a ha)).mp hl).2.symm.trans
      ((mem_flatLinks_iff (h b hb)).mp hl').2)
  rw [List.perm_ext_iff_of_nodup hnodup hn]
  intro l
  rw [List.mem_flatMap]
  constructor
  · rintro ⟨node, hnode, hl⟩
    exact ((mem_flatLinks_iff (h node hnode)).mp hl).1
  · intro hl
    obtain ⟨node, hnode, hid⟩ := List.mem_map.mp (hsource l hl)
    exact ⟨node, hnode, (mem_flatLinks_iff (h node hnode)).mpr ⟨hl, hid.symm⟩⟩

/-! ## Bound nodes of a graph -/

/-- What binding keeps of a flat node: its id, its type and its links, and the inputs of its type,
unless it is a terminal. -/
structure Binds (kinds : Kinds) (graph : FlatGraph) (flat : FlatNode) (node : BoundNode) :
    Prop where
  id_eq : node.id = flat.id
  type_eq : node.type = flat.type
  outLinks_eq : node.outLinks = outLinksOf graph flat.id
  inputs : ∀ p, kinds.primitive flat.type = .ok p → p.isTerminal = false → ∃ values,
    bindInputs (linkedPins graph flat.id) [] []
      (p.entry.elim [] fun entry => inputPins entry flat.arity) = .ok (node.inputTypes, values)

variable {kinds : Kinds} {t : Typing}

theorem binds_of_ofNode {entered : List Int} (hs : Typing.Sound kinds graph entered t)
    (hg : graph.Sound kinds) (hn : graph.ids.Nodup) {flat : FlatNode} (hflat : flat ∈ graph.nodes)
    (h : ofNode t flat = .ok node) : Binds kinds graph flat node := by
  obtain ⟨p, hp, h⟩ := bind_eq_ok.mp h
  obtain ⟨q, hq, htype⟩ := hg.primitive flat hflat
  obtain rfl := Except.ok.inj
    (hp.symm.trans (hs.primitive_of_isOf hn ⟨flat, hflat, rfl, hq⟩))
  rw [hs.graph_eq] at h
  dsimp only at h
  split at h
  · exact absurd h (by simp)
  · split at h
    · next hterminal =>
      obtain ⟨⟨types, values⟩, _, h⟩ := bind_eq_ok.mp h
      obtain rfl := Except.ok.inj h
      refine ⟨rfl, htype, rfl, fun r hr hplain => ?_⟩
      obtain rfl := Except.ok.inj (hq.symm.trans hr)
      exact absurd (hterminal.symm.trans hplain) (by simp)
    · obtain ⟨⟨types, values⟩, htypes, h⟩ := bind_eq_ok.mp h
      obtain rfl := Except.ok.inj h
      refine ⟨rfl, htype, rfl, fun r hr _ => ?_⟩
      obtain rfl := Except.ok.inj (hq.symm.trans hr)
      exact ⟨values, htypes⟩

theorem forall₂_of_ofNodes {flats : List FlatNode} {nodes : List BoundNode}
    (h : ofNodes t flats = .ok nodes) :
    List.Forall₂ (fun flat node => ofNode t flat = .ok node) flats nodes := by
  induction flats generalizing nodes with
  | nil =>
    obtain rfl := Except.ok.inj h
    exact .nil
  | cons flat rest ih =>
    obtain ⟨bound, hbound, h⟩ := bind_eq_ok.mp h
    obtain ⟨others, hothers, h⟩ := bind_eq_ok.mp h
    obtain rfl := pure_eq_ok.mp h
    exact .cons hbound (ih hothers)

end BoundNode

namespace Typing

variable {kinds : Kinds} {graph : FlatGraph} {t : Typing} {nodes : List BoundNode}

/-- Where all nodes are bound, each is bound under the typing, by ascending id. -/
theorem ofNode_of_bindAll (hg : graph.Sound kinds)
    (h : (start kinds graph).bindAll = .ok (t, nodes)) :
    ∃ entered, Sound kinds graph entered t ∧
      List.Forall₂ (fun flat node => flat ∈ graph.nodes ∧ BoundNode.ofNode t flat = .ok node)
        (graph.nodes.mergeSort fun a b => a.id ≤ b.id) nodes := by
  obtain ⟨typed, hresolve, h⟩ := bind_eq_ok.mp h
  obtain ⟨entered, hs, _⟩ := exists_sound hg hresolve
  split at h
  · exact absurd h (by simp)
  · next bound hbound =>
    obtain ⟨rfl, rfl⟩ := Prod.mk.inj (Except.ok.inj h)
    rw [hs.graph_eq] at hbound
    refine ⟨entered, hs, (List.forall₂_and_left _ _).mpr
      ⟨fun flat hflat => ?_, BoundNode.forall₂_of_ofNodes hbound⟩⟩
    exact (List.mergeSort_perm _ _).mem_iff.mp hflat

/-- The nodes of a sound graph are bound one by one, by ascending id. -/
theorem binds_of_bindAll (hg : graph.Sound kinds) (hn : graph.ids.Nodup)
    (h : (start kinds graph).bindAll = .ok (t, nodes)) :
    List.Forall₂ (BoundNode.Binds kinds graph) (graph.nodes.mergeSort fun a b => a.id ≤ b.id)
      nodes := by
  obtain ⟨entered, hs, hall⟩ := ofNode_of_bindAll hg h
  exact hall.imp fun flat node hof => BoundNode.binds_of_ofNode hs hg hn hof.1 hof.2

end Typing

end Patchbay
