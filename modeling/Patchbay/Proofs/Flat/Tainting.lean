import Mathlib.Data.List.Nodup
import Patchbay.Flat.Liveness
import Patchbay.Proofs.Keyed
import Patchbay.Proofs.Label

/-!
# What errors taint

A node is tainted if its type raises errors and it has outputs, or if a link from a tainted node
ends on it (`Tainted`). The sweep visits the nodes in an order in which all links point forward; by
then every link that can taint a node has been followed, so that one sweep finds all tainted nodes
and all pins that an error can reach (`traced_of_reach`). Any other such order finds the same
(`exists_reach`, `Traced.keys_eq`).
-/

namespace Patchbay

/-- An order that has each of some nodes once, with all their links pointing forward in it. -/
structure Topological (nodes : List BoundNode) (order : List Int) : Prop where
  nodup : order.Nodup
  mem_iff : ∀ id, id ∈ order ↔ id ∈ nodes.map BoundNode.id
  forward : ∀ node ∈ nodes, ∀ link ∈ Liveness.targets node,
    link.node ∈ order ∧ order.idxOf node.id < order.idxOf link.node

/-- What stands before an entry of a list is in the part before it. -/
theorem mem_of_idxOf_lt {done rest : List Int} {id other : Int} (hid : id ∉ done)
    (h : (done ++ id :: rest).idxOf other < (done ++ id :: rest).idxOf id) : other ∈ done := by
  by_contra hother
  rw [List.idxOf_append_of_notMem hid, List.idxOf_append_of_notMem hother,
    List.idxOf_cons_self] at h
  omega

namespace Liveness

/-! ## The pins that an error can reach -/

/-- A link leaves the node from a pin of this key, or the type declares an output that shows it. -/
def IsOutput (catalog : Catalog) (node : BoundNode) (label : Label) : Prop :=
  (∃ entry ∈ node.outLinks, label = .text entry.1) ∨
    ∃ type, catalog.type? node.type = some type ∧
      ∃ pin ∈ type.outputs, Label.ofValue pin.key = .ok label

/-- An error can reach the node of this id. -/
inductive Tainted (catalog : Catalog) (nodes : List BoundNode) : Int → Prop
  /-- The type raises errors, and there is an output to send them on. -/
  | raises {node : BoundNode} {type : NodeType} {label : Label} (mem : node ∈ nodes)
      (declared : catalog.type? node.type = some type) (raises : type.raises = true)
      (output : IsOutput catalog node label) : Tainted catalog nodes node.id
  /-- A link from a tainted node ends on it. -/
  | fed {node : BoundNode} {link : OutLink} (mem : node ∈ nodes)
      (tainted : Tainted catalog nodes node.id) (link_mem : link ∈ targets node) :
      Tainted catalog nodes link.node

/-- An error can reach this pin of the node of this id. -/
inductive Affects (catalog : Catalog) (nodes : List BoundNode) : Int → Label → Prop
  /-- An output of a tainted node. -/
  | output {node : BoundNode} {label : Label} (mem : node ∈ nodes)
      (tainted : Tainted catalog nodes node.id) (output : IsOutput catalog node label) :
      Affects catalog nodes node.id label
  /-- An input on which a link from a tainted node ends. -/
  | input {node : BoundNode} {link : OutLink} (mem : node ∈ nodes)
      (tainted : Tainted catalog nodes node.id) (link_mem : link ∈ targets node) :
      Affects catalog nodes link.node (.text link.key)

variable {kinds : Kinds} {catalog : Catalog} {nodes : List BoundNode} {reach reach' : Reach}
  {node : BoundNode} {id other : Int} {label : Label} {p : Primitive}

theorem Affects.tainted (h : Affects catalog nodes id label) : Tainted catalog nodes id := by
  cases h with
  | output _ tainted _ => exact tainted
  | input mem tainted link_mem => exact .fed mem tainted link_mem

/-- A tainted node has a pin that an error can reach. -/
theorem Tainted.exists_affects (h : Tainted catalog nodes id) :
    ∃ label, Affects catalog nodes id label := by
  cases h with
  | raises mem declared raises output =>
    exact ⟨_, .output mem (.raises mem declared raises output) output⟩
  | fed mem tainted link_mem => exact ⟨_, .input mem tainted link_mem⟩

theorem Tainted.mem_ids {order : List Int} (htop : Topological nodes order)
    (h : Tainted catalog nodes id) : id ∈ nodes.map BoundNode.id := by
  cases h with
  | raises mem _ _ _ => exact List.mem_map_of_mem mem
  | fed mem _ link_mem => exact (htop.mem_iff _).mp (htop.forward _ mem _ link_mem).1

theorem mem_labelsOf_iff {pins : List Pin} {labels : List Label}
    (h : labelsOf pins = .ok labels) :
    label ∈ labels ↔ ∃ pin ∈ pins, Label.ofValue pin.key = .ok label := by
  induction pins generalizing labels with
  | nil =>
    obtain rfl := Except.ok.inj h
    simp
  | cons pin rest ih =>
    unfold labelsOf at h
    split at h
    · exact absurd h (by simp)
    · next first hfirst =>
      obtain ⟨others, hothers, rfl⟩ := map_eq_ok.mp h
      rw [List.mem_cons, ih hothers, List.exists_mem_cons_iff, hfirst, Except.ok.injEq,
        eq_comm (a := first)]

theorem mem_outputs_iff {labels : List Label} (hentry : p.entry = catalog.type? node.type)
    (h : outputs p.entry node = .ok labels) : label ∈ labels ↔ IsOutput catalog node label := by
  obtain ⟨declared, hdeclared, rfl⟩ := map_eq_ok.mp h
  rw [List.mem_append, mem_labelsOf_iff hdeclared, IsOutput, List.mem_map, ← hentry]
  cases p.entry with
  | none => simp [eq_comm]
  | some type => simp [eq_comm]

/-! ## Changes of a reach -/

theorem pinsOf_update (id : Int) (f : LabelSet → LabelSet) (reach : Reach) (other : Int) :
    pinsOf (update id f reach) other =
      if other = id then f (pinsOf reach id) else pinsOf reach other := by
  induction reach with
  | nil =>
    by_cases h : other = id
    · simp [pinsOf, update, h]
    · simp [pinsOf, update, h, List.lookup_cons, beq_false_of_ne h]
  | cons head rest ih =>
    obtain ⟨k, pins⟩ := head
    unfold update
    by_cases hk : k = id
    · subst hk
      by_cases h : other = k
      · simp [pinsOf, h]
      · simp [pinsOf, h, List.lookup_cons, beq_false_of_ne h]
    · by_cases h : other = k
      · subst h
        simp [pinsOf, hk]
      · have hother : ∀ reach : Reach, pinsOf ((k, pins) :: reach) other = pinsOf reach other := by
          intro reach
          simp [pinsOf, List.lookup_cons, beq_false_of_ne h]
        have hid : pinsOf ((k, pins) :: rest) id = pinsOf rest id := by
          simp [pinsOf, List.lookup_cons, beq_false_of_ne (Ne.symm hk)]
        rw [if_neg hk, hother, hother, hid, ih]

theorem mem_keys_update {f : LabelSet → LabelSet} :
    other ∈ (update id f reach).map Prod.fst ↔ other = id ∨ other ∈ reach.map Prod.fst := by
  induction reach with
  | nil => simp [update]
  | cons head rest ih =>
    obtain ⟨k, pins⟩ := head
    unfold update
    split
    · next heq =>
      subst heq
      simp
    · simp only [List.map_cons, List.mem_cons, ih]
      exact or_left_comm

theorem nodup_update (h : (reach.map Prod.fst).Nodup) (id : Int) (f : LabelSet → LabelSet) :
    ((update id f reach).map Prod.fst).Nodup := by
  induction reach with
  | nil => simp [update]
  | cons head rest ih =>
    obtain ⟨k, pins⟩ := head
    rw [List.map_cons, List.nodup_cons] at h
    unfold update
    split
    · exact List.nodup_cons.mpr h
    · next hne =>
      refine List.nodup_cons.mpr ⟨fun hk => ?_, ih h.2⟩
      rcases mem_keys_update.mp hk with heq | hk
      · exact hne heq
      · exact h.1 hk

theorem nodup_reachTargets (h : (reach.map Prod.fst).Nodup) (links : List OutLink) :
    ((reachTargets reach links).map Prod.fst).Nodup := by
  unfold reachTargets
  induction links generalizing reach with
  | nil => exact h
  | cons link rest ih => exact ih (nodup_update h link.node _)

theorem mem_pinsOf_reachTargets {links : List OutLink}
    (h : label ∈ pinsOf (reachTargets reach links) id) :
    label ∈ pinsOf reach id ∨ ∃ link ∈ links, link.node = id ∧ label = .text link.key := by
  unfold reachTargets at h
  induction links generalizing reach with
  | nil => exact .inl h
  | cons link rest ih =>
    rcases ih h with hfound | ⟨later, hlater, hid⟩
    · rw [pinsOf_update] at hfound
      split at hfound
      · next heq =>
        subst heq
        exact (LabelSet.mem_of_mem_insert hfound).imp_right fun hkey =>
          ⟨link, List.mem_cons_self, rfl, hkey⟩
      · exact .inl hfound
    · exact .inr ⟨later, List.mem_cons_of_mem _ hlater, hid⟩

theorem holds_reachTargets {links : List OutLink} (h : (pinsOf reach id).holds label = true) :
    (pinsOf (reachTargets reach links) id).holds label = true := by
  unfold reachTargets
  induction links generalizing reach with
  | nil => exact h
  | cons link rest ih =>
    refine ih ?_
    rw [pinsOf_update]
    split
    · next heq => exact LabelSet.holds_insert (heq ▸ h) _
    · exact h

theorem holds_reachTargets_of_mem {links : List OutLink} {link : OutLink} (h : link ∈ links) :
    (pinsOf (reachTargets reach links) link.node).holds (.text link.key) = true := by
  unfold reachTargets
  induction links generalizing reach with
  | nil => exact absurd h List.not_mem_nil
  | cons first rest ih =>
    rcases List.mem_cons.mp h with rfl | h
    · refine @holds_reachTargets _ _ _ rest ?_
      rw [pinsOf_update, if_pos rfl]
      exact LabelSet.holds_insert_self _ _
    · exact ih h

/-! ## The sweep -/

/-- The reach once a node sends errors on from these outputs. -/
def spread (reach : Reach) (node : BoundNode) (labels : List Label) : Reach :=
  reachTargets (update node.id (·.insertAll labels) (update node.id (fun pins => pins) reach))
    (targets node)

theorem mem_pinsOf_spread {labels : List Label} (h : label ∈ pinsOf (spread reach node labels) id) :
    label ∈ pinsOf reach id ∨ id = node.id ∧ label ∈ labels ∨
      ∃ link ∈ targets node, link.node = id ∧ label = .text link.key := by
  rcases mem_pinsOf_reachTargets h with hfound | hlink
  · rw [pinsOf_update, pinsOf_update, pinsOf_update, if_pos rfl] at hfound
    split at hfound
    · next heq =>
      subst heq
      exact (LabelSet.mem_of_mem_insertAll hfound).imp_right fun hmem => .inl ⟨rfl, hmem⟩
    · exact .inl hfound
  · exact .inr (.inr hlink)

theorem holds_spread {labels : List Label} (h : (pinsOf reach id).holds label = true) :
    (pinsOf (spread reach node labels) id).holds label = true := by
  refine holds_reachTargets ?_
  rw [pinsOf_update, pinsOf_update, pinsOf_update, if_pos rfl]
  split
  · next heq => exact LabelSet.holds_insertAll (heq ▸ h)
  · exact h

theorem holds_spread_output {labels : List Label} (h : label ∈ labels) :
    (pinsOf (spread reach node labels) node.id).holds label = true := by
  refine holds_reachTargets ?_
  rw [pinsOf_update, if_pos rfl]
  exact LabelSet.holds_insertAll_of_mem h

/-- The type of the node raises errors, or one has reached the node by now. -/
def Sends (p : Primitive) (reach : Reach) (id : Int) : Prop :=
  p.entry.elim false NodeType.raises = true ∨ pinsOf reach id ≠ []

/-- A step leaves all pins as they are, or sends errors on from all outputs. -/
theorem sweepNode_cases (reach : Reach) (hp : kinds.primitive node.type = .ok p) :
    (¬ Sends p reach node.id ∧
      sweepNode kinds reach node = .ok (update node.id (fun pins => pins) reach)) ∨
    (Sends p reach node.id ∧
      sweepNode kinds reach node = (outputs p.entry node).map (spread reach node)) := by
  have hpins : pinsOf (update node.id (fun pins => pins) reach) node.id = pinsOf reach node.id := by
    rw [pinsOf_update, if_pos rfl]
  unfold sweepNode
  simp only [hp, bind, Except.bind, hpins, pure, Except.pure]
  split
  · next hsends =>
    refine .inr ⟨by simpa [Sends, List.isEmpty_iff] using hsends, ?_⟩
    cases outputs p.entry node with
    | error failure => rfl
    | ok labels => rfl
  · next hsends => exact .inl ⟨by simpa [Sends, List.isEmpty_iff] using hsends, rfl⟩

/-- The sweep finds what it looks up for this node: its type, and its outputs if it sends errors. -/
def Legible (kinds : Kinds) (catalog : Catalog) (nodes : List BoundNode) (node : BoundNode) :
    Prop :=
  ∃ p, kinds.primitive node.type = .ok p ∧
    (p.entry.elim false NodeType.raises = true ∨ Tainted catalog nodes node.id →
      ∃ labels, outputs p.entry node = .ok labels)

/-- What holds once the sweep has visited these ids: all pins found can be reached, and those that
a visited node taints are found. -/
structure Swept (catalog : Catalog) (nodes : List BoundNode) (done : List Int) (reach : Reach) :
    Prop where
  nodup : (reach.map Prod.fst).Nodup
  sound : ∀ id, ∀ label ∈ pinsOf reach id, Affects catalog nodes id label
  outputs : ∀ node ∈ nodes, node.id ∈ done → Tainted catalog nodes node.id →
    ∀ label, IsOutput catalog node label → (pinsOf reach node.id).holds label = true
  inputs : ∀ node ∈ nodes, node.id ∈ done → Tainted catalog nodes node.id →
    ∀ link ∈ targets node, (pinsOf reach link.node).holds (.text link.key) = true

namespace Swept

variable {done : List Int}

/-- A node that sends errors is tainted, if it has outputs to send them on. -/
theorem tainted_of_sends (h : Swept catalog nodes done reach) (hnode : node ∈ nodes)
    (hentry : p.entry = catalog.type? node.type) (hsends : Sends p reach node.id)
    (houtput : IsOutput catalog node label) : Tainted catalog nodes node.id := by
  rcases hsends with hraises | hpins
  · cases htype : p.entry with
    | none => exact absurd hraises (by simp [htype])
    | some type =>
      rw [htype] at hraises hentry
      exact .raises hnode hentry.symm hraises houtput
  · obtain ⟨reached, hreached⟩ := List.exists_mem_of_ne_nil _ hpins
    exact (h.sound _ reached hreached).tainted

/-- Once all that feeds a tainted node has been visited, the node sends errors. -/
theorem sends_of_tainted (h : Swept catalog nodes done reach)
    (hn : (nodes.map BoundNode.id).Nodup) (hnode : node ∈ nodes)
    (hentry : p.entry = catalog.type? node.type)
    (hdone : ∀ feeder ∈ nodes, ∀ link ∈ targets feeder, link.node = node.id → feeder.id ∈ done)
    (htainted : Tainted catalog nodes node.id) : Sends p reach node.id := by
  generalize hid : node.id = id at htainted
  cases htainted with
  | @raises raiser type label mem declared raises output =>
    obtain rfl := List.inj_on_of_nodup_map hn hnode mem hid
    left
    rw [hentry, declared]
    exact raises
  | @fed feeder link mem tainted link_mem =>
    right
    intro hempty
    have hvisited := hdone feeder mem link link_mem hid.symm
    have hheld := h.inputs feeder mem hvisited tainted link link_mem
    rw [hempty] at hheld
    exact absurd hheld (by simp [LabelSet.holds])

/-- What is known of the visited nodes is kept where nothing is done for the next one. -/
theorem pass (h : Swept catalog nodes done reach) (hclean : ¬ Tainted catalog nodes node.id) :
    Swept catalog nodes (done ++ [node.id]) (update node.id (fun pins => pins) reach) := by
  have hpins : ∀ id, pinsOf (update node.id (fun pins => pins) reach) id = pinsOf reach id := by
    intro id
    rw [pinsOf_update]
    split
    · next heq => rw [heq]
    · rfl
  have hvisited : ∀ other ∈ nodes, other.id ∈ done ++ [node.id] →
      Tainted catalog nodes other.id → other.id ∈ done := by
    intro other _ hmem htainted
    rcases List.mem_append.mp hmem with hmem | hmem
    · exact hmem
    · exact absurd (List.mem_singleton.mp hmem ▸ htainted) hclean
  refine ⟨nodup_update h.nodup _ _, fun id label hlabel => ?_,
    fun other hother hmem ht label hl => ?_, fun other hother hmem ht link hlink => ?_⟩
  · rw [hpins] at hlabel
    exact h.sound id label hlabel
  · rw [hpins]
    exact h.outputs other hother (hvisited other hother hmem ht) ht label hl
  · rw [hpins]
    exact h.inputs other hother (hvisited other hother hmem ht) ht link hlink

/-- What is known of the visited nodes holds of the next one once it has sent errors on. -/
theorem spread (h : Swept catalog nodes done reach) (hn : (nodes.map BoundNode.id).Nodup)
    (hnode : node ∈ nodes) (hentry : p.entry = catalog.type? node.type)
    (hsends : Sends p reach node.id) {labels : List Label}
    (hlabels : Liveness.outputs p.entry node = .ok labels) :
    Swept catalog nodes (done ++ [node.id]) (Liveness.spread reach node labels) := by
  have hmem : ∀ label, label ∈ labels ↔ IsOutput catalog node label := fun _ =>
    mem_outputs_iff hentry hlabels
  refine ⟨nodup_reachTargets (nodup_update (nodup_update h.nodup _ _) _ _) _,
    fun id label hlabel => ?_, fun other hother hvisited ht label hl => ?_,
    fun other hother hvisited ht link hlink => ?_⟩
  · rcases mem_pinsOf_spread hlabel with hfound | ⟨rfl, hfound⟩ | ⟨link, hlink, rfl, rfl⟩
    · exact h.sound id label hfound
    · have houtput := (hmem label).mp hfound
      exact .output hnode (h.tainted_of_sends hnode hentry hsends houtput) houtput
    · obtain ⟨entry, hentries, _⟩ := List.mem_flatMap.mp hlink
      have houtput : IsOutput catalog node (.text entry.1) := .inl ⟨entry, hentries, rfl⟩
      exact .input hnode (h.tainted_of_sends hnode hentry hsends houtput) hlink
  · rcases List.mem_append.mp hvisited with hvisited | hvisited
    · exact holds_spread (h.outputs other hother hvisited ht label hl)
    · obtain rfl := List.inj_on_of_nodup_map hn hother hnode (List.mem_singleton.mp hvisited)
      exact holds_spread_output ((hmem label).mpr hl)
  · rcases List.mem_append.mp hvisited with hvisited | hvisited
    · exact holds_spread (h.inputs other hother hvisited ht link hlink)
    · obtain rfl := List.inj_on_of_nodup_map hn hother hnode (List.mem_singleton.mp hvisited)
      exact holds_reachTargets_of_mem hlink

/-- One step of the sweep, at a node whose feeders have all been visited. -/
theorem step (h : Swept catalog nodes done reach) (hn : (nodes.map BoundNode.id).Nodup)
    (hnode : node ∈ nodes)
    (hentry : ∀ p, kinds.primitive node.type = .ok p → p.entry = catalog.type? node.type)
    (hdone : ∀ feeder ∈ nodes, ∀ link ∈ targets feeder, link.node = node.id → feeder.id ∈ done)
    (hstep : sweepNode kinds reach node = .ok reach') :
    Swept catalog nodes (done ++ [node.id]) reach' ∧ Legible kinds catalog nodes node := by
  obtain ⟨p, hp, _⟩ := bind_eq_ok.mp hstep
  have htainted := h.sends_of_tainted hn hnode (hentry p hp) hdone
  rcases sweepNode_cases reach hp with ⟨hsilent, hpass⟩ | ⟨hsends, hspread⟩
  · obtain rfl := Except.ok.inj (hpass.symm.trans hstep)
    refine ⟨h.pass fun ht => hsilent (htainted ht), p, hp, fun hor => ?_⟩
    exact absurd (hor.elim .inl htainted) hsilent
  · rw [hspread] at hstep
    obtain ⟨labels, hlabels, rfl⟩ := map_eq_ok.mp hstep
    exact ⟨h.spread hn hnode (hentry p hp) hsends hlabels, p, hp, fun _ => ⟨labels, hlabels⟩⟩

theorem exists_step (h : Swept catalog nodes done reach)
    (hlegible : Legible kinds catalog nodes node) :
    ∃ reach', sweepNode kinds reach node = .ok reach' := by
  obtain ⟨p, hp, houtputs⟩ := hlegible
  rcases sweepNode_cases reach hp with ⟨_, hpass⟩ | ⟨hsends, hspread⟩
  · exact ⟨_, hpass⟩
  · have hor : p.entry.elim false NodeType.raises = true ∨ Tainted catalog nodes node.id := by
      refine hsends.imp_right fun hpins => ?_
      obtain ⟨label, hlabel⟩ := List.exists_mem_of_ne_nil _ hpins
      exact (h.sound _ label hlabel).tainted
    obtain ⟨labels, hlabels⟩ := houtputs hor
    exact ⟨_, by rw [hspread, hlabels]; rfl⟩

end Swept

section Sweep

variable {order done rest : List Int} (hn : (nodes.map BoundNode.id).Nodup)
  (hentries : ∀ node ∈ nodes, ∀ p, kinds.primitive node.type = .ok p →
    p.entry = catalog.type? node.type)

/-- All that feeds a node has been visited when its turn comes. -/
theorem feeder_mem_done (htop : Topological nodes order) (horder : done ++ id :: rest = order) :
    ∀ feeder ∈ nodes, ∀ link ∈ targets feeder, link.node = id → feeder.id ∈ done := by
  intro feeder hfeeder link hlink hid
  have hlt := (htop.forward feeder hfeeder link hlink).2
  have hnodup := htop.nodup
  subst horder
  rw [hid] at hlt
  refine mem_of_idxOf_lt (fun hmem => ?_) hlt
  exact (List.nodup_append.mp hnodup).2.2 id hmem id List.mem_cons_self rfl

include hn hentries in
theorem swept_of_sweep (htop : Topological nodes order) (horder : done ++ rest = order)
    (h : Swept catalog nodes done reach) (hsweep : sweep kinds nodes reach rest = .ok reach') :
    Swept catalog nodes order reach' ∧
      ∀ node ∈ nodes, node.id ∈ rest → Legible kinds catalog nodes node := by
  induction rest generalizing done reach with
  | nil =>
    obtain rfl := Except.ok.inj hsweep
    rw [List.append_nil] at horder
    exact ⟨horder ▸ h, by simp⟩
  | cons id rest ih =>
    unfold sweep at hsweep
    split at hsweep
    · exact absurd hsweep (by simp)
    · next node hfound =>
      obtain ⟨hnode, rfl⟩ := Keyed.mem_of_find? hfound
      obtain ⟨next, hstep, hsweep⟩ := bind_eq_ok.mp hsweep
      have hdone := feeder_mem_done htop horder
      obtain ⟨hnext, hlegible⟩ := h.step hn hnode (hentries node hnode) hdone hstep
      obtain ⟨hlast, hothers⟩ := ih (by simpa using horder) hnext hsweep
      refine ⟨hlast, fun other hother hmem => ?_⟩
      rcases List.mem_cons.mp hmem with heq | hmem
      · obtain rfl := List.inj_on_of_nodup_map hn hother hnode heq
        exact hlegible
      · exact hothers other hother hmem

include hn hentries in
theorem exists_sweep (htop : Topological nodes order) (horder : done ++ rest = order)
    (hlegible : ∀ node ∈ nodes, Legible kinds catalog nodes node)
    (h : Swept catalog nodes done reach) : ∃ reach', sweep kinds nodes reach rest = .ok reach' := by
  induction rest generalizing done reach with
  | nil => exact ⟨reach, rfl⟩
  | cons id rest ih =>
    have hid : id ∈ nodes.map BoundNode.id := by
      rw [← htop.mem_iff, ← horder]
      exact List.mem_append_right _ List.mem_cons_self
    obtain ⟨node, hnode, hfound, rfl⟩ := Keyed.exists_find? hid
    obtain ⟨next, hstep⟩ := h.exists_step (hlegible node hnode)
    have hdone := feeder_mem_done htop horder
    obtain ⟨hnext, _⟩ := h.step hn hnode (hentries node hnode) hdone hstep
    obtain ⟨last, hlast⟩ := ih (by simpa using horder) hnext
    refine ⟨last, ?_⟩
    simp only [sweep, hfound, hstep, bind, Except.bind]
    exact hlast

end Sweep

/-! ## The reach -/

theorem swept_nil : Swept catalog nodes [] [] :=
  ⟨List.nodup_nil, by simp [pinsOf], by simp, by simp⟩

/-- A reach that has all pins that an error can reach, and no others, by ascending id. -/
structure Traced (catalog : Catalog) (nodes : List BoundNode) (reach : Reach) : Prop where
  nodup : (reach.map Prod.fst).Nodup
  ascending : (reach.map Prod.fst).Pairwise (· ≤ ·)
  mem_iff : ∀ id, id ∈ reach.map Prod.fst ↔ Tainted catalog nodes id
  sound : ∀ id, ∀ label ∈ pinsOf reach id, Affects catalog nodes id label
  complete : ∀ id label, Affects catalog nodes id label → (pinsOf reach id).holds label = true

/-- Pins are found where there are any, and only by the id that they are under. -/
theorem pinsOf_eq_iff (hn : (reach.map Prod.fst).Nodup) {pins : LabelSet} (hne : pins ≠ []) :
    pinsOf reach id = pins ↔ (id, pins) ∈ reach := by
  rw [← Keyed.lookup_eq_some_iff hn, pinsOf]
  cases reach.lookup id with
  | none => simp [hne.symm]
  | some found => simp

/-- Of two reaches with the same pins under each id, both find the same. -/
theorem pinsOf_congr (hn : (reach.map Prod.fst).Nodup) (hn' : (reach'.map Prod.fst).Nodup)
    (h : ∀ pins ≠ [], (id, pins) ∈ reach ↔ (id, pins) ∈ reach') :
    pinsOf reach id = pinsOf reach' id := by
  by_cases hempty : pinsOf reach id = []
  · by_contra hne
    have hsome : pinsOf reach' id ≠ [] := fun hnone => hne (hempty.trans hnone.symm)
    exact hne ((pinsOf_eq_iff hn hsome).mpr ((h _ hsome).mpr ((pinsOf_eq_iff hn' hsome).mp rfl)))
  · exact ((pinsOf_eq_iff hn' hempty).mpr ((h _ hempty).mp ((pinsOf_eq_iff hn hempty).mp rfl))).symm

/-- The entries with pins, by ascending id, are traced once the sweep has visited all nodes. -/
theorem traced_of_swept {order : List Int} (hknown : ∀ node ∈ nodes, node.id ∈ order)
    (h : Swept catalog nodes order reach) :
    Traced catalog nodes
      ((reach.filter fun entry => !entry.2.isEmpty).mergeSort fun a b => a.1 ≤ b.1) := by
  set result := (reach.filter fun entry => !entry.2.isEmpty).mergeSort fun a b => a.1 ≤ b.1
    with hresult
  have hmem : ∀ entry, entry ∈ result ↔ entry ∈ reach ∧ entry.2 ≠ [] := by
    intro entry
    rw [hresult, List.mem_mergeSort, List.mem_filter]
    simp
  have hnodup : (result.map Prod.fst).Nodup := by
    refine (((List.mergeSort_perm _ _).map Prod.fst).nodup_iff).mpr ?_
    exact h.nodup.sublist (List.filter_sublist.map Prod.fst)
  have hpins : ∀ id, pinsOf result id = pinsOf reach id := fun id =>
    pinsOf_congr hnodup h.nodup fun pins hne => by
      rw [hmem]
      exact and_iff_left hne
  have hsound : ∀ id, ∀ label ∈ pinsOf result id, Affects catalog nodes id label := by
    intro id label hlabel
    rw [hpins] at hlabel
    exact h.sound id label hlabel
  have hcomplete : ∀ id label, Affects catalog nodes id label →
      (pinsOf result id).holds label = true := by
    intro id label haffects
    rw [hpins]
    cases haffects with
    | output mem tainted output => exact h.outputs _ mem (hknown _ mem) tainted _ output
    | input mem tainted link_mem => exact h.inputs _ mem (hknown _ mem) tainted _ link_mem
  refine ⟨hnodup, ?_, fun id => ⟨?_, fun htainted => ?_⟩, hsound, hcomplete⟩
  · exact List.pairwise_map.mpr (Keyed.pairwise_mergeSort_le Prod.fst _)
  · intro hid
    obtain ⟨⟨_, pins⟩, hentry, rfl⟩ := List.mem_map.mp hid
    obtain ⟨label, hlabel⟩ := List.exists_mem_of_ne_nil _ ((hmem _).mp hentry).2
    refine (hsound _ label ?_).tainted
    rw [(pinsOf_eq_iff hnodup ((hmem _).mp hentry).2).mpr hentry]
    exact hlabel
  · obtain ⟨label, haffects⟩ := htainted.exists_affects
    have hheld := hcomplete id label haffects
    have hne : pinsOf result id ≠ [] := by
      intro hempty
      rw [hempty] at hheld
      exact absurd hheld (by simp [LabelSet.holds])
    exact List.mem_map_of_mem ((pinsOf_eq_iff hnodup hne).mp rfl)

section Orders

variable {mode : Liveness} {order : List Int} (hn : (nodes.map BoundNode.id).Nodup)
  (hentries : ∀ node ∈ nodes, ∀ p, kinds.primitive node.type = .ok p →
    p.entry = catalog.type? node.type)

include hn hentries in
/-- One sweep in an order in which all links point forward finds exactly the pins that an error can
reach. -/
theorem traced_of_reach (hmode : mode ≠ none) (htop : Topological nodes order)
    (h : Liveness.reach mode kinds nodes order = .ok reach) :
    Traced catalog nodes reach ∧ ∀ node ∈ nodes, Legible kinds catalog nodes node := by
  rw [Liveness.reach, if_neg hmode] at h
  obtain ⟨swept, hsweep, rfl⟩ := map_eq_ok.mp h
  obtain ⟨hswept, hlegible⟩ :=
    swept_of_sweep hn hentries htop (List.nil_append order) swept_nil hsweep
  have hknown : ∀ node ∈ nodes, node.id ∈ order := fun node hnode =>
    (htop.mem_iff _).mpr (List.mem_map_of_mem hnode)
  exact ⟨traced_of_swept hknown hswept, fun node hnode => hlegible node hnode (hknown node hnode)⟩

include hn hentries in
/-- Where one order shows all that the sweep looks up, no other order fails. -/
theorem exists_reach (hmode : mode ≠ none) (htop : Topological nodes order)
    (hlegible : ∀ node ∈ nodes, Legible kinds catalog nodes node) :
    ∃ reach, Liveness.reach mode kinds nodes order = .ok reach := by
  obtain ⟨swept, hsweep⟩ := exists_sweep hn hentries htop (List.nil_append order) hlegible swept_nil
  exact ⟨_, by rw [Liveness.reach, if_neg hmode, hsweep]; rfl⟩

end Orders

/-- All that is traced of the same nodes has the same ids. -/
theorem Traced.keys_eq (h : Traced catalog nodes reach) (h' : Traced catalog nodes reach') :
    reach.map Prod.fst = reach'.map Prod.fst := by
  have hperm : (reach.map Prod.fst).Perm (reach'.map Prod.fst) :=
    (List.perm_ext_iff_of_nodup h.nodup h'.nodup).mpr fun id =>
      (h.mem_iff id).trans (h'.mem_iff id).symm
  exact hperm.eq_of_pairwise (fun _ _ _ _ => Int.le_antisymm) h.ascending h'.ascending

theorem Traced.holds (h : Traced catalog nodes reach) (h' : Traced catalog nodes reach')
    (hlabel : label ∈ pinsOf reach id) : (pinsOf reach' id).holds label = true :=
  h'.complete id label (h.sound id label hlabel)

end Liveness

end Patchbay
