import Patchbay.Flat.Liveness
import Patchbay.Proofs.Flat.Binding
import Patchbay.Proofs.Label.Families
import Patchbay.Proofs.Shuffled

/-!
# Tracing errors through bound nodes

On the bound nodes of a sound graph the sweep over a schedule finds every node and every type. The
pins that it reaches are keyed by texts, so that they have an order (`reach_eq_ok`). Whatever they
are keyed by, those of one node are different keys (`isApart_reach`).
-/

namespace Patchbay.Liveness

/-- The reached pins are texts. -/
def Reach.HasTexts (reach : Reach) : Prop := ∀ entry ∈ reach, entry.2.HasTexts

variable {kinds : Kinds} {nodes : List BoundNode} {node : BoundNode} {reach reach' : Reach}

/-! ## Sets of pins -/

section

variable {P : LabelSet → Prop} (h : ∀ entry ∈ reach, P entry.2)
include h

/-- A change that keeps a property of sets keeps it all over a reach. -/
theorem forall_update (id : Int) {f : LabelSet → LabelSet} (hnil : P [])
    (hf : ∀ pins, P pins → P (f pins)) : ∀ entry ∈ update id f reach, P entry.2 := by
  induction reach with
  | nil =>
    intro entry hentry
    rw [List.mem_singleton.mp hentry]
    exact hf [] hnil
  | cons head rest ih =>
    obtain ⟨hhead, hrest⟩ := List.forall_mem_cons.mp h
    intro entry hentry
    unfold update at hentry
    split at hentry
    · rcases List.mem_cons.mp hentry with rfl | hentry
      · exact hf _ hhead
      · exact hrest entry hentry
    · rcases List.mem_cons.mp hentry with rfl | hentry
      · exact hhead
      · exact ih hrest entry hentry

theorem forall_reachTargets (links : List OutLink) (hnil : P [])
    (hinsert : ∀ (pins : LabelSet) key, P pins → P (pins.insert (.text key))) :
    ∀ entry ∈ reachTargets reach links, P entry.2 := by
  unfold reachTargets
  induction links generalizing reach with
  | nil => exact h
  | cons link rest ih =>
    rw [List.foldl_cons]
    exact ih (forall_update h link.node hnil fun pins => hinsert pins link.key)

end

namespace Reach

theorem HasTexts.pinsOf (h : reach.HasTexts) (id : Int) : (Liveness.pinsOf reach id).HasTexts := by
  unfold Liveness.pinsOf
  cases hfound : reach.lookup id with
  | none =>
    intro label hlabel
    exact absurd hlabel List.not_mem_nil
  | some pins =>
    rw [List.lookup_eq_some_iff] at hfound
    obtain ⟨before, after, hreach, _⟩ := hfound
    exact h (id, pins) (by simp [hreach])

/-- A change that keeps sets of texts keeps a reach of texts. -/
theorem HasTexts.update (h : reach.HasTexts) (id : Int) {f : LabelSet → LabelSet}
    (hf : ∀ pins : LabelSet, pins.HasTexts → (f pins).HasTexts) :
    HasTexts (Liveness.update id f reach) :=
  forall_update h id (fun _ hlabel => absurd hlabel List.not_mem_nil) hf

theorem HasTexts.reachTargets (h : reach.HasTexts) (links : List OutLink) :
    HasTexts (Liveness.reachTargets reach links) :=
  forall_reachTargets h links (fun _ hlabel => absurd hlabel List.not_mem_nil)
    fun _ key hpins => hpins.insert (Label.isText_text key)

end Reach

/-! ## Outputs -/

theorem labelsOf_eq_ok {pins : List Pin} (hpins : ∀ pin ∈ pins, pin.KeyedByText) :
    ∃ labels, labelsOf pins = .ok labels ∧ ∀ label ∈ labels, label.IsText := by
  induction pins with
  | nil => exact ⟨[], rfl, by simp⟩
  | cons pin rest ih =>
    obtain ⟨key, hkey⟩ := hpins pin List.mem_cons_self
    obtain ⟨labels, hlabels, htexts⟩ := ih fun p hp => hpins p (List.mem_cons_of_mem _ hp)
    refine ⟨.text key :: labels, ?_, ?_⟩
    · simp only [labelsOf, hkey, Label.ofValue, hlabels, Except.map]
    · intro label hlabel
      rcases List.mem_cons.mp hlabel with rfl | hlabel
      · exact Label.isText_text key
      · exact htexts label hlabel

theorem outputs_eq_ok {entry : Option NodeType} (node : BoundNode)
    (hentry : ∀ type, entry = some type → type.HasTextKeys) :
    ∃ labels, outputs entry node = .ok labels ∧ ∀ label ∈ labels, label.IsText := by
  have hpins : ∀ pin ∈ entry.elim [] NodeType.outputs, pin.KeyedByText := by
    intro pin hpin
    cases entry with
    | none => exact absurd hpin List.not_mem_nil
    | some type =>
      obtain ⟨declared, hdeclared, rfl⟩ := List.mem_map.mp (List.mem_of_mem_filter hpin)
      exact hentry type rfl declared hdeclared
  obtain ⟨declared, hdeclared, htexts⟩ := labelsOf_eq_ok hpins
  simp only [outputs, hdeclared, Except.map]
  refine ⟨_, rfl, ?_⟩
  intro label hlabel
  rcases List.mem_append.mp hlabel with hlabel | hlabel
  · obtain ⟨link, _, rfl⟩ := List.mem_map.mp hlabel
    exact Label.isText_text link.1
  · exact htexts label hlabel

/-! ## The sweep -/

/-- One step does not fail, and what it adds are texts. -/
theorem sweepNode_eq_ok (hkeys : kinds.HasTextKeys) (hnode : node.Sound kinds)
    (h : reach.HasTexts) : ∃ reach', sweepNode kinds reach node = .ok reach' ∧ reach'.HasTexts := by
  obtain ⟨p, hp⟩ := hnode.primitive
  have hstart : (update node.id (fun pins => pins) reach : Reach).HasTexts :=
    h.update node.id fun _ hpins => hpins
  simp only [sweepNode, hp, bind, Except.bind, pure, Except.pure]
  split
  · obtain ⟨labels, hlabels, htexts⟩ :=
      outputs_eq_ok node fun type htype => hkeys node.type p hp type htype
    simp only [hlabels]
    refine ⟨_, rfl, ?_⟩
    apply Reach.HasTexts.reachTargets
    exact hstart.update node.id fun _ hpins => hpins.insertAll htexts
  · exact ⟨_, rfl, hstart⟩

theorem sweep_eq_ok (hkeys : kinds.HasTextKeys) (hnodes : ∀ node ∈ nodes, node.Sound kinds)
    {ids : List Int} (hids : ∀ id ∈ ids, id ∈ nodes.map BoundNode.id) (h : reach.HasTexts) :
    ∃ reach', sweep kinds nodes reach ids = .ok reach' ∧ reach'.HasTexts := by
  -- Of what has been reached so far, the next step only needs that it is made of texts.
  induction ids generalizing reach with
  | nil => exact ⟨reach, rfl, h⟩
  | cons id rest ih =>
    have hrest := fun other hother => hids other (List.mem_cons_of_mem _ hother)
    obtain ⟨node, hmem, hfound, _⟩ := Keyed.exists_find? (hids id List.mem_cons_self)
    obtain ⟨next, hnext, htexts⟩ := sweepNode_eq_ok hkeys (hnodes node hmem) h
    obtain ⟨last, hlast, hlasttexts⟩ := ih hrest htexts
    refine ⟨last, ?_, hlasttexts⟩
    simp only [sweep, hfound, hnext, bind, Except.bind]
    exact hlast

/-- The pins that an error can reach can be told, and they are texts. -/
theorem reach_eq_ok (mode : Liveness) (hkeys : kinds.HasTextKeys)
    (hnodes : ∀ node ∈ nodes, node.Sound kinds) {topology : List Int}
    (htopology : ∀ id ∈ topology, id ∈ nodes.map BoundNode.id) :
    ∃ reach, Liveness.reach mode kinds nodes topology = .ok reach ∧ reach.HasTexts := by
  have hempty : Reach.HasTexts [] := fun _ hentry => absurd hentry List.not_mem_nil
  unfold Liveness.reach
  split
  · exact ⟨[], rfl, hempty⟩
  · obtain ⟨swept, hswept, htexts⟩ := sweep_eq_ok hkeys hnodes htopology hempty
    refine ⟨_, by rw [hswept]; rfl, ?_⟩
    intro entry hentry
    rw [List.mem_mergeSort] at hentry
    exact htexts entry (List.mem_of_mem_filter hentry)

/-! ## Different keys -/

/-- The pins of each node are different keys. -/
def Reach.IsApart (reach : Reach) : Prop := ∀ entry ∈ reach, Label.Apart entry.2

theorem isApart_sweepNode (h : reach.IsApart) (hstep : sweepNode kinds reach node = .ok reach') :
    reach'.IsApart := by
  have hstart : Reach.IsApart (update node.id (fun pins => pins) reach) :=
    forall_update h node.id .nil fun _ hpins => hpins
  obtain ⟨p, _, hstep⟩ := bind_eq_ok.mp hstep
  dsimp only at hstep
  split at hstep
  · obtain ⟨outputs, _, hstep⟩ := bind_eq_ok.mp hstep
    obtain rfl := pure_eq_ok.mp hstep
    refine forall_reachTargets ?_ (targets node) .nil fun pins key hpins => hpins.insert (.text key)
    exact forall_update hstart node.id .nil fun _ hpins => hpins.insertAll outputs
  · obtain rfl := pure_eq_ok.mp hstep
    exact hstart

theorem isApart_sweep {ids : List Int} (h : reach.IsApart)
    (hsweep : sweep kinds nodes reach ids = .ok reach') : reach'.IsApart := by
  induction ids generalizing reach with
  | nil =>
    obtain rfl := Except.ok.inj hsweep
    exact h
  | cons id rest ih =>
    unfold sweep at hsweep
    split at hsweep
    · exact absurd hsweep (by simp)
    · obtain ⟨next, hnext, hrest⟩ := bind_eq_ok.mp hsweep
      exact ih (isApart_sweepNode h hnext) hrest

/-- The pins that an error can reach are different keys at each node. -/
theorem isApart_reach {mode : Liveness} {topology : List Int}
    (h : Liveness.reach mode kinds nodes topology = .ok reach) : reach.IsApart := by
  unfold Liveness.reach at h
  split at h
  · obtain rfl := Except.ok.inj h
    exact fun _ hentry => absurd hentry List.not_mem_nil
  · obtain ⟨swept, hsweep, rfl⟩ := map_eq_ok.mp h
    intro entry hentry
    rw [List.mem_mergeSort] at hentry
    exact isApart_sweep (fun _ hnone => absurd hnone List.not_mem_nil) hsweep entry
      (List.mem_of_mem_filter hentry)

/-! ## Two sweeps -/

/-- Sweeps over nodes that correspond, whose steps go together, go together. -/
theorem sweep_together {B : BoundNode → BoundNode → Prop} {S : Reach → Reach → Prop}
    {kinds' : Kinds} {nodes' : List BoundNode} (hnodes : List.Forall₂ B nodes nodes')
    (hid : ∀ node node', B node node' → node.id = node'.id)
    (hstep : ∀ node node' reach reach', nodes.find? (·.id = node.id) = some node →
      B node node' → S reach reach' →
        Together S (sweepNode kinds reach node) (sweepNode kinds' reach' node'))
    (ids : List Int) (h : S reach reach') :
    Together S (sweep kinds nodes reach ids) (sweep kinds' nodes' reach' ids) := by
  induction ids generalizing reach reach' with
  | nil => exact .ok h
  | cons id rest ih =>
    have hfound : Option.Rel B (nodes.find? (·.id = id)) (nodes'.find? (·.id = id)) :=
      Matched.find? hnodes fun _ _ hn => by rw [hid _ _ hn]
    unfold sweep
    cases hleft : nodes.find? (·.id = id) with
    | none =>
      rw [hleft] at hfound
      generalize nodes'.find? (·.id = id) = found at hfound
      cases hfound with
      | none => exact .error
    | some node =>
      have hnode : node.id = id := (Keyed.mem_of_find? hleft).2
      rw [hleft] at hfound
      generalize nodes'.find? (·.id = id) = found at hfound
      cases hfound with
      | some hn => exact (hstep _ _ _ _ (hnode ▸ hleft) hn h).bind fun _ _ hnext => ih hnext

end Patchbay.Liveness
