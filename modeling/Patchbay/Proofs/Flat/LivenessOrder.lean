import Patchbay.Proofs.Flat.BindingOrder
import Patchbay.Proofs.Flat.Liveness
import Patchbay.Proofs.Flat.Tainting

/-!
# Tracing errors through nodes that are alike

Where no type in use gives two outputs keys that are one key and not the same, a set of reached pins
does not depend on the order in which its labels come: what is one key is one label
(`LabelSet.Alike`). So the sweep over nodes that are alike reaches the same pins, or fails on both
(`Liveness.reach_together`).
-/

namespace Patchbay

/-- The outputs of a node type whose keys are one key have the same key. -/
def NodeType.OutputsClear (t : NodeType) : Prop :=
  ∀ pin ∈ t.outputs, ∀ other ∈ t.outputs, pin.sameKey other = true → pin.key = other.key

/-- The outputs of every type in use whose keys are one key have the same key. -/
def Kinds.OutputsClear (kinds : Kinds) : Prop :=
  ∀ type p, kinds.primitive type = .ok p → ∀ entry, p.entry = some entry → entry.OutputsClear

/-! ## Sets of labels -/

/-- Of these labels, those that are one key are one label. -/
def Label.Clear (U : Label → Prop) : Prop := ∀ a b, U a → U b → a.same b = true → a = b

namespace LabelSet

/-- Two sets have the same labels, each once, and all of them are among some labels. -/
structure Alike (U : Label → Prop) (set other : LabelSet) : Prop where
  nodup : set.Nodup
  nodup_right : other.Nodup
  mem_iff : ∀ a, a ∈ set ↔ a ∈ other
  known : ∀ a ∈ set, U a

variable {U : Label → Prop} (hU : Label.Clear U) {set other : LabelSet} {key : Label}
  {keys keys' : List Label}

theorem alike_nil : Alike U [] [] := ⟨.nil, .nil, fun _ => .rfl, by simp⟩

theorem Alike.isEmpty_eq (h : Alike U set other) : set.isEmpty = other.isEmpty := by
  rw [Bool.eq_iff_iff, List.isEmpty_iff, List.isEmpty_iff, List.eq_nil_iff_forall_not_mem,
    List.eq_nil_iff_forall_not_mem]
  exact forall_congr' fun a => not_congr (h.mem_iff a)

include hU

theorem insert_eq (hset : ∀ a ∈ set, U a) (hkey : U key) :
    set.insert key = if key ∈ set then set else set ++ [key] := by
  have hholds : set.holds key = true ↔ key ∈ set := by
    refine ⟨fun h => ?_, holds_of_mem⟩
    obtain ⟨a, ha, hsame⟩ := List.any_eq_true.mp h
    exact hU a key (hset a ha) hkey hsame ▸ ha
  unfold LabelSet.insert
  simp only [hholds]

theorem mem_insert_iff (hset : ∀ a ∈ set, U a) (hkey : U key) (a : Label) :
    a ∈ set.insert key ↔ a ∈ set ∨ a = key := by
  rw [insert_eq hU hset hkey]
  split
  · next h => exact ⟨.inl, fun ha => ha.elim id (· ▸ h)⟩
  · rw [List.mem_append, List.mem_singleton]

theorem nodup_insert (hn : set.Nodup) (hset : ∀ a ∈ set, U a) (hkey : U key) :
    (set.insert key).Nodup := by
  rw [insert_eq hU hset hkey]
  split
  · exact hn
  · next h =>
    rw [← List.concat_eq_append, List.nodup_concat]
    exact ⟨h, hn⟩

/-- A set with more labels has each of them once. -/
theorem insertAll_spec (hn : set.Nodup) (hset : ∀ a ∈ set, U a) (hkeys : ∀ a ∈ keys, U a) :
    (set.insertAll keys).Nodup ∧ ∀ a, a ∈ set.insertAll keys ↔ a ∈ set ∨ a ∈ keys := by
  induction keys generalizing set with
  | nil => exact ⟨hn, fun a => by simp [LabelSet.insertAll]⟩
  | cons key rest ih =>
    obtain ⟨hkey, hrest⟩ := List.forall_mem_cons.mp hkeys
    have hmem := mem_insert_iff hU hset hkey
    have hnext : ∀ a ∈ set.insert key, U a := fun a ha =>
      ((hmem a).mp ha).elim (hset a) (· ▸ hkey)
    obtain ⟨hnodup, hall⟩ := ih (nodup_insert hU hn hset hkey) hnext hrest
    refine ⟨hnodup, fun a => (hall a).trans ?_⟩
    rw [hmem, List.mem_cons, or_assoc]

theorem Alike.insertAll (h : Alike U set other) (hkeys : keys.Perm keys')
    (hknown : ∀ a ∈ keys, U a) : Alike U (set.insertAll keys) (other.insertAll keys') := by
  have hother : ∀ a ∈ other, U a := fun a ha => h.known a ((h.mem_iff a).mpr ha)
  obtain ⟨hn, hmem⟩ := insertAll_spec hU h.nodup h.known hknown
  obtain ⟨hn', hmem'⟩ := insertAll_spec hU h.nodup_right hother
    fun a ha => hknown a (hkeys.mem_iff.mpr ha)
  refine ⟨hn, hn', fun a => ?_, fun a ha => ((hmem a).mp ha).elim (h.known a) (hknown a)⟩
  rw [hmem, hmem', h.mem_iff, hkeys.mem_iff]

theorem Alike.insert (h : Alike U set other) (hkey : U key) :
    Alike U (set.insert key) (other.insert key) :=
  h.insertAll hU (.refl [key]) (List.forall_mem_singleton.mpr hkey)

/-- Sets with the same labels have one ascending order, or none. -/
theorem Alike.sorted (h : Alike U set other) (hnan : ∀ a, U a → a.NotNaN) :
    Together Eq set.sorted other.sorted := by
  have hperm : set.Perm other :=
    (List.perm_ext_iff_of_nodup h.nodup h.nodup_right).mpr h.mem_iff
  have hshuffled : Shuffled Eq set other := .of_perm (fun _ _ => rfl) hperm
  have hapart : Label.Apart (set.map id) := by
    rw [List.map_id]
    refine h.nodup.imp_of_mem fun {a b} ha hb hne => ?_
    rw [← Bool.not_eq_true]
    exact fun hsame => hne (hU a b (h.known a ha) (h.known b hb) hsame)
  exact (Label.sortOn_together hshuffled (fun _ _ => id) hapart
    fun a ha => hnan a (h.known a ha)).mono fun _ _ hsorted => by
      rwa [List.forall₂_eq_eq_eq] at hsorted

end LabelSet

namespace Liveness

/-! ## A reach -/

/-- Two rows of sets, by node, that have the same labels. -/
def Reach.Alike (U : Int → Label → Prop) : Reach → Reach → Prop :=
  List.Forall₂ fun entry other => entry.1 = other.1 ∧ LabelSet.Alike (U entry.1) entry.2 other.2

section Reach

variable {U : Int → Label → Prop} {reach reach' : Reach}

theorem pinsOf_alike (h : Reach.Alike U reach reach') (id : Int) :
    LabelSet.Alike (U id) (pinsOf reach id) (pinsOf reach' id) := by
  induction h with
  | nil => exact LabelSet.alike_nil
  | @cons entry other rest rest' hr _ ih =>
    obtain ⟨k, pins⟩ := entry
    obtain ⟨k', pins'⟩ := other
    obtain ⟨rfl, hpins⟩ := hr
    unfold pinsOf
    rw [List.lookup_cons, List.lookup_cons]
    by_cases hid : id = k
    · subst hid
      simpa using hpins
    · rw [beq_false_of_ne hid]
      exact ih

theorem update_alike (h : Reach.Alike U reach reach') (id : Int) {f g : LabelSet → LabelSet}
    (hfg : ∀ set other, LabelSet.Alike (U id) set other →
      LabelSet.Alike (U id) (f set) (g other)) :
    Reach.Alike U (update id f reach) (update id g reach') := by
  induction h with
  | nil => exact .cons ⟨rfl, hfg _ _ LabelSet.alike_nil⟩ .nil
  | @cons entry other rest rest' hr hmatch ih =>
    obtain ⟨k, pins⟩ := entry
    obtain ⟨k', pins'⟩ := other
    obtain ⟨rfl, hpins⟩ := hr
    unfold update
    split
    · next hid =>
      subst hid
      exact .cons ⟨rfl, hfg _ _ hpins⟩ hmatch
    · exact .cons ⟨rfl, hpins⟩ ih

theorem reachTargets_alike (hU : ∀ id, Label.Clear (U id)) (htext : ∀ id s, U id (.text s))
    (links : List OutLink) (h : Reach.Alike U reach reach') :
    Reach.Alike U (reachTargets reach links) (reachTargets reach' links) := by
  induction links generalizing reach reach' with
  | nil => exact h
  | cons link rest ih =>
    exact ih (update_alike h link.node fun set other hs =>
      hs.insert (hU link.node) (htext link.node link.key))

end Reach

/-! ## Outputs -/

theorem labelsOf_eq_mapM (pins : List Pin) : labelsOf pins =
    pins.mapM fun pin => (Label.ofValue pin.key).mapError Failure.fault := by
  induction pins with
  | nil => rfl
  | cons pin rest ih =>
    rw [labelsOf, List.mapM_cons, ← ih]
    cases Label.ofValue pin.key with
    | error fault => rfl
    | ok label =>
      cases labelsOf rest with
      | error failure => rfl
      | ok labels => rfl

theorem outputs_shuffled {entry entry' : Option NodeType}
    (h : Option.Rel NodeType.Alike entry entry') :
    Shuffled Pin.Alike (entry.elim [] NodeType.outputs) (entry'.elim [] NodeType.outputs) := by
  cases h with
  | none => exact .nil
  | some h =>
    exact (h.pins.map fun _ _ hp => hp.2).filter fun _ _ hp => by rw [hp.direction_eq]

/-- The outputs of nodes that are alike are the same up to order. -/
theorem outputs_together {entry entry' : Option NodeType} {node node' : BoundNode}
    (h : Option.Rel NodeType.Alike entry entry') (hn : BoundNode.Alike node node') :
    Together List.Perm (outputs entry node) (outputs entry' node') := by
  have hlabels : Together (Shuffled Eq) (labelsOf (entry.elim [] NodeType.outputs))
      (labelsOf (entry'.elim [] NodeType.outputs)) := by
    rw [labelsOf_eq_mapM, labelsOf_eq_mapM]
    refine (outputs_shuffled h).mapM fun pin pin' hp => ?_
    rcases Label.ofValue_cases hp.key with hkey | ⟨⟨_, hfault⟩, _, hfault'⟩
    · rw [hkey]
      exact Together.same _
    · rw [hfault, hfault']
      exact .error
  unfold outputs
  rw [← hn.outLinks_eq]
  exact hlabels.map fun _ _ hdeclared => hdeclared.perm.append_left _

/-- The labels that a reach may hold for the node of an id: texts, and the outputs of its type. -/
def MayReach (kinds : Kinds) (nodes : List BoundNode) (id : Int) (label : Label) : Prop :=
  label.IsText ∨ ∃ node, nodes.find? (·.id = id) = some node ∧
    ∃ p, kinds.primitive node.type = .ok p ∧ ∃ t, p.entry = some t ∧
      ∃ pin ∈ t.outputs, Label.ofValue pin.key = .ok label

section Known

variable {kinds kinds' : Kinds} {nodes nodes' : List BoundNode} {reach reach' : Reach}

theorem clear_mayReach (hclear : kinds.OutputsClear) (id : Int) :
    Label.Clear (MayReach kinds nodes id) := by
  rintro a b ha (⟨s, rfl⟩ | ⟨node, hnode, p, hp, t, ht, pin, hpin, hb⟩) hsame
  · exact Label.eq_text_of_same hsame
  · rcases ha with ⟨s, rfl⟩ | ⟨node', hnode', p', hp', t', ht', pin', hpin', ha⟩
    · exact (Label.eq_text_of_same ((Label.same_comm _ _).trans hsame)).symm
    · obtain rfl := Option.some.inj (hnode.symm.trans hnode')
      obtain rfl := Except.ok.inj (hp.symm.trans hp')
      obtain rfl := Option.some.inj (ht.symm.trans ht')
      have hkey := hclear _ p hp t ht pin' hpin' pin hpin ((Pin.sameKey_eq ha hb).trans hsame)
      exact Except.ok.inj (ha.symm.trans (hkey ▸ hb))

theorem notNaN_mayReach (hnan : kinds.NaNFree) {id : Int} {label : Label}
    (h : MayReach kinds nodes id label) : label.NotNaN := by
  rcases h with ⟨s, rfl⟩ | ⟨node, _, p, hp, t, ht, pin, hpin, hlabel⟩
  · exact Label.notNaN_text s
  · obtain ⟨entry, hentry, rfl⟩ := List.mem_map.mp (List.mem_of_mem_filter hpin)
    exact BoundNode.notNaN_of_ofValue (hnan _ p hp t ht entry hentry) hlabel

theorem mayReach_of_outputs {node : BoundNode} {p : Primitive} {labels : List Label}
    (hnode : nodes.find? (·.id = node.id) = some node) (hp : kinds.primitive node.type = .ok p)
    (h : outputs p.entry node = .ok labels) :
    ∀ label ∈ labels, MayReach kinds nodes node.id label := by
  obtain ⟨declared, hdeclared, rfl⟩ := map_eq_ok.mp h
  intro label hlabel
  rcases List.mem_append.mp hlabel with hlabel | hlabel
  · obtain ⟨link, _, rfl⟩ := List.mem_map.mp hlabel
    exact .inl (Label.isText_text link.1)
  · obtain ⟨pin, hpin, hof⟩ := (mem_labelsOf_iff hdeclared).mp hlabel
    cases hentry : p.entry with
    | none =>
      rw [hentry] at hpin
      exact absurd hpin List.not_mem_nil
    | some t =>
      rw [hentry] at hpin
      exact .inr ⟨node, hnode, p, hp, t, hentry, pin, hpin, hof⟩

/-! ## The sweep -/

variable (hkinds : Kinds.Alike kinds kinds') (hclear : kinds.OutputsClear)
include hkinds hclear

theorem sweepNode_together {node node' : BoundNode}
    (hnode : nodes.find? (·.id = node.id) = some node) (hn : BoundNode.Alike node node')
    (h : Reach.Alike (MayReach kinds nodes) reach reach') :
    Together (Reach.Alike (MayReach kinds nodes)) (sweepNode kinds reach node)
      (sweepNode kinds' reach' node') := by
  unfold sweepNode
  rw [← hn.type_eq, ← hn.id_eq]
  refine (hkinds.primitive node.type).results.bind fun p q ⟨hpq, hp, _⟩ => ?_
  have hstart := update_alike h node.id (f := fun pins => pins) (g := fun pins => pins)
    fun _ _ => id
  have hpins := pinsOf_alike hstart node.id
  have hraises : p.entry.elim false NodeType.raises = q.entry.elim false NodeType.raises := by
    have hentry := hpq.entry
    generalize p.entry = entry at hentry
    generalize q.entry = entry' at hentry
    cases hentry with
    | none => rfl
    | some hentry => exact hentry.raises_eq
  dsimp only
  rw [← hraises, ← hpins.isEmpty_eq]
  split
  · refine (outputs_together hpq.entry hn).results.bind fun labels labels' hlabels => ?_
    obtain ⟨hperm, hlabels, _⟩ := hlabels
    have htargets : targets node = targets node' := by rw [targets, targets, hn.outLinks_eq]
    rw [← htargets]
    refine .ok (reachTargets_alike (clear_mayReach hclear) (fun _ s => .inl ⟨s, rfl⟩) _ ?_)
    exact update_alike hstart node.id fun set other hs =>
      hs.insertAll (clear_mayReach hclear node.id) hperm (mayReach_of_outputs hnode hp hlabels)
  · exact .ok hstart

/-- Errors reach the same pins of nodes that are alike, or the sweep fails on both. -/
theorem reach_together (mode : Liveness) (hnodes : List.Forall₂ BoundNode.Alike nodes nodes')
    (topology : List Int) :
    Together (Reach.Alike (MayReach kinds nodes)) (Liveness.reach mode kinds nodes topology)
      (Liveness.reach mode kinds' nodes' topology) := by
  unfold Liveness.reach
  split
  · exact .ok .nil
  · have hswept := sweep_together (S := Reach.Alike (MayReach kinds nodes)) hnodes
      (fun _ _ hn => hn.id_eq) (fun _ _ _ _ hnode hn h =>
        sweepNode_together hkinds hclear hnode hn h) topology .nil
    refine hswept.map fun swept swept' h => ?_
    refine Matched.mergeSort (List.rel_filter (fun entry entry' hr => ?_) h)
      fun a b a' b' ha hb => by rw [ha.1, hb.1]
    exact Bool.eq_iff_iff.mp (congrArg not hr.2.isEmpty_eq)

omit hclear in
/-- The pins that errors reach have the same ascending orders. In a mode that does not track errors,
none is reached, whatever the keys of the outputs. -/
theorem reach_sorted_together {mode : Liveness} (hclear : mode ≠ .none → kinds.OutputsClear)
    (hnan : kinds.NaNFree) (hnodes : List.Forall₂ BoundNode.Alike nodes nodes')
    (topology : List Int) :
    Together (List.Forall₂ fun entry entry' : Int × LabelSet => entry.1 = entry'.1 ∧
        Together Eq entry.2.sorted entry'.2.sorted)
      (Liveness.reach mode kinds nodes topology) (Liveness.reach mode kinds' nodes' topology) := by
  by_cases hmode : mode = .none
  · unfold Liveness.reach
    rw [if_pos hmode, if_pos hmode]
    exact .ok .nil
  · have hclear := hclear hmode
    refine (reach_together hkinds hclear mode hnodes topology).mono fun _ _ h => ?_
    exact h.imp fun entry _ hr => ⟨hr.1, hr.2.sorted (clear_mayReach hclear entry.1)
      fun _ => notNaN_mayReach hnan⟩

end Known

end Liveness

end Patchbay
