import Mathlib.Data.List.Induction
import Patchbay.Flat.Inlining
import Patchbay.Proofs.Project.Occurrence

/-!
# Numbered copies

The copies of the nodes of a patch and their places come from one numbering of the nodes
(`copies_eq`, `placesFrom_eq`): the place of a node is the id of its copy (`place_eq_ok_iff`).

Literal values of an instance change its copies one after the other (`setProperty_copies`): a copy
holds the value that the last key for its terminal gives (`settle`).
-/

namespace Patchbay

/-- A key of a literal value that names the node of this id. -/
def KeyNames (key : String) (id : Int) : Prop :=
  ∃ d terminal, PinRef.parse key = .boundary d terminal ∧ (terminal : Int) = id

namespace Inlining

/-- Nodes with the numbers from `first` on. -/
def numbered (first : Int) : List Node → List (Int × Node)
  | [] => []
  | node :: rest => (first, node) :: numbered (first + 1) rest

variable {first : Int} {nodes : List Node} {patch : Patch} {node : Node} {i j : Int}

theorem map_snd_numbered (first : Int) (nodes : List Node) :
    (numbered first nodes).map Prod.snd = nodes := by
  induction nodes generalizing first with
  | nil => rfl
  | cons node rest ih => simp only [numbered, List.map_cons, ih]

theorem mem_of_numbered (h : (i, node) ∈ numbered first nodes) : node ∈ nodes := by
  rw [← map_snd_numbered first nodes]
  exact List.mem_map_of_mem (f := Prod.snd) h

theorem exists_numbered (h : node ∈ nodes) (first : Int) :
    ∃ i, (i, node) ∈ numbered first nodes := by
  rw [← map_snd_numbered first nodes] at h
  obtain ⟨⟨i, _⟩, hmem, rfl⟩ := List.mem_map.mp h
  exact ⟨i, hmem⟩

theorem le_of_numbered (h : (i, node) ∈ numbered first nodes) : first ≤ i := by
  induction nodes generalizing first with
  | nil => exact absurd h List.not_mem_nil
  | cons m rest ih =>
    rcases List.mem_cons.mp h with h | h
    · have := (Prod.mk.inj h).1
      omega
    · have := ih h
      omega

theorem lt_of_numbered (h : (i, node) ∈ numbered first nodes) : i < first + nodes.length := by
  induction nodes generalizing first with
  | nil => exact absurd h List.not_mem_nil
  | cons m rest ih =>
    rcases List.mem_cons.mp h with h | h
    · obtain rfl := (Prod.mk.inj h).1
      simp only [List.length_cons]
      omega
    · have := ih h
      simp only [List.length_cons]
      omega

/-- Different copies have different numbers. -/
theorem nodup_numbers (first : Int) (nodes : List Node) :
    ((numbered first nodes).map Prod.fst).Nodup := by
  induction nodes generalizing first with
  | nil => exact List.nodup_nil
  | cons node rest ih =>
    refine List.nodup_cons.mpr ⟨fun h => ?_, ih (first + 1)⟩
    obtain ⟨⟨i, m⟩, hmem, rfl⟩ := List.mem_map.mp h
    exact absurd (le_of_numbered hmem) (by omega)

theorem node_of_number {m : Node} (h : (i, node) ∈ numbered first nodes)
    (h' : (i, m) ∈ numbered first nodes) : node = m :=
  (Prod.mk.inj (List.inj_on_of_nodup_map (nodup_numbers first nodes) h h' rfl)).2

theorem number_of_id (hnodes : (nodes.map Node.id).Nodup) {m : Node}
    (h : (i, node) ∈ numbered first nodes) (h' : (j, m) ∈ numbered first nodes)
    (hid : node.id = m.id) : i = j := by
  have hn : ((numbered first nodes).map (Node.id ∘ Prod.snd)).Nodup := by
    rwa [← List.map_map, map_snd_numbered]
  exact (Prod.mk.inj (List.inj_on_of_nodup_map hn h h' hid)).1

/-! ## Places -/

theorem placesFrom_eq (first : Int) (nodes : List Node) :
    placesFrom first nodes = (numbered first nodes).map fun (i, node) => (node.id, i) := by
  induction nodes generalizing first with
  | nil => rfl
  | cons node rest ih => simp only [placesFrom, numbered, List.map_cons, ih]

theorem lookup_placesFrom (hnodes : (nodes.map Node.id).Nodup)
    (h : (i, node) ∈ numbered first nodes) :
    (placesFrom first nodes).lookup node.id = some i := by
  induction nodes generalizing first with
  | nil => exact absurd h List.not_mem_nil
  | cons m rest ih =>
    obtain ⟨hm, hrest⟩ := List.nodup_cons.mp hnodes
    rw [placesFrom]
    rcases List.mem_cons.mp h with h | h
    · obtain ⟨rfl, rfl⟩ := Prod.mk.inj h
      exact List.lookup_cons_self
    · have hne : node.id ≠ m.id := fun hid => hm (hid ▸ List.mem_map_of_mem (mem_of_numbered h))
      rw [List.lookup_cons, beq_false_of_ne hne]
      exact ih hrest h

/-- The places of a patch are the numbers of its nodes. -/
theorem place_eq_ok_iff (hnodes : (nodes.map Node.id).Nodup) {id : Int} :
    place (placesFrom first nodes) id = .ok i ↔
      ∃ node, (i, node) ∈ numbered first nodes ∧ node.id = id := by
  constructor
  · intro h
    unfold place at h
    split at h
    · next global hlookup =>
      obtain rfl := Except.ok.inj h
      rw [placesFrom_eq] at hlookup
      obtain ⟨before, after, hsplit, -⟩ := List.lookup_eq_some_iff.mp hlookup
      obtain ⟨⟨j, m⟩, hm, hpair⟩ := List.mem_map.mp
        (show (id, global) ∈ (numbered first nodes).map fun (i, node) => (node.id, i) by
          rw [hsplit]; simp)
      obtain ⟨rfl, rfl⟩ := Prod.mk.inj hpair
      exact ⟨m, hm, rfl⟩
    · exact absurd h (by simp)
  · rintro ⟨node, hmem, rfl⟩
    unfold place
    rw [lookup_placesFrom hnodes hmem]

/-! ## Copies -/

/-- The properties of a node with the literal values that keys for it give, the last one first. -/
def settle (literals : Members) (id : Int) (properties : Members) : Members :=
  literals.foldl (fun held literal =>
    match PinRef.parse literal.1 with
    | .boundary _ terminal =>
      if (terminal : Int) = id then held.put Terminal.pinKey literal.2 else held
    | .named _ => held) properties

/-- The copy of a numbered node below a debug id, with literal values of the instance. -/
def copyOf (literals : Members) (debugId : String) (entry : Int × Node) : FlatNode where
  id := entry.1
  type := entry.2.type
  properties := settle literals entry.2.id entry.2.properties
  arity := entry.2.arity
  debugId := debugId ++ "~" ++ Text.Numeral.intText entry.2.id

theorem settle_concat_of_names {key : String} {id : Int} (h : KeyNames key id) (literals : Members)
    (value : Value) (properties : Members) :
    settle (literals ++ [(key, value)]) id properties =
      (settle literals id properties).put Terminal.pinKey value := by
  obtain ⟨d, terminal, hparse, hid⟩ := h
  unfold settle
  rw [List.foldl_concat]
  simp only [hparse, hid, if_true]

theorem settle_concat_of_not_names {key : String} {id : Int} (h : ¬ KeyNames key id)
    (literals : Members) (value : Value) (properties : Members) :
    settle (literals ++ [(key, value)]) id properties = settle literals id properties := by
  unfold settle
  rw [List.foldl_concat]
  cases hparse : PinRef.parse key with
  | named key => rfl
  | boundary d terminal =>
    dsimp only
    exact if_neg fun hid => h ⟨d, terminal, hparse, hid⟩

/-- No key that names another node, or none, changes the properties. -/
theorem settle_eq_self {literals : Members} {id : Int} {properties : Members}
    (h : ∀ literal ∈ literals, ¬ KeyNames literal.1 id) :
    settle literals id properties = properties := by
  induction literals using List.reverseRecOn with
  | nil => rfl
  | append_singleton done literal ih =>
    obtain ⟨key, value⟩ := literal
    rw [settle_concat_of_not_names (h (key, value) (by simp)),
      ih fun l hl => h l (List.mem_append_left _ hl)]

theorem copies_eq (debugId : String) (first : Int) (nodes : List Node) :
    copies debugId first nodes = (numbered first nodes).map (copyOf [] debugId) := by
  induction nodes generalizing first with
  | nil => rfl
  | cons node rest ih =>
    simp only [copies, numbered, List.map_cons, ih, copyOf, settle, List.foldl_nil]

theorem map_id_copies (literals : Members) (debugId : String) (entries : List (Int × Node)) :
    (entries.map (copyOf literals debugId)).map FlatNode.id = entries.map Prod.fst := by
  rw [List.map_map]
  rfl

/-- A value set on the place of a terminal is one more literal value. -/
theorem setProperty_copies (hnodes : (nodes.map Node.id).Nodup) {terminal : Nat} {d : Direction}
    {global : Int} {key : String} (hparse : PinRef.parse key = .boundary d terminal)
    (hplace : place (placesFrom first nodes) terminal = .ok global) (literals : Members)
    (debugId : String) (value : Value) :
    setProperty global Terminal.pinKey value
        ((numbered first nodes).map (copyOf literals debugId)) =
      (numbered first nodes).map (copyOf (literals ++ [(key, value)]) debugId) := by
  obtain ⟨m, hm, hmid⟩ := (place_eq_ok_iff hnodes).mp hplace
  unfold setProperty
  rw [List.map_map]
  refine List.map_congr_left fun (i, node) hmem => ?_
  have hiff : i = global ↔ KeyNames key node.id := by
    constructor
    · rintro rfl
      exact ⟨d, terminal, hparse, by rw [node_of_number hmem hm, hmid]⟩
    · rintro ⟨d', terminal', hparse', hid⟩
      obtain ⟨_, rfl⟩ := PinRef.boundary.inj (hparse.symm.trans hparse')
      exact number_of_id hnodes hmem hm (hid.symm.trans hmid.symm)
  by_cases hnames : KeyNames key node.id
  · simp only [Function.comp_apply, copyOf, hiff, hnames, if_true,
      settle_concat_of_names hnames]
  · simp only [Function.comp_apply, copyOf, hiff, hnames, if_false,
      settle_concat_of_not_names hnames]

/-- Nodes of other ids keep their properties. -/
theorem setProperty_eq_self {global : Int} {flats : List FlatNode}
    (h : ∀ flat ∈ flats, flat.id ≠ global) (key : String) (value : Value) :
    setProperty global key value flats = flats := by
  unfold setProperty
  conv_rhs => rw [← List.map_id flats]
  exact List.map_congr_left fun flat hflat => if_neg (h flat hflat)

/-! ## Nodes that arrive -/

theorem putNode_of_fresh {flat : FlatNode} {flats : List FlatNode}
    (h : flat.id ∉ flats.map FlatNode.id) : putNode flat flats = flats ++ [flat] := by
  induction flats with
  | nil => rfl
  | cons other rest ih =>
    obtain ⟨hne, hrest⟩ := not_or.mp (fun hm => h (List.mem_cons.mpr hm))
    rw [putNode, if_neg (Ne.symm hne), ih hrest, List.cons_append]

/-- Nodes of new ids arrive at the end. -/
theorem foldl_putNode {flats added : List FlatNode}
    (h : ((flats ++ added).map FlatNode.id).Nodup) :
    added.foldl (fun flats flat => putNode flat flats) flats = flats ++ added := by
  induction added generalizing flats with
  | nil => exact (List.append_nil flats).symm
  | cons flat rest ih =>
    have hfresh : flat.id ∉ flats.map FlatNode.id := by
      rw [List.map_append, List.map_cons] at h
      exact fun hm => (List.nodup_append.mp h).2.2 _ hm _ List.mem_cons_self rfl
    rw [List.foldl_cons, putNode_of_fresh hfresh, ih (by simpa using h), List.append_assoc,
      List.singleton_append]

/-! ## Nodes of a patch in order -/

theorem mem_sortedNodes : node ∈ patch.sortedNodes ↔ node ∈ patch.nodes :=
  (List.mergeSort_perm _ _).mem_iff

theorem length_sortedNodes (patch : Patch) : patch.sortedNodes.length = patch.nodes.length :=
  (List.mergeSort_perm _ _).length_eq

theorem nodup_sortedNodes (hp : patch.Sound) : (patch.sortedNodes.map Node.id).Nodup :=
  (((List.mergeSort_perm _ _).map Node.id).nodup_iff).mpr hp.ids_nodup

/-- The nodes come by ascending id. -/
theorem pairwise_sortedNodes (hp : patch.Sound) :
    patch.sortedNodes.Pairwise fun m n => m.id < n.id :=
  ((Keyed.pairwise_mergeSort_le Node.id patch.nodes).and
    (List.pairwise_map.mp (nodup_sortedNodes hp))).imp fun ⟨hle, hne⟩ =>
      Int.lt_iff_le_and_ne.mpr ⟨hle, hne⟩

end Inlining

end Patchbay
