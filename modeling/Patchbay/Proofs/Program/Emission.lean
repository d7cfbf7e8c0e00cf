import Patchbay.Program.Emission
import Patchbay.Proofs.Flat.Liveness

/-!
# Programs of sound units

A unit whose schedule names its nodes, and whose pins are keyed by texts, has a program for every
backend (`emit_eq_ok`): each step that writes a part of it succeeds.
-/

namespace Patchbay

/-- A unit that can be written out. -/
structure CompiledUnit.Sound (unit : CompiledUnit) : Prop where
  inputTypes : ∀ node ∈ unit.nodes, node.inputTypes.HasTexts
  properties : ∀ node ∈ unit.nodes, node.properties.HasTexts
  scheduled : ∀ id ∈ unit.topology, id ∈ unit.nodes.map BoundNode.id
  affected : unit.affected.HasTexts

variable {unit : CompiledUnit} {node : BoundNode}

namespace CompiledUnit.Sound

theorem nodesAt_eq_ok {ids : List Int} (hids : ∀ id ∈ ids, id ∈ unit.nodes.map BoundNode.id) :
    ∃ nodes, unit.nodesAt ids = .ok nodes ∧ ∀ node ∈ nodes, node ∈ unit.nodes := by
  induction ids with
  | nil => exact ⟨[], rfl, by simp⟩
  | cons id rest ih =>
    obtain ⟨found, hfoundmem, hfound, _⟩ := Keyed.exists_find? (hids id List.mem_cons_self)
    obtain ⟨others, hothers, hmem⟩ :=
      ih fun other hother => hids other (List.mem_cons_of_mem _ hother)
    refine ⟨found :: others, ?_, ?_⟩
    · simp only [nodesAt, hfound, hothers, Except.map]
    · intro node hnode
      rcases List.mem_cons.mp hnode with rfl | hnode
      · exact hfoundmem
      · exact hmem node hnode

theorem orderedNodes_eq_ok (hu : unit.Sound) :
    ∃ nodes, unit.orderedNodes = .ok nodes ∧ ∀ node ∈ nodes, node ∈ unit.nodes :=
  nodesAt_eq_ok hu.scheduled

theorem errorPins_sorted (hu : unit.Sound) (id : Int) :
    ∃ pins, (unit.errorPins id).sorted = .ok pins :=
  (hu.affected.pinsOf id).sorted

end CompiledUnit.Sound

namespace Backend

theorem record_eq_ok (hu : unit.Sound) (hnode : node ∈ unit.nodes) :
    ∃ text, record unit node = .ok text := by
  obtain ⟨pins, hpins⟩ := hu.errorPins_sorted node.id
  obtain ⟨types, htypes⟩ := (hu.inputTypes node hnode).sortedMembers .str
  obtain ⟨values, hvalues⟩ := (hu.properties node hnode).sortedMembers Value.sortKeys
  simp only [record, BoundNode.sortedValue, hpins, htypes, hvalues, bind, Except.bind, pure,
    Except.pure]
  exact ⟨_, rfl⟩

theorem node_eq_ok (backend : Backend) (hu : unit.Sound) (hnode : node ∈ unit.nodes)
    (w : Writer) : ∃ w', Backend.node backend unit node w = .ok w' := by
  cases backend with
  | base => exact ⟨_, rfl⟩
  | js =>
    obtain ⟨text, htext⟩ := record_eq_ok hu hnode
    simp only [Backend.node, htext]
    exact ⟨_, rfl⟩
  | cpp => exact ⟨_, rfl⟩

theorem evaluations_eq_ok (hu : unit.Sound) (nodes : List BoundNode) (w : Writer) :
    ∃ w', evaluations unit w nodes = .ok w' := by
  induction nodes generalizing w with
  | nil => exact ⟨w, rfl⟩
  | cons node rest ih =>
    obtain ⟨pins, hpins⟩ := hu.errorPins_sorted node.id
    unfold evaluations
    dsimp only
    split
    · apply ih
    · rw [hpins]
      apply ih

theorem footer_eq_ok (backend : Backend) (hu : unit.Sound) (w : Writer) :
    ∃ w', backend.footer unit w = .ok w' := by
  cases backend with
  | base => exact ⟨_, rfl⟩
  | js => exact ⟨_, rfl⟩
  | cpp =>
    obtain ⟨nodes, hnodes, _⟩ := hu.orderedNodes_eq_ok
    obtain ⟨last, hlast⟩ :=
      evaluations_eq_ok hu nodes (w.blank.line "void runTransaction() \x7b").push
    refine ⟨last.pop.extend ["\x7d", "", "\x7d // namespace patchflow"], ?_⟩
    simp only [footer, hnodes, hlast, Except.map]

end Backend

namespace Program

theorem nodes_eq_ok (backend : Backend) (hu : unit.Sound) {nodes : List BoundNode}
    (hnodes : ∀ node ∈ nodes, node ∈ unit.nodes) (w : Writer) :
    ∃ w', Program.nodes backend unit w nodes = .ok w' := by
  induction nodes generalizing w with
  | nil => exact ⟨w, rfl⟩
  | cons node rest ih =>
    obtain ⟨next, hnext⟩ := Backend.node_eq_ok backend hu (hnodes node List.mem_cons_self) w
    simp only [Program.nodes, hnext, bind, Except.bind]
    exact ih (fun other hother => hnodes other (List.mem_cons_of_mem _ hother)) next

theorem written_eq_ok (backend : Backend) (hu : unit.Sound) :
    ∃ w, written backend unit = .ok w := by
  obtain ⟨ordered, hordered, hmem⟩ := hu.orderedNodes_eq_ok
  unfold written
  simp only [hordered, bind, Except.bind]
  obtain ⟨w, hw⟩ := nodes_eq_ok backend hu hmem
    ((implementations backend unit (backend.header unit backend.writer).blank).comment
      (sectionTitle "Nodes" 50))
  rw [hw]
  exact Backend.footer_eq_ok backend hu w

/-- A sound unit has a program for every backend. -/
theorem emit_eq_ok (hu : unit.Sound) {name : Value} {backend : Backend}
    (hname : Backend.ofValue name = .ok backend) : ∃ program, emit unit name = .ok program := by
  obtain ⟨w, hw⟩ := written_eq_ok backend hu
  simp only [emit, hname, hw, bind, Except.bind]
  exact ⟨_, rfl⟩

end Program

end Patchbay
