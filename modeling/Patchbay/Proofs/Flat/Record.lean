import Patchbay.Proofs.Flat.Leaves
import Patchbay.Proofs.Json.Reordering
import Patchbay.Proofs.Label

/-!
# Nodes as records

The record of a node holds the members of its value with all keys ascending, behind the pins that an
error can reach, if there are any (`sortedValue_eq`).
-/

namespace Patchbay

namespace Members

theorem sorted_eq_self {members : Members}
    (h : (members.map Prod.fst).Pairwise fun s t => Text.le s t = true) :
    members.sorted = members :=
  List.mergeSort_of_pairwise (List.pairwise_map.mp h)

end Members

theorem Label.toValue_injective : Function.Injective Label.toValue := by
  intro a b h
  cases a <;> cases b <;> simp_all [toValue]

theorem Table.sortedMembers_eq {α : Type} {table : Table α} (h : table.HasTexts)
    (value : α → Value) : Table.sortedMembers value table =
      .ok (Members.sorted (BoundNode.tableMembers Label.keyText value table)) := by
  unfold Table.sortedMembers Label.sortOn
  rw [if_pos (Label.areAlike_of_texts _ h)]
  show Except.ok _ = Except.ok _
  congr 1
  refine List.map_mergeSort fun a ha b hb => ?_
  obtain ⟨s, hs⟩ := h a ha
  obtain ⟨t, ht⟩ := h b hb
  show a.1.le b.1 = Text.le a.1.keyText b.1.keyText
  rw [hs, ht]
  rfl

namespace BoundNode

variable {node : BoundNode}

/-- The members of the value of a node, with all keys ascending. -/
def recordMembers (node : BoundNode) : Members :=
  [("id", .int node.id), ("implId", .str node.type),
    ("inputTypes", .obj (Members.sorted (tableMembers Label.keyText .str node.inputTypes))),
    ("outLinks", .obj node.outLinkMembers),
    ("props", .obj (Members.sorted (tableMembers Label.keyText Value.sortKeys node.properties))),
    ("pure", .bool node.pure)]

theorem sortKeys_outLinkValue (link : OutLink) :
    (outLinkValue link).sortKeys = outLinkValue link := by
  have hsorted : Members.sorted [("key", .str link.key), ("nodeId", .int link.node)] =
      [("key", .str link.key), ("nodeId", .int link.node)] :=
    Members.sorted_eq_self
      (show ["key", "nodeId"].Pairwise (fun s t => Text.le s t = true) by decide)
  exact congrArg Value.obj hsorted

theorem sortKeys_outLinkMembers (node : BoundNode) :
    (Value.obj node.outLinkMembers).sortKeys = .obj node.outLinkMembers := by
  have hitems : ∀ links : List OutLink,
      Value.sortItems (links.map outLinkValue) = links.map outLinkValue := fun _ =>
    Value.sortItems_eq_self (List.forall_mem_map.mpr fun link _ => sortKeys_outLinkValue link)
  have hvalues : Value.sortMembers node.outLinkMembers = node.outLinkMembers := by
    rw [Value.sortMembers_eq_map]
    refine (List.map_congr_left fun member hmember => ?_).trans (List.map_id _)
    obtain ⟨entry, _, rfl⟩ := List.mem_map.mp ((List.mergeSort_perm _ _).mem_iff.mp hmember)
    exact Prod.ext rfl (congrArg Value.arr (hitems entry.2))
  rw [Value.sortKeys, hvalues, Members.sorted_eq_self]
  exact List.pairwise_map.mpr (Members.pairwise_sorted _)

theorem sortMembers_tableMembers {α : Type} (value : α → Value) (table : Table α) :
    Value.sortMembers (tableMembers Label.keyText value table) =
      tableMembers Label.keyText (fun a => (value a).sortKeys) table := by
  rw [Value.sortMembers_eq_map, tableMembers, List.map_map]
  rfl

/-- With its keys ascending, the value of a node is that of its record. -/
theorem sortKeys_toValue (node : BoundNode) : node.toValue.sortKeys = .obj node.recordMembers := by
  have hvalues : Value.sortMembers [("id", .int node.id), ("implId", .str node.type),
      ("pure", .bool node.pure),
      ("inputTypes", .obj (tableMembers Label.keyText .str node.inputTypes)),
      ("outLinks", .obj node.outLinkMembers),
      ("props", .obj (tableMembers Label.keyText (fun v => v) node.properties))] =
      [("id", .int node.id), ("implId", .str node.type), ("pure", .bool node.pure),
        ("inputTypes", .obj (Members.sorted (tableMembers Label.keyText .str node.inputTypes))),
        ("outLinks", .obj node.outLinkMembers),
        ("props", .obj (Members.sorted
          (tableMembers Label.keyText Value.sortKeys node.properties)))] := by
    simp only [Value.sortMembers_eq_map, List.map_cons, List.map_nil, sortKeys_outLinkMembers]
    simp only [Value.sortKeys, sortMembers_tableMembers]
  have hperm : [("id", .int node.id), ("implId", .str node.type), ("pure", .bool node.pure),
      ("inputTypes", .obj (Members.sorted (tableMembers Label.keyText .str node.inputTypes))),
      ("outLinks", .obj node.outLinkMembers),
      ("props", .obj (Members.sorted
        (tableMembers Label.keyText Value.sortKeys node.properties)))].Perm node.recordMembers :=
    .cons _ (.cons _ (@List.perm_append_comm _ [_] [_, _, _]))
  have hkeys : ["id", "implId", "inputTypes", "outLinks", "props", "pure"].Pairwise
      (fun s t => Text.le s t = true) := by decide
  rw [toValue, valueSpelling, Value.sortKeys, hvalues,
    ← Members.sorted_eq_of_perm (show (node.recordMembers.map Prod.fst).Nodup by
      show ["id", "implId", "inputTypes", "outLinks", "props", "pure"].Nodup
      decide) hperm.symm]
  exact congrArg Value.obj (Members.sorted_eq_self hkeys)

/-- The pins that an error can reach, as a member, if there are any. -/
def errorMembers (pins : List Label) : Members :=
  if pins.isEmpty then [] else [("errorPins", .arr (pins.map Label.toValue))]

theorem sortedValue_eq (htypes : node.inputTypes.HasTexts) (hvalues : node.properties.HasTexts)
    (pins : List Label) :
    node.sortedValue pins = .ok (.obj (errorMembers pins ++ node.recordMembers)) := by
  rw [sortedValue, Table.sortedMembers_eq htypes, Table.sortedMembers_eq hvalues]
  rfl

end BoundNode

end Patchbay
