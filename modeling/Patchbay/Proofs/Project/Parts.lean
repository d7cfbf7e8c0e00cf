import Patchbay.Proofs.Json.Regular
import Patchbay.Proofs.Project.Catalog

/-!
# Parts of a document

Whatever a project holds is described by a part of its document: each node (`node_of_project`) and
each declared pin (`pin_of_project`). So no type in use in a closure is empty
(`Closure.ne_empty_of_primitive`), and literal values and defaults are parts of the document
(`Closure.literal_of_ofEntry`, `Closure.default_of_primitive`).
-/

namespace Patchbay

namespace Value.PartOf

variable {v w : Value} {members : Members} {name : String}

theorem of_member? (h : w.member? name = some v) : v.PartOf w := by
  obtain ⟨fields, rfl⟩ := obj_of_member? h
  exact .member (Keyed.mem_of_lookup h) .whole

/-- What an optional object holds is part of the whole. -/
theorem of_holds (h : Document.Holds w name [] .obj members) {m : String × Value}
    (hm : m ∈ members) : m.2.PartOf w := by
  rcases h with ⟨_, rfl⟩ | h
  · exact absurd hm List.not_mem_nil
  · exact PartOf.trans (.member hm .whole) (of_member? h)

end Value.PartOf

namespace Document

variable {item document : Value}

/-! ## Entries -/

theorem HasEntries.part {v : Value} {found : List (Value × Value)} (h : HasEntries v found) :
    ∀ entry ∈ found, entry.2.PartOf v := by
  intro entry hentry
  cases h with
  | object members =>
    obtain ⟨m, hm, rfl⟩ := List.mem_map.mp hentry
    exact .member hm .whole
  | list h =>
    obtain ⟨item, hitem, rfl, _⟩ := Matched.exists_left h hentry
    exact .item hitem .whole

theorem HasEntries.part_of_member {name : String} {found : List (Value × Value)}
    (h : HasEntries ((item.member? name).getD (.obj [])) found) :
    ∀ entry ∈ found, entry.2.PartOf item := by
  intro entry hentry
  cases hmember : item.member? name with
  | none =>
    rw [hmember] at h
    obtain rfl := h.unique (.object [])
    exact absurd hentry List.not_mem_nil
  | some v =>
    rw [hmember] at h
    exact (h.part entry hentry).trans (.of_member? hmember)

/-! ## Nodes and pins -/

/-- Each node of a project is described by a part of the document. -/
theorem node_of_project {p : Project} (h : project document = .ok p) :
    ∀ patch ∈ p.patches, ∀ n ∈ patch.nodes,
      ∃ key item, item.PartOf document ∧ DescribesNode key item n := by
  obtain ⟨members, hmembers, hpatches⟩ := (describes_of_project h).patches
  intro patch hpatch n hn
  obtain ⟨member, hmember, hdescribes⟩ := Matched.exists_left hpatches hpatch
  obtain ⟨found, hfound, hnodes⟩ := hdescribes.nodes
  obtain ⟨entry, hentry, hnode⟩ := Matched.exists_left hnodes hn
  exact ⟨_, _, (hfound.part_of_member entry hentry).trans (.of_holds hmembers hmember), hnode⟩

/-- Each declared pin of a project is described by a part of the document. -/
theorem pin_of_project {p : Project} (h : project document = .ok p) :
    ∀ type ∈ p.catalog, ∀ entry ∈ type.pins,
      ∃ key item, item.PartOf document ∧ DescribesPin key item entry.2 := by
  obtain ⟨members, hmembers, htypes⟩ := (describes_of_project h).catalog
  intro type htype entry hentry
  obtain ⟨member, hmember, hdescribes⟩ := Matched.exists_left htypes htype
  obtain ⟨pinMembers, hpinMembers, hpins⟩ := hdescribes.pins
  obtain ⟨pinMember, hpinMember, _, hpin⟩ := Matched.exists_left hpins hentry
  have hpart : pinMember.2.PartOf member.2 := .of_holds hpinMembers hpinMember
  exact ⟨_, _, hpart.trans (.of_holds hmembers hmember), hpin⟩

end Document

/-- The types in use in a closure are those of nodes of the project. -/
theorem Closure.exists_node_of_primitive {project : Project} {entryPath : String} {strict : Bool}
    {closure : Closure} (hc : ofEntry project entryPath strict = .ok closure) {type : String}
    {p : Primitive} (hp : closure.kinds.primitive type = .ok p) :
    ∃ patch ∈ project.patches, ∃ node ∈ patch.nodes, node.type = type := by
  obtain ⟨order, hw⟩ := walked_of_ofEntry hc
  obtain ⟨⟨patch, hpatch, node, hnode, htype⟩, _⟩ :=
    hw.kind_eq_ok_iff.mp (Kinds.primitive_eq_ok_iff.mp hp)
  exact ⟨patch, (path_of_patch? (hw.mem_patches_iff.mp hpatch).2).1, node, hnode, htype⟩

/-- No type in use is empty. -/
theorem Closure.ne_empty_of_primitive {document : Value} {project : Project} {entryPath : String}
    {strict : Bool} {closure : Closure} (hp : Document.project document = .ok project)
    (hc : ofEntry project entryPath strict = .ok closure) {type : String} {p : Primitive}
    (htype : closure.kinds.primitive type = .ok p) : type ≠ "" := by
  obtain ⟨patch, hpatch, node, hnode, rfl⟩ := exists_node_of_primitive hc htype
  obtain ⟨_, _, _, hdescribes⟩ := Document.node_of_project hp patch hpatch node hnode
  exact hdescribes.type_ne

/-- The literal values in the patches of a closure are parts of the document. -/
theorem Closure.literal_of_ofEntry {document : Value} {project : Project} {entryPath : String}
    {strict : Bool} {closure : Closure} (hp : Document.project document = .ok project)
    (hc : ofEntry project entryPath strict = .ok closure) :
    ∀ patch ∈ closure.patches, ∀ node ∈ patch.nodes, ∀ m ∈ node.properties,
      m.2.PartOf document := by
  intro patch hpatch node hnode m hm
  obtain ⟨order, hw⟩ := walked_of_ofEntry hc
  obtain ⟨_, item, hitem, hdescribes⟩ := Document.node_of_project hp patch
    (path_of_patch? (hw.mem_patches_iff.mp hpatch).2).1 node hnode
  exact (Value.PartOf.of_holds hdescribes.properties hm).trans hitem

/-- The defaults of the types in use are parts of the document. -/
theorem Closure.default_of_primitive {document : Value} {project : Project} {entryPath : String}
    {strict : Bool} {closure : Closure} (hp : Document.project document = .ok project)
    (hc : ofEntry project entryPath strict = .ok closure) {type : String} {p : Primitive}
    (htype : closure.kinds.primitive type = .ok p) {t : NodeType} (hentry : p.entry = some t)
    {pin : Pin} (hpin : pin ∈ t.inputs) {v : Value} (hv : pin.default? = some v) :
    v.PartOf document := by
  obtain ⟨_, rfl⟩ := primitive_of_ofEntry hc htype
  obtain ⟨key, hmem, _⟩ := NodeType.mem_inputs_iff.mp hpin
  obtain ⟨_, item, hitem, hdescribes⟩ := Document.pin_of_project hp t
    (List.mem_of_find?_eq_some hentry) (key, pin) hmem
  exact (Value.PartOf.of_member? (hdescribes.default_eq.symm.trans hv)).trans hitem

end Patchbay
