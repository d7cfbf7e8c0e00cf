import Patchbay.Proofs.Project.PatchOrder

/-!
# Documents up to order

Two documents are `Document.Reordered` if they differ in the order of the members of their objects,
and of the entries of nodes and links that are given as lists, at most. Where the links of every
patch have ids that differ as texts, the projects that they describe are alike
(`alike_of_reordered`), and both are given out or none is (`project_together`).
-/

namespace Patchbay

namespace Document

/-- Two members of documents, under one key. -/
def DocumentMember (key : String) (v w : Value) : Prop :=
  if key = "patches" then ObjectBy (fun _ => PatchReordered) v w else v.Reordered w

/-- Two documents differ in the order of members and of nodes and links at most. -/
def Reordered : Value → Value → Prop := ObjectBy DocumentMember

/-- The links of every patch have ids that differ as texts. -/
def DistinctLinks (document : Value) : Prop :=
  ∀ patch ∈ itemsIn ((document.member? "patches").getD .null), (linkIds patch).Nodup

variable {v w item item' : Value}

/-! ## Node types -/

theorem DescribesPin.alike {key : String} {p p' : Pin} (h : DescribesPin key item p)
    (h' : DescribesPin key item' p') (hitem : item.Reordered item') : Pin.Alike p p' where
  key := by
    rw [h.key_eq, h'.key_eq]
    have hkey := hitem.member? "key"
    generalize item.member? "key" = found at hkey
    generalize item'.member? "key" = found' at hkey
    cases hkey with
    | none => exact .str key
    | some hv => exact hv
  direction_eq := by
    have hside := hitem.member? "direction"
    rw [h.direction, h'.direction] at hside
    cases hside with
    | some hv =>
      have hread := Direction.ofName?_eq_some_iff.mpr (eq_of_str hv)
      exact Option.some.inj ((Direction.ofName?_eq_some_iff.mpr rfl).symm.trans hread)
  type_eq := h.type.related h'.type (hitem.member? "type") rfl fun _ _ => eq_of_str
  default? := by
    rw [h.default_eq, h'.default_eq]
    exact hitem.member? "default"
  variadic_eq := h.variadic.related h'.variadic (hitem.member? "variadic") rfl fun _ _ => eq_of_bool

/-- What is made of members that keeps their keys has keys that differ. -/
theorem nodup_of_matched {α : Type} {P : String × Value → α → Prop} {name : α → String}
    {members : Members} {made : List α} (hn : (members.map Prod.fst).Nodup)
    (h : List.Forall₂ P members made) (hname : ∀ m a, P m a → m.1 = name a) :
    (made.map name).Nodup := by
  rwa [← Matched.map_eq h hname]

theorem perm_of_texts {texts texts' : List (String × String)}
    (h : Members.Alike (texts.map fun entry => (entry.1, .str entry.2))
      (texts'.map fun entry => (entry.1, .str entry.2))) : texts.Perm texts' := by
  have hmatch : ∀ texts : List (String × String), List.Forall₂
      (fun (member : String × Value) entry => member = (entry.1, .str entry.2))
      (texts.map fun entry => (entry.1, .str entry.2)) texts := fun texts =>
    List.forall₂_map_left_iff.mpr (List.forall₂_same.mpr fun _ _ => rfl)
  refine Shuffled.perm (h.shuffled.transfer (hmatch texts) (hmatch texts') ?_)
  rintro _ _ entry entry' hr rfl rfl
  exact Prod.ext hr.1 (eq_of_str hr.2)

/-- Declarations that are reordered describe types that are alike. -/
theorem DescribesType.alike {id : String} {t t' : NodeType} (h : DescribesType id item t)
    (h' : DescribesType id item' t') (hitem : item.Reordered item') : NodeType.Alike t t' := by
  obtain ⟨members, hmembers, hpins⟩ := h.pins
  obtain ⟨members', hmembers', hpins'⟩ := h'.pins
  have hpinOrder : Members.Alike members members' :=
    hmembers.related hmembers' (hitem.member? "pins") alike_nil fun _ _ => alike_of_obj
  have htextOrder := h.templates.related h'.templates (hitem.member? "impl") alike_nil
    fun _ _ => alike_of_obj
  exact {
    id_eq := h.id_eq.trans h'.id_eq.symm
    pure_eq := h.pure.related h'.pure (hitem.member? "pure") rfl fun _ _ => eq_of_bool
    raises_eq := h.raises.related h'.raises (hitem.member? "raises") rfl fun _ _ => eq_of_bool
    pins_nodup := nodup_of_matched hpinOrder.nodup hpins fun _ _ hp => hp.1.symm
    pins := hpinOrder.shuffled.transfer hpins hpins' fun _ _ _ _ hr hp hp' =>
      ⟨hp.1.trans (hr.1.trans hp'.1.symm), (hr.1 ▸ hp.2).alike hp'.2 hr.2⟩
    templates_nodup := by
      have hn := htextOrder.nodup
      rw [List.map_map] at hn
      exact hn
    templates_perm := perm_of_texts htextOrder }

/-! ## Projects -/

/-- Documents that are reordered, where the links of every patch have ids that differ as texts,
describe projects that are alike. -/
theorem alike_of_reordered {document other : Value} {project project' : Project}
    (h : Reordered document other) (hlinks : DistinctLinks document) (hlinks' : DistinctLinks other)
    (hread : checked document = .ok project) (hread' : checked other = .ok project') :
    Project.Alike project project' := by
  have hp := checked_eq_ok_iff.mp hread
  have hq := checked_eq_ok_iff.mp hread'
  obtain ⟨members, hmembers, hpatches⟩ := hp.patches
  obtain ⟨members', hmembers', hpatches'⟩ := hq.patches
  obtain ⟨types, htypes, hcatalog⟩ := hp.catalog
  obtain ⟨types', htypes', hcatalog'⟩ := hq.catalog
  have htypeOrder : Members.Alike types types' :=
    htypes.related htypes' (ObjectBy.member? h "nodeTypes") alike_nil fun _ _ => alike_of_obj
  have hpatchOrder : ObjectBy (fun _ => PatchReordered) (.obj members) (.obj members') :=
    hmembers.related (R := fun a b => ObjectBy (fun _ => PatchReordered) (.obj a) (.obj b))
      hmembers' (ObjectBy.member? h "patches") ⟨[], [], rfl, rfl, List.nodup_nil, .nil⟩
      fun _ _ => id
  obtain ⟨_, _, ⟨⟩, ⟨⟩, hn, hpatchOrder⟩ := hpatchOrder
  have hknown : List.Forall₂ (fun member patch => (linkIds member.2).Nodup ∧
      DescribesPatch member.1 member.2 patch) members project.patches :=
    (List.forall₂_and_left _ _).mpr
      ⟨fun m hm => hlinks m.2 (hmembers.mem_itemsIn m hm), hpatches⟩
  have hknown' : List.Forall₂ (fun member patch => (linkIds member.2).Nodup ∧
      DescribesPatch member.1 member.2 patch) members' project'.patches :=
    (List.forall₂_and_left _ _).mpr
      ⟨fun m hm => hlinks' m.2 (hmembers'.mem_itemsIn m hm), hpatches'⟩
  exact {
    patches := hpatchOrder.transfer hknown hknown' fun _ _ _ _ hr hp hq =>
      (hr.1 ▸ hp.2).alike hq.2 hr.2 hp.1 hq.1
    paths_nodup := nodup_of_matched hn hpatches fun _ _ hp => hp.path_eq.symm
    catalog := htypeOrder.shuffled.transfer hcatalog hcatalog' fun _ _ _ _ hr ht ht' =>
      (hr.1 ▸ ht).alike ht' hr.2
    types_nodup := nodup_of_matched htypeOrder.nodup hcatalog fun _ _ ht => ht.id_eq.symm }

/-! ## Pin keys -/

theorem ObjectBy.items {R : Value → Value → Prop} (h : ObjectBy (fun _ => R) v w) :
    Shuffled R (itemsIn v) (itemsIn w) := by
  obtain ⟨members, others, rfl, rfl, _, hmembers⟩ := h
  exact hmembers.map fun _ _ hr => hr.2

theorem items_of_collectionReordered (h : CollectionReordered v w) :
    Shuffled Value.Reordered (itemsIn v) (itemsIn w) := by
  rcases h with h | ⟨items, others, rfl, rfl, h⟩
  · cases h with
    | arr h => exact .of_forall₂ (Value.itemsReordered_iff.mp h)
    | obj hn h hperm =>
      exact Shuffled.map ⟨_, Value.membersReordered_iff.mp h, hperm⟩ fun _ _ hr => hr.2
    | _ => exact .nil
  · exact h

/-- What is there under a name in both of two values, or null, has items that are shuffled. -/
theorem shuffled_itemsIn {R : Value → Value → Prop} {v? w? : Option Value} (h : Option.Rel R v? w?)
    (hitems : ∀ v w, R v w → Shuffled Value.Reordered (itemsIn v) (itemsIn w)) :
    Shuffled Value.Reordered (itemsIn (v?.getD .null)) (itemsIn (w?.getD .null)) := by
  cases h with
  | none => exact .nil
  | some hr => exact hitems _ _ hr

theorem linkKeys_perm (h : v.Reordered w) : (linkKeys v).Perm (linkKeys w) := by
  have hitems := shuffled_itemsIn (h.member? "pins")
    fun _ _ hr => items_of_collectionReordered (.inl hr)
  refine (hitems.filterMap (S := Eq) fun e e' he => ?_).perm
  have hkey := he.member? "pinKey"
  generalize e.member? "pinKey" = found at hkey
  generalize e'.member? "pinKey" = found' at hkey
  cases hkey with
  | none => exact .none
  | some hr => exact Found.of_eq hr.text?_eq

/-- The links of reordered documents address pins by the same keys. -/
theorem pinKeys_perm {document other : Value} (h : Reordered document other) :
    (pinKeys document).Perm (pinKeys other) := by
  have hpatches : Option.Rel (ObjectBy fun _ => PatchReordered) (document.member? "patches")
      (other.member? "patches") := ObjectBy.member? h "patches"
  have hitems : Shuffled PatchReordered (itemsIn ((document.member? "patches").getD .null))
      (itemsIn ((other.member? "patches").getD .null)) := by
    generalize document.member? "patches" = found at hpatches
    generalize other.member? "patches" = found' at hpatches
    cases hpatches with
    | none => exact .nil
    | some hr => exact hr.items
  refine hitems.flatMap_perm fun patch patch' hpatch => ?_
  have hlinks : Option.Rel CollectionReordered (patch.member? "links") (patch'.member? "links") :=
    ObjectBy.member? hpatch "links"
  exact (shuffled_itemsIn hlinks fun _ _ => items_of_collectionReordered).flatMap_perm
    fun _ _ => linkKeys_perm

/-- Of two documents that are reordered and found sound, both describe their projects or none
does. -/
theorem project_together {document other : Value} {project project' : Project}
    (h : Reordered document other) (hread : checked document = .ok project)
    (hread' : checked other = .ok project') :
    Together (fun p q => p = project ∧ q = project') (Document.project document)
      (Document.project other) := by
  have hkeys : Shuffled Eq (pinKeys document) (pinKeys other) :=
    .of_perm (fun _ _ => rfl) (pinKeys_perm h)
  have hfault := hkeys.findSome?_isSome_eq fun _ _ => congrArg keyFault?
  unfold Document.project
  rw [hread, hread']
  simp only [bind, Except.bind]
  generalize (pinKeys document).findSome? keyFault? = fault at hfault
  generalize (pinKeys other).findSome? keyFault? = fault' at hfault
  cases fault with
  | some _ =>
    cases fault' with
    | some _ => exact .error
    | none => exact absurd hfault (by simp)
  | none =>
    cases fault' with
    | some _ => exact absurd hfault (by simp)
    | none => exact .ok ⟨rfl, rfl⟩

end Document

end Patchbay
