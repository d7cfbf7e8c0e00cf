import Patchbay.Json.Value
import Patchbay.Proofs.Shuffled

/-!
# Values up to the order of members

Two values are `Reordered` if they differ in the order of the members of their objects at most, at
any depth. Each object has each of its keys once, so what is found under a key is reordered too, and
the values with all keys ascending are the same (`sortKeys_eq`).
-/

namespace Patchbay

namespace Value

mutual

/-- The values differ in the order of the members of their objects at most. -/
inductive Reordered : Value → Value → Prop
  | null : Reordered .null .null
  | bool (b : Bool) : Reordered (.bool b) (.bool b)
  | int (n : Int) : Reordered (.int n) (.int n)
  | float (x : Binary64) : Reordered (.float x) (.float x)
  | str (s : String) : Reordered (.str s) (.str s)
  | arr {items others : List Value} : ItemsReordered items others →
      Reordered (.arr items) (.arr others)
  | obj {members between others : Members} : (members.map Prod.fst).Nodup →
      MembersReordered members between → between.Perm others →
      Reordered (.obj members) (.obj others)

/-- The items at the same places are reordered. -/
inductive ItemsReordered : List Value → List Value → Prop
  | nil : ItemsReordered [] []
  | cons {v w : Value} {items others : List Value} : Reordered v w → ItemsReordered items others →
      ItemsReordered (v :: items) (w :: others)

/-- The members at the same places have the same key, and their values are reordered. -/
inductive MembersReordered : Members → Members → Prop
  | nil : MembersReordered [] []
  | cons {key : String} {v w : Value} {members others : Members} : Reordered v w →
      MembersReordered members others →
      MembersReordered ((key, v) :: members) ((key, w) :: others)

end

theorem itemsReordered_iff {items others : List Value} :
    ItemsReordered items others ↔ List.Forall₂ Reordered items others := by
  constructor
  · intro h
    induction items generalizing others with
    | nil =>
      cases h with
      | nil => exact .nil
    | cons v items ih =>
      cases h with
      | cons hv h => exact .cons hv (ih h)
  · intro h
    induction h with
    | nil => exact .nil
    | cons hv _ ih => exact .cons hv ih

theorem membersReordered_iff {members others : Members} :
    MembersReordered members others ↔
      List.Forall₂ (Keyed.Corresponds Reordered) members others := by
  constructor
  · intro h
    induction members generalizing others with
    | nil =>
      cases h with
      | nil => exact .nil
    | cons member members ih =>
      cases h with
      | cons hv h => exact .cons ⟨rfl, hv⟩ (ih h)
  · intro h
    induction h with
    | nil => exact .nil
    | @cons member other _ _ hr _ ih =>
      obtain ⟨key, v⟩ := member
      obtain ⟨key', w⟩ := other
      obtain ⟨rfl, hv⟩ : key = key' ∧ Reordered v w := hr
      exact .cons hv ih

theorem sortItems_eq_self {items : List Value} (h : ∀ v ∈ items, v.sortKeys = v) :
    sortItems items = items := by
  induction items with
  | nil => rfl
  | cons v rest ih =>
    obtain ⟨hv, hrest⟩ := List.forall_mem_cons.mp h
    rw [sortItems, hv, ih hrest]

theorem sortMembers_eq_map (members : Members) :
    sortMembers members = members.map fun member => (member.1, member.2.sortKeys) := by
  induction members with
  | nil => rfl
  | cons member rest ih => rw [sortMembers, ih, List.map_cons]

end Value

/-! ## Members -/

/-- Two rows of members, each key once, whose values are reordered. -/
structure Members.Alike (members others : Members) : Prop where
  nodup : (members.map Prod.fst).Nodup
  shuffled : Shuffled (Keyed.Corresponds Value.Reordered) members others

namespace Members

theorem sorted_eq_of_perm {members others : Members} (hn : (members.map Prod.fst).Nodup)
    (hperm : members.Perm others) : members.sorted = others.sorted :=
  mergeSort_eq_of_perm hperm (fun _ _ _ _ _ _ => Text.le_trans) (fun _ _ _ _ => Text.le_total _ _)
    fun _ ha _ hb hab hba => List.inj_on_of_nodup_map hn ha hb (Text.le_antisymm hab hba)

namespace Alike

variable {members others : Members} (h : Alike members others)
include h

theorem keys_perm : (members.map Prod.fst).Perm (others.map Prod.fst) :=
  h.shuffled.map_perm fun _ _ hr => hr.1

theorem nodup_right : (others.map Prod.fst).Nodup := h.keys_perm.nodup_iff.mp h.nodup

theorem lookup (key : String) :
    Option.Rel Value.Reordered (members.lookup key) (others.lookup key) :=
  h.shuffled.lookup h.nodup key

/-- Sorted by their keys, the members stand at the same places. -/
theorem sorted : List.Forall₂ (Keyed.Corresponds Value.Reordered) members.sorted others.sorted := by
  obtain ⟨between, hmatch, hperm⟩ := h.shuffled
  have hn : (between.map Prod.fst).Nodup := by
    rw [← Matched.map_eq hmatch fun _ _ hr => hr.1]
    exact h.nodup
  rw [← sorted_eq_of_perm hn hperm]
  exact Matched.mergeSort hmatch fun a b a' b' ha hb => by rw [ha.1, hb.1]

end Alike

theorem put_perm (key : String) (v : Value) {members : Members}
    (hn : (members.map Prod.fst).Nodup) :
    (members.put key v).Perm ((key, v) :: members.filter (·.1 ≠ key)) := by
  induction members with
  | nil => exact .refl _
  | cons member rest ih =>
    obtain ⟨k, old⟩ := member
    rw [List.map_cons, List.nodup_cons] at hn
    unfold put
    by_cases hk : k = key
    · subst hk
      rw [if_pos rfl, List.filter_cons_of_neg (by simp), List.filter_eq_self.mpr]
      intro other hother
      rw [decide_eq_true_eq]
      exact fun heq => hn.1 (List.mem_map.mpr ⟨other, hother, heq⟩)
    · rw [if_neg hk, List.filter_cons_of_pos (by simpa using hk)]
      exact ((ih hn.2).cons _).trans (.swap _ _ _)

theorem nodup_put (key : String) (v : Value) {members : Members}
    (hn : (members.map Prod.fst).Nodup) : ((members.put key v).map Prod.fst).Nodup := by
  rw [((put_perm key v hn).map Prod.fst).nodup_iff, List.map_cons, List.nodup_cons]
  refine ⟨fun hmem => ?_, hn.sublist (List.filter_sublist.map _)⟩
  obtain ⟨member, hmember, hkey⟩ := List.mem_map.mp hmem
  exact absurd hkey (by simpa using (List.mem_filter.mp hmember).2)

theorem Alike.put {members others : Members} (h : Alike members others) (key : String)
    {v w : Value} (hv : Value.Reordered v w) : Alike (members.put key v) (others.put key w) where
  nodup := nodup_put key v h.nodup
  shuffled := by
    have hrest : Shuffled (Keyed.Corresponds Value.Reordered) (members.filter (·.1 ≠ key))
        (others.filter (·.1 ≠ key)) := h.shuffled.filter fun _ _ hr => by rw [hr.1]
    have hcons : Keyed.Corresponds Value.Reordered (key, v) (key, w) := ⟨rfl, hv⟩
    exact ((hrest.cons hcons).perm_left (put_perm key v h.nodup)).perm_right
      (put_perm key w h.nodup_right).symm

end Members

namespace Value

mutual

/-- Reordered values are the same once all keys ascend. -/
theorem sortKeys_eq : ∀ {v w : Value}, Reordered v w → v.sortKeys = w.sortKeys
  | _, _, .null => rfl
  | _, _, .bool _ => rfl
  | _, _, .int _ => rfl
  | _, _, .float _ => rfl
  | _, _, .str _ => rfl
  | _, _, .arr h => by
    rw [sortKeys, sortKeys, sortItems_eq h]
  | .obj members, .obj others, @Reordered.obj _ between _ hn h hperm => by
    have hsame := sortMembers_eq h
    have hkeys : (sortMembers members).map Prod.fst = members.map Prod.fst := by
      rw [sortMembers_eq_map, List.map_map]
      rfl
    have hperm : (sortMembers members).Perm (sortMembers others) := by
      rw [hsame, sortMembers_eq_map, sortMembers_eq_map]
      exact hperm.map _
    rw [sortKeys, sortKeys, Members.sorted_eq_of_perm (hkeys ▸ hn) hperm]

theorem sortItems_eq : ∀ {items others : List Value}, ItemsReordered items others →
    sortItems items = sortItems others
  | _, _, .nil => rfl
  | _, _, .cons hv h => by
    rw [sortItems, sortItems, sortKeys_eq hv, sortItems_eq h]

theorem sortMembers_eq : ∀ {members others : Members}, MembersReordered members others →
    sortMembers members = sortMembers others
  | _, _, .nil => rfl
  | _, _, .cons hv h => by
    rw [sortMembers, sortMembers, sortKeys_eq hv, sortMembers_eq h]

end

/-! ## Parts of reordered values -/

namespace Reordered

variable {v w : Value} (h : Reordered v w)
include h

theorem members? : Option.Rel Members.Alike v.members? w.members? := by
  cases h with
  | obj hn h hperm => exact .some ⟨hn, _, membersReordered_iff.mp h, hperm⟩
  | _ => exact .none

theorem member? (key : String) : Option.Rel Reordered (v.member? key) (w.member? key) := by
  cases h with
  | obj hn h hperm =>
    exact Members.Alike.lookup ⟨hn, _, membersReordered_iff.mp h, hperm⟩ key
  | _ => exact .none

theorem text?_eq : v.text? = w.text? := by
  cases h with
  | _ => rfl

theorem bool?_eq : v.bool? = w.bool? := by
  cases h with
  | _ => rfl

end Reordered

end Value

end Patchbay
