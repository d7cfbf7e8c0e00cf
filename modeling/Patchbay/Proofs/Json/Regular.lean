import Patchbay.Proofs.Json.Numbers
import Patchbay.Proofs.Json.Reordering

/-!
# Regular values

A value is regular if each of its objects has each key once, and "not a number" is always the one
value that stands for it. With all keys ascending, a regular value is reordered at most
(`reordered_sortKeys`), so that regular values are reordered if they are the same then
(`reordered_of_sortKeys_eq`). All that is read from a text is regular (`regular_of_read`).
-/

namespace Patchbay

namespace Value

/-- The value lies in the other one, at any depth, or is the whole of it. -/
inductive PartOf (v : Value) : Value → Prop
  | whole : PartOf v v
  | member {w : Value} {members : Members} {key : String} : (key, w) ∈ members → PartOf v w →
      PartOf v (.obj members)
  | item {w : Value} {items : List Value} : w ∈ items → PartOf v w → PartOf v (.arr items)

theorem PartOf.trans {u v w : Value} (h : u.PartOf v) (h' : v.PartOf w) : u.PartOf w := by
  induction h' with
  | whole => exact h
  | member hmem _ ih => exact .member hmem ih
  | item hmem _ ih => exact .item hmem ih

/-- Each object has each key once, and "not a number" is the one value that stands for it. -/
structure Regular (v : Value) : Prop where
  nodup : ∀ members, (obj members).PartOf v → (members.map Prod.fst).Nodup
  canonical : ∀ x, (float x).PartOf v → Json.Canonical x

namespace Regular

variable {v w : Value} {items : List Value} {members : Members}

theorem part (h : w.Regular) (hpart : v.PartOf w) : v.Regular where
  nodup members hmembers := h.nodup members (hmembers.trans hpart)
  canonical x hx := h.canonical x (hx.trans hpart)

theorem item (h : (arr items).Regular) (hv : v ∈ items) : v.Regular := h.part (.item hv .whole)

theorem member (h : (obj members).Regular) {m : String × Value} (hm : m ∈ members) : m.2.Regular :=
  h.part (.member hm .whole)

theorem keys (h : (obj members).Regular) : (members.map Prod.fst).Nodup := h.nodup _ .whole

protected theorem str (s : String) : (str s).Regular := ⟨nofun, nofun⟩

protected theorem int (n : Int) : (int n).Regular := ⟨nofun, nofun⟩

protected theorem bool (b : Bool) : (bool b).Regular := ⟨nofun, nofun⟩

protected theorem null : null.Regular := ⟨nofun, nofun⟩

protected theorem float {x : Binary64} (hx : Json.Canonical x) : (float x).Regular where
  nodup := nofun
  canonical := by
    intro y hy
    cases hy with
    | whole => exact hx

protected theorem arr (h : ∀ v ∈ items, v.Regular) : (arr items).Regular where
  nodup := by
    intro members hmembers
    cases hmembers with
    | item hv hpart => exact (h _ hv).nodup members hpart
  canonical := by
    intro x hx
    cases hx with
    | item hv hpart => exact (h _ hv).canonical x hpart

protected theorem obj (hn : (members.map Prod.fst).Nodup) (h : ∀ m ∈ members, m.2.Regular) :
    (obj members).Regular where
  nodup := by
    intro inner hinner
    cases hinner with
    | whole => exact hn
    | member hm hpart => exact (h _ hm).nodup inner hpart
  canonical := by
    intro x hx
    cases hx with
    | member hm hpart => exact (h _ hm).canonical x hpart

theorem arr_iff : (arr items).Regular ↔ ∀ v ∈ items, v.Regular :=
  ⟨fun h _ => h.item, .arr⟩

theorem obj_iff : (obj members).Regular ↔
    (members.map Prod.fst).Nodup ∧ ∀ m ∈ members, m.2.Regular :=
  ⟨fun h => ⟨h.keys, fun _ => h.member⟩, fun h => .obj h.1 h.2⟩

end Regular

/-! ## Ascending keys -/

mutual

/-- With all keys ascending, a regular value is reordered at most. -/
theorem reordered_sortKeys : ∀ (v : Value), v.Regular → v.Reordered v.sortKeys
  | .null, _ => .null
  | .bool b, _ => .bool b
  | .int n, _ => .int n
  | .float x, _ => .float x
  | .str s, _ => .str s
  | .arr items, h => .arr (itemsReordered_sortItems items fun _ hv => h.item hv)
  | .obj members, h =>
    .obj h.keys (membersReordered_sortMembers members fun _ hm => h.member hm)
      (List.mergeSort_perm _ _).symm

theorem itemsReordered_sortItems : ∀ (items : List Value), (∀ v ∈ items, v.Regular) →
    ItemsReordered items (sortItems items)
  | [], _ => .nil
  | v :: rest, h =>
    .cons (reordered_sortKeys v (h v List.mem_cons_self))
      (itemsReordered_sortItems rest fun w hw => h w (List.mem_cons_of_mem _ hw))

theorem membersReordered_sortMembers : ∀ (members : Members), (∀ m ∈ members, m.2.Regular) →
    MembersReordered members (sortMembers members)
  | [], _ => .nil
  | (_, v) :: rest, h =>
    .cons (reordered_sortKeys v (h _ List.mem_cons_self))
      (membersReordered_sortMembers rest fun m hm => h m (List.mem_cons_of_mem _ hm))

end

mutual

/-- A regular value stays so with all keys ascending. -/
theorem regular_sortKeys : ∀ (v : Value), v.Regular → v.sortKeys.Regular
  | .null, h | .bool _, h | .int _, h | .float _, h | .str _, h => h
  | .arr items, h => .arr (regular_sortItems items fun _ hv => h.item hv)
  | .obj members, h => by
    have hkeys : (sortMembers members).map Prod.fst = members.map Prod.fst := by
      rw [sortMembers_eq_map, List.map_map]
      rfl
    refine .obj ?_ fun m hm => ?_
    · exact ((List.mergeSort_perm _ _).map Prod.fst).nodup_iff.mpr (hkeys ▸ h.keys)
    · exact regular_sortMembers members (fun _ hm => h.member hm) m (List.mem_mergeSort.mp hm)

theorem regular_sortItems : ∀ (items : List Value), (∀ v ∈ items, v.Regular) →
    ∀ v ∈ sortItems items, v.Regular
  | [], h => h
  | v :: rest, h => by
    obtain ⟨hv, hrest⟩ := List.forall_mem_cons.mp h
    exact List.forall_mem_cons.mpr ⟨regular_sortKeys v hv, regular_sortItems rest hrest⟩

theorem regular_sortMembers : ∀ (members : Members), (∀ m ∈ members, m.2.Regular) →
    ∀ m ∈ sortMembers members, m.2.Regular
  | [], h => h
  | (_, v) :: rest, h => by
    obtain ⟨hv, hrest⟩ := List.forall_mem_cons.mp h
    exact List.forall_mem_cons.mpr ⟨regular_sortKeys v hv, regular_sortMembers rest hrest⟩

end

mutual

/-- Regular values that are the same with all keys ascending are reordered. -/
theorem reordered_of_sortKeys_eq : ∀ (v : Value), v.Regular → ∀ {w : Value},
    v.sortKeys = w.sortKeys → v.Reordered w
  | .null, _, w, heq => by
    cases w with
    | null => exact .null
    | _ => exact nomatch heq
  | .bool b, _, w, heq => by
    cases w with
    | bool _ => exact Value.bool.inj heq ▸ .bool b
    | _ => exact nomatch heq
  | .int n, _, w, heq => by
    cases w with
    | int _ => exact Value.int.inj heq ▸ .int n
    | _ => exact nomatch heq
  | .float x, _, w, heq => by
    cases w with
    | float _ => exact Value.float.inj heq ▸ .float x
    | _ => exact nomatch heq
  | .str s, _, w, heq => by
    cases w with
    | str _ => exact Value.str.inj heq ▸ .str s
    | _ => exact nomatch heq
  | .arr items, h, w, heq => by
    cases w with
    | arr others =>
      exact .arr (itemsReordered_of_sortItems_eq items (fun _ hv => h.item hv) (Value.arr.inj heq))
    | _ => exact nomatch heq
  | .obj members, h, w, heq => by
    cases w with
    | obj others =>
      have hperm : (sortMembers members).Perm (sortMembers others) :=
        (List.mergeSort_perm _ _).symm.trans
          ((List.Perm.of_eq (Value.obj.inj heq)).trans (List.mergeSort_perm _ _))
      rw [sortMembers_eq_map, sortMembers_eq_map] at hperm
      obtain ⟨between, hmatch, hperm⟩ := Shuffled.of_map_perm hperm
      exact .obj h.keys (membersReordered_of_sortKeys_eq members (fun _ hm => h.member hm) hmatch)
        hperm
    | _ => exact nomatch heq

theorem itemsReordered_of_sortItems_eq : ∀ (items : List Value), (∀ v ∈ items, v.Regular) →
    ∀ {others : List Value}, sortItems items = sortItems others → ItemsReordered items others
  | [], _, others, heq => by
    cases others with
    | nil => exact .nil
    | cons _ _ => exact nomatch heq
  | v :: rest, h, others, heq => by
    cases others with
    | nil => exact nomatch heq
    | cons w others =>
      obtain ⟨hv, hrest⟩ := List.cons.inj heq
      exact .cons (reordered_of_sortKeys_eq v (h v List.mem_cons_self) hv)
        (itemsReordered_of_sortItems_eq rest (fun w hw => h w (List.mem_cons_of_mem _ hw)) hrest)

theorem membersReordered_of_sortKeys_eq : ∀ (members : Members), (∀ m ∈ members, m.2.Regular) →
    ∀ {others : Members}, List.Forall₂ (fun member other : String × Value =>
      (member.1, member.2.sortKeys) = (other.1, other.2.sortKeys)) members others →
    MembersReordered members others
  | [], _, others, hmatch => by
    cases hmatch with
    | nil => exact .nil
  | (key, v) :: rest, h, others, hmatch => by
    cases hmatch with
    | @cons _ other _ _ heq hmatch =>
      obtain ⟨key', w⟩ := other
      obtain ⟨rfl, hv⟩ := Prod.mk.inj heq
      exact .cons (reordered_of_sortKeys_eq v (h _ List.mem_cons_self) hv)
        (membersReordered_of_sortKeys_eq rest (fun m hm => h m (List.mem_cons_of_mem _ hm)) hmatch)

end

end Value

/-! ## Values that are read -/

theorem Members.mem_put {key : String} {v : Value} {members : Members} {m : String × Value}
    (h : m ∈ members.put key v) : m = (key, v) ∨ m ∈ members := by
  induction members with
  | nil => exact .inl (List.mem_singleton.mp h)
  | cons member rest ih =>
    unfold put at h
    split at h
    · next hkey =>
      rcases List.mem_cons.mp h with rfl | h
      · exact .inl (by rw [hkey])
      · exact .inr (List.mem_cons_of_mem _ h)
    · rcases List.mem_cons.mp h with rfl | h
      · exact .inr List.mem_cons_self
      · exact (ih h).imp_right (List.mem_cons_of_mem _)

namespace Json

variable {limits : Limits} {rest tail : Rest} {v : Value}

theorem regular_of_number (h : number limits rest = .ok (v, tail)) : v.Regular := by
  unfold number at h
  split at h
  split at h
  · exact nomatch h
  split at h
  · split at h
    · obtain ⟨rfl, _⟩ := Prod.mk.inj (Except.ok.inj h)
      exact .int _
    · exact nomatch h
  · obtain ⟨rfl, _⟩ := Prod.mk.inj (Except.ok.inj h)
    refine .float fun hnan => ?_
    exact absurd (hnan.symm.trans (Binary64.isNaN_ofDecimal _ _ _)) (by decide)

theorem regular_of_scalar (h : scalar limits rest = .ok (v, tail)) : v.Regular := by
  unfold scalar at h
  split at h
  · obtain ⟨rfl, _⟩ := Prod.mk.inj (Except.ok.inj h)
    exact .null
  · obtain ⟨rfl, _⟩ := Prod.mk.inj (Except.ok.inj h)
    exact .bool _
  · obtain ⟨rfl, _⟩ := Prod.mk.inj (Except.ok.inj h)
    exact .bool _
  · obtain ⟨rfl, _⟩ := Prod.mk.inj (Except.ok.inj h)
    exact .float fun _ => rfl
  · obtain ⟨rfl, _⟩ := Prod.mk.inj (Except.ok.inj h)
    exact .float fun hnan => absurd hnan (by decide)
  · obtain ⟨rfl, _⟩ := Prod.mk.inj (Except.ok.inj h)
    exact .float fun hnan => absurd hnan (by decide)
  · exact regular_of_number h

/-- What is read in so many steps is regular: a value, an array and an object, if what has been read
of it is regular. -/
structure ReadsRegular (fuel : Nat) : Prop where
  value : ∀ {limits rest v tail}, Json.value limits fuel rest = .ok (v, tail) → v.Regular
  items : ∀ {limits done rest v tail}, (∀ w ∈ done, w.Regular) →
    Json.items limits fuel done rest = .ok (v, tail) → v.Regular
  members : ∀ {limits done rest v tail}, (Value.obj done).Regular →
    Json.members limits fuel done rest = .ok (v, tail) → v.Regular

namespace ReadsRegular

variable {fuel : Nat}

theorem value_succ (ih : ReadsRegular fuel)
    (h : Json.value limits (fuel + 1) rest = .ok (v, tail)) : v.Regular := by
  unfold Json.value at h
  split at h
  · obtain ⟨_, _, heq⟩ := map_eq_ok.mp h
    obtain ⟨rfl, _⟩ := Prod.mk.inj heq
    exact .str _
  · split at h
    · exact nomatch h
    split at h
    · obtain ⟨rfl, _⟩ := Prod.mk.inj (Except.ok.inj h)
      exact .arr fun _ hw => absurd hw List.not_mem_nil
    · exact ih.items (fun _ hw => absurd hw List.not_mem_nil) h
  · split at h
    · exact nomatch h
    have hempty : (Value.obj []).Regular :=
      .obj List.nodup_nil fun _ hm => absurd hm List.not_mem_nil
    split at h
    · obtain ⟨rfl, _⟩ := Prod.mk.inj (Except.ok.inj h)
      exact hempty
    · exact ih.members hempty h
  · exact regular_of_scalar h

theorem items_succ (ih : ReadsRegular fuel) {done : List Value} (hdone : ∀ w ∈ done, w.Regular)
    (h : Json.items limits (fuel + 1) done rest = .ok (v, tail)) : v.Regular := by
  unfold Json.items at h
  split at h
  · exact nomatch h
  · next v tail hread =>
    have hall := List.forall_mem_cons.mpr ⟨ih.value hread, hdone⟩
    split at h
    · obtain ⟨rfl, _⟩ := Prod.mk.inj (Except.ok.inj h)
      exact .arr fun w hw => hall w (List.mem_reverse.mp hw)
    · exact ih.items hall h
    · exact nomatch h

theorem members_succ (ih : ReadsRegular fuel) {done : Members} (hdone : (Value.obj done).Regular)
    (h : Json.members limits (fuel + 1) done rest = .ok (v, tail)) : v.Regular := by
  unfold Json.members at h
  split at h
  · split at h
    · exact nomatch h
    split at h
    · split at h
      · exact nomatch h
      · next key _ _ _ _ _ _ v tail hread =>
        have hall : (Value.obj (Members.put key v _)).Regular :=
          .obj (Members.nodup_put key v hdone.keys) fun m hm => by
            rcases Members.mem_put hm with rfl | hm
            · exact ih.value hread
            · exact hdone.member hm
        split at h
        · obtain ⟨rfl, _⟩ := Prod.mk.inj (Except.ok.inj h)
          exact hall
        · exact ih.members hall h
        · exact nomatch h
    · exact nomatch h
  · exact nomatch h

end ReadsRegular

theorem readsRegular (fuel : Nat) : ReadsRegular fuel := by
  induction fuel with
  | zero => exact ⟨nofun, fun _ => nofun, fun _ => nofun⟩
  | succ fuel ih => exact ⟨ih.value_succ, ih.items_succ, ih.members_succ⟩

/-- All that is read from a text is regular. -/
theorem regular_of_read {s : String} (h : read limits s = .ok v) : v.Regular := by
  unfold read readChars at h
  split at h
  · exact nomatch h
  · next hread =>
    split at h
    · obtain rfl := Except.ok.inj h
      exact (readsRegular _).value hread
    · exact nomatch h

end Json

end Patchbay
