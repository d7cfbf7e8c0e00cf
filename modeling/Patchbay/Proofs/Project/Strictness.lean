import Patchbay.Proofs.Project.Nesting

/-!
# Strict readings

A strict reading of an entry refuses the first type that it meets and that is neither a patch nor
declared nor a terminal. It goes in lockstep with the lenient reading up to there
(`resolve_narrows`), so it does nothing but reject (`ofEntry_stricter`): it comes to the same closure
if all types in use are known, and names one that is not otherwise. Where the lenient reading runs
into a circle, the strict one does too unless it is stopped on the way there.
-/

namespace Patchbay

namespace Project

variable {project : Project} {type : String}

/-- The type is the path of a patch, a key of the catalog, or a terminal type. -/
def Known (project : Project) (type : String) : Prop :=
  type ∈ project.patches.map Patch.path ∨ type ∈ project.catalog.map NodeType.id ∨
    ∃ terminal, Terminal.ofType? type = some terminal

theorem isUnknown_iff : project.isUnknown type = true ↔ ¬ project.Known type := by
  have hcatalog : (project.catalog.type? type).isSome = true ↔
      type ∈ project.catalog.map NodeType.id := by
    rw [Catalog.type?, Keyed.find?_isSome_iff, List.mem_map]
  rw [Known, ← Closure.isPatch_iff_mem, ← hcatalog, ← Option.isSome_iff_exists]
  simp [isUnknown, primitive, Primitive.isUnknown, Primitive.hasSignature, Primitive.isTerminal]

/-- The failure is the refusal of a type. -/
def RefusesType (failure : Failure) : Prop := ∃ type, failure = .unknownType type

theorem classify_narrows (kinds : Kinds) (type : String) :
    Narrows RefusesType (project.classify true kinds type) (project.classify false kinds type) := by
  unfold classify
  split
  · exact .refl _
  · rw [Bool.true_and, Bool.false_and]
    split
    · exact .error ⟨type, rfl⟩
    · exact .refl _

theorem gather_narrows (kinds : Kinds) (paths : List String) (nodes : List Node) :
    Narrows RefusesType (project.gather true kinds paths nodes)
      (project.gather false kinds paths nodes) := by
  induction nodes generalizing kinds paths with
  | nil => exact .refl _
  | cons node rest ih =>
    unfold gather
    rcases project.classify_narrows kinds node.type with heq | ⟨failure, hfailure, heq⟩
    · rw [heq]
      split
      · exact .refl _
      · exact ih _ _
      · exact ih _ _
    · rw [heq]
      exact .error hfailure

theorem nestedClassifying_narrows (kinds : Kinds) (path : String) :
    Narrows RefusesType (project.nestedClassifying true kinds path)
      (project.nestedClassifying false kinds path) := by
  unfold nestedClassifying
  split
  · exact .refl _
  · exact (gather_narrows kinds [] _).map _

end Project

namespace Closure

variable {project : Project} {entryPath path type : String} {strict strict' : Bool}
  {closure closure' : Closure}

/-! ## Two readings -/

theorem resolve_narrows (project : Project) (entryPath : String) :
    Narrows Project.RefusesType (resolve project entryPath true)
      (resolve project entryPath false) := by
  unfold resolve
  split
  · exact .refl _
  · rcases DepthFirst.postorderRecording_narrows project.nestedClassifying_narrows
      (project.patches.map Patch.path) [] [entryPath] with heq | ⟨interrupt, hinterrupt, heq⟩
    · rw [heq]
      exact .refl _
    · rw [heq]
      cases interrupt with
      | cycle _ => exact hinterrupt.elim
      | refused failure => exact .error hinterrupt

/-- A closure is made of what its patches are. -/
theorem eq_of_patches_eq (hc : ofEntry project entryPath strict = .ok closure)
    (hc' : ofEntry project entryPath strict' = .ok closure')
    (h : closure.patches = closure'.patches) : closure = closure' := by
  obtain ⟨_, hw⟩ := walked_of_ofEntry hc
  obtain ⟨_, hw'⟩ := walked_of_ofEntry hc'
  have hentry := Option.some.inj (hw.entry.symm.trans hw'.entry)
  have hkinds := hw.kinds_eq.trans (h ▸ hw'.kinds_eq.symm)
  cases closure
  cases closure'
  simp_all

theorem ofEntry_narrows (project : Project) (entryPath : String) :
    Narrows Project.RefusesType (ofEntry project entryPath true)
      (ofEntry project entryPath false) := by
  have hstrict := resolve_agree project entryPath true
  have hlenient := resolve_agree project entryPath false
  rcases resolve_narrows project entryPath with heq | ⟨failure, hfailure, heq⟩
  · rw [heq] at hstrict
    generalize hs : ofEntry project entryPath true = s at hstrict ⊢
    generalize hl : ofEntry project entryPath false = l at hlenient ⊢
    generalize resolve project entryPath false = r at hstrict hlenient
    cases hstrict with
    | ok h =>
      cases hlenient with
      | ok h' => rw [eq_of_patches_eq hs hl (h.patches_eq.symm.trans h'.patches_eq)]; exact .refl _
    | error h =>
      cases hlenient with
      | error h' => rw [← h, ← h']; exact .refl _
  · rw [heq] at hstrict
    generalize ofEntry project entryPath true = s at hstrict ⊢
    cases hstrict with
    | error h => exact h ▸ .error hfailure

theorem Walked.mem_order_of_reaches {order : List String}
    (hw : Walked project strict entryPath order closure) (h : project.Reaches entryPath path) :
    path ∈ order := by
  obtain ⟨_, _, hnested⟩ := hw.nested_mem
  induction h with
  | refl => exact hw.entry_mem_order
  | tail _ hnests ih =>
    obtain ⟨patch, hpatch, ⟨node, hnode, rfl⟩, hisPatch⟩ := hnests
    obtain rfl := (path_of_patch? hpatch).2
    exact (hnested patch (hw.mem_patches_iff.mpr ⟨ih, hpatch⟩) node hnode hisPatch).1

/-- The types of the patches that instances lead to are in use. -/
theorem mem_types_of_uses (hc : ofEntry project entryPath strict = .ok closure)
    (h : project.Uses entryPath type) : type ∈ closure.kinds.map Prod.fst := by
  obtain ⟨order, hw⟩ := walked_of_ofEntry hc
  obtain ⟨path, patch, hpath, hpatch, node, hnode, rfl⟩ := h
  obtain rfl := (path_of_patch? hpatch).2
  have hmem := hw.mem_patches_iff.mpr ⟨hw.mem_order_of_reaches hpath, hpatch⟩
  rw [hw.types_eq, typesOf, List.mem_eraseDups, List.mem_flatMap]
  exact ⟨patch, hmem, List.mem_map.mpr ⟨node, hnode, rfl⟩⟩

/-- What a strict reading comes to has known types only. -/
theorem known_of_ofEntry (hc : ofEntry project entryPath true = .ok closure)
    (h : type ∈ closure.kinds.map Prod.fst) : project.Known type := by
  obtain ⟨order, hw⟩ := walked_of_ofEntry hc
  obtain ⟨_, hrank⟩ := hw.exists_rank
  rw [hw.types_eq, typesOf, List.mem_eraseDups, List.mem_flatMap] at h
  obtain ⟨patch, hpatch, htype⟩ := h
  obtain ⟨hpath, hfound⟩ := hw.mem_patches_iff.mp hpatch
  obtain ⟨_, next, hnext, _⟩ := hrank _ hpath
  simp only [nestedPaths, hfound, Project.instantiated] at hnext
  split at hnext
  · exact absurd hnext (by simp)
  · next hnone =>
    by_contra hunknown
    have := List.find?_eq_none.mp hnone type htype
    rw [Project.isUnknown_iff.mpr hunknown] at this
    exact this rfl

/-- A strict reading refuses a type only if it is in use and not known. -/
theorem uses_of_ofEntry (h : ofEntry project entryPath true = .error (.unknownType type)) :
    project.Uses entryPath type ∧ ¬ project.Known type := by
  rw [ofEntry_eq] at h
  split at h
  · exact absurd h (by simp)
  · split at h
    · exact absurd h (by simp)
    · next hwalk =>
      obtain rfl := Except.error.inj h
      cases DepthFirst.stops_of_postorder hwalk with
      | @refused path _ hpath hcause =>
        unfold nestedPaths at hcause
        split at hcause
        · exact absurd hcause (by simp)
        · next patch hpatch =>
          unfold Project.instantiated at hcause
          split at hcause
          · next hfound =>
            obtain rfl := Failure.unknownType.inj (Except.error.inj hcause)
            obtain ⟨node, hnode, rfl⟩ := List.mem_map.mp (List.mem_of_find?_eq_some hfound)
            exact ⟨⟨path, patch, reaches_of_walk hpath, hpatch, node, hnode, rfl⟩,
              Project.isUnknown_iff.mp (by simpa using List.find?_some hfound)⟩
          · exact absurd hcause (by simp)
    · exact absurd h (by simp)

/-- What a strict reading of an entry comes to, next to a lenient one. It comes to the same unless
a type in use is not known; it refuses such a type then. -/
structure Stricter (project : Project) (entryPath : String)
    (strict lenient : Except Failure Closure) : Prop where
  ok_iff : ∀ closure, strict = .ok closure ↔
    lenient = .ok closure ∧ ∀ type ∈ closure.kinds.map Prod.fst, project.Known type
  refuses : ∀ closure, lenient = .ok closure →
    (∃ type ∈ closure.kinds.map Prod.fst, ¬ project.Known type) →
      ∃ type ∈ closure.kinds.map Prod.fst, ¬ project.Known type ∧
        strict = .error (.unknownType type)
  fails : ∀ failure, lenient = .error failure → strict = .error failure ∨
    ∃ type, project.Uses entryPath type ∧ ¬ project.Known type ∧
      strict = .error (.unknownType type)

theorem UpToKinds.mem_types_iff (h : UpToKinds closure closure') :
    type ∈ closure.kinds.map Prod.fst ↔ type ∈ closure'.kinds.map Prod.fst :=
  (h.kinds_perm.map Prod.fst).mem_iff

theorem stricter_of_narrows {s l : Except Failure Closure}
    (hn : Narrows Project.RefusesType s l)
    (hs : Agree Eq UpToKinds s (ofEntry project entryPath true))
    (hl : Agree Eq UpToKinds l (ofEntry project entryPath false)) :
    Stricter project entryPath s l := by
  have hknown : ∀ closure, s = .ok closure → ∀ type ∈ closure.kinds.map Prod.fst,
      project.Known type := by
    rintro closure rfl type htype
    generalize hc : ofEntry project entryPath true = reading at hs
    cases hs with
    | ok h => exact known_of_ofEntry hc (h.mem_types_iff.mp htype)
  have huses : ∀ type, s = .error (.unknownType type) →
      project.Uses entryPath type ∧ ¬ project.Known type := by
    rintro type rfl
    generalize hc : ofEntry project entryPath true = reading at hs
    cases hs with
    | error h => exact uses_of_ofEntry (h ▸ hc)
  have hmem : ∀ closure, l = .ok closure → ∀ type, project.Uses entryPath type →
      type ∈ closure.kinds.map Prod.fst := by
    rintro closure rfl type htype
    generalize hc : ofEntry project entryPath false = reading at hl
    cases hl with
    | ok h => exact h.mem_types_iff.mpr (mem_types_of_uses hc htype)
  rcases hn with rfl | ⟨_, ⟨type, rfl⟩, rfl⟩
  · refine ⟨fun closure => ⟨fun h => ⟨h, hknown closure h⟩, fun h => h.1⟩, ?_,
      fun failure h => .inl h⟩
    rintro closure h ⟨type, htype, hunknown⟩
    exact absurd (hknown closure h type htype) hunknown
  · obtain ⟨hused, hunknown⟩ := huses type rfl
    refine ⟨fun closure => ⟨fun h => absurd h (by simp), fun ⟨h, hall⟩ => ?_⟩,
      fun closure h _ => ⟨type, hmem closure h type hused, hunknown, rfl⟩,
      fun _ _ => .inr ⟨type, hused, hunknown, rfl⟩⟩
    exact absurd (hall type (hmem closure h type hused)) hunknown

/-- A strict reading only rejects, be the types classified after the walk or on the way. -/
theorem ofEntry_stricter (project : Project) (entryPath : String) :
    Stricter project entryPath (ofEntry project entryPath true)
        (ofEntry project entryPath false) ∧
      Stricter project entryPath (resolve project entryPath true)
        (resolve project entryPath false) := by
  have hsame : ∀ strict, Agree Eq UpToKinds (ofEntry project entryPath strict)
      (ofEntry project entryPath strict) := fun strict =>
    (Agree.of_eq rfl).imp (fun _ _ => id) fun closure _ h => h ▸ ⟨rfl, rfl, .refl _⟩
  exact ⟨stricter_of_narrows (ofEntry_narrows project entryPath) (hsame true) (hsame false),
    stricter_of_narrows (resolve_narrows project entryPath) (resolve_agree project entryPath true)
      (resolve_agree project entryPath false)⟩

/-- A strict reading stops at a type before the circle that a lenient one runs into. -/
example :
    let loop : Patch := ⟨"@/loop", none, [⟨1, "@/loop", [], 1⟩, ⟨2, "siren", [], 1⟩], []⟩
    ofEntry ⟨"", [loop], []⟩ "@/loop" false = .error (.nestingCycle ["@/loop", "@/loop"]) ∧
      ofEntry ⟨"", [loop], []⟩ "@/loop" true = .error (.unknownType "siren") :=
  ⟨by cbv, by cbv⟩

end Closure
end Patchbay
