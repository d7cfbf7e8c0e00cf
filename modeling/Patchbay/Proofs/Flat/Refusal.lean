import Patchbay.Proofs.Flat.Flattening

/-!
# When flattening fails

A sound closure has a flat graph exactly if none of its patches is ill-formed and all of them can
be read (`flatten_eq_ok_iff`): a complete unfolding has looked at every link and at every literal
value. Otherwise the failure is about the structure of the project, or about a numeral with too many
digits (`flatten_refuses`).
-/

namespace Patchbay

namespace Inlining

variable {closure : Closure} {sites : List Site} {c : Inlining} {patch : Patch} {node : Node}

namespace Complete

/-- What an end of a link names on the boundary of an instance is a terminal. -/
theorem names_of_end (hs : closure.Sound) (h : Complete closure sites c) {site : Site}
    (hstands : closure.Stands site) {link : Link} (hlink : link ∈ site.patch.links) {e : LinkEnd}
    (he : e ∈ link.ends) {inner : Site} (hinner : inner ∈ sites)
    (hpath : inner.path = site.path ++ [e.node]) {d : Direction} {terminal : Nat}
    (hpin : e.pin = .boundary d terminal) : closure.Names inner.patch d terminal := by
  have hsite := (h.mem_iff site).mpr hstands
  obtain ⟨edge, _, directed, horient, ⟨_, hsource, _⟩, _, htarget, _⟩ :=
    h.unfolds.edge_of_link site hsite link hlink
  have hlands : ∃ path pin, Lands closure sites site e path pin := by
    rcases Edge.mem_ends_iff.mp
        ((mem_ends_of_orient hs (hs.patch_mem hstands) hlink horient).mpr he) with rfl | rfl
    · exact ⟨_, _, hsource⟩
    · exact ⟨_, _, htarget⟩
  obtain ⟨_, _, ⟨rfl, _, hshut⟩ | ⟨inner', hinner', hpath', d', t', hpin', hnames, _⟩⟩ := hlands
  · exact absurd hpath (hshut inner hinner)
  · obtain rfl := h.unfolds.cut.eq_of_path_eq hs hinner hinner' (hpath.trans hpath'.symm)
    obtain ⟨rfl, rfl⟩ := PinRef.boundary.inj (hpin.symm.trans hpin')
    exact hnames

/-- No patch of a closure with a flat graph is ill-formed. -/
theorem not_illFormed (hs : closure.Sound) (h : Complete closure sites c)
    (hp : patch ∈ closure.patches) : ¬ closure.IllFormed patch := by
  obtain ⟨site, hstands, rfl⟩ := hs.sited patch hp
  rintro (⟨link, hlink, hbad⟩ | ⟨node, hn, inner, hinst, d, terminal, hrefers, hnot⟩)
  · exact (h.unfolds.good site ((h.mem_iff site).mpr hstands) link hlink).1 hbad
  · have hopen := (h.mem_iff _).mpr (.inner hstands hn hinst)
    rcases hrefers with ⟨link, hlink, e, he, hid, hpin⟩ | ⟨literal, hliteral, hparse⟩
    · exact hnot (h.names_of_end hs hstands hlink he hopen (by rw [hid]) hpin)
    · exact (h.unfolds.named _ hopen node rfl literal hliteral).1 ⟨d, terminal, hparse, hnot⟩

/-- Every patch of a closure with a flat graph can be read. -/
theorem readable (hs : closure.Sound) (h : Complete closure sites c)
    (hp : patch ∈ closure.patches) : closure.Readable patch := by
  obtain ⟨site, hstands, rfl⟩ := hs.sited patch hp
  refine ⟨fun link hlink => ?_, fun node hn ⟨inner, hinst⟩ literal hliteral => ?_⟩
  · exact (h.unfolds.good site ((h.mem_iff site).mpr hstands) link hlink).2
  · have hopen := (h.mem_iff _).mpr (.inner hstands hn hinst)
    exact (h.unfolds.named _ hopen node rfl literal hliteral).2

end Complete

/-- A sound closure has a flat graph exactly if its patches are well-formed and can be read. -/
theorem flatten_eq_ok_iff (hs : closure.Sound) :
    (∃ graph, closure.flatten = .ok graph) ↔
      ∀ patch ∈ closure.patches, ¬ closure.IllFormed patch ∧ closure.Readable patch := by
  rcases flatten_cases hs with ⟨failure, hfail, hblamed⟩ | ⟨c, sites, hok, h⟩
  · refine ⟨fun ⟨graph, hgraph⟩ => absurd (hfail.symm.trans hgraph) (by simp), fun hall => ?_⟩
    rcases hblamed with ⟨_, patch, hp, hbad⟩ | ⟨_, patch, hp, hunread⟩
    · exact absurd hbad (hall patch hp).1
    · exact absurd (hall patch hp).2 hunread
  · exact ⟨fun _ patch hp => ⟨h.not_illFormed hs hp, h.readable hs hp⟩, fun _ => ⟨_, hok⟩⟩

theorem blamed_of_flatten (hs : closure.Sound) {failure : Failure}
    (hf : closure.flatten = .error failure) : Blamed closure failure := by
  rcases flatten_cases hs with ⟨failure', hfail, hblamed⟩ | ⟨c, sites, hok, h⟩
  · rwa [← Except.error.inj (hfail.symm.trans hf)]
  · exact absurd (hok.symm.trans hf) (by simp)

end Inlining

namespace Lamp

/-- An output terminal is named where an input terminal stands. -/
theorem illFormed_main : (closure "output_41").IllFormed (main "output_41") := by
  refine .inr ⟨⟨1, "@/lamp", [("output_41", .bool true)], 1⟩, by simp [main], lamp,
    ⟨by simp [closure], rfl⟩, .output, 41, .inr ⟨("output_41", .bool true), by simp, by cbv⟩, ?_⟩
  rintro ⟨node, hn, hid, p, t, hkind, hterminal, hdirection⟩
  have hn : node = ⟨41, "core/inputBool", [], 1⟩ := by
    simp only [lamp, List.mem_cons, List.not_mem_nil, or_false] at hn
    rcases hn with rfl | rfl | rfl
    · rfl
    · exact absurd hid (by decide)
    · exact absurd hid (by decide)
  subst hn
  obtain rfl := Kind.primitive.inj (Except.ok.inj hkind)
  obtain rfl := Option.some.inj hterminal
  exact absurd hdirection (by decide)

theorem readable_closure {key : String} (hkey : Document.keyFault? key = none) :
    ∀ patch ∈ (closure key).patches, (closure key).Readable patch := by
  intro patch hp
  have hids : Link.idFault? "1" = none ∧ Link.idFault? "2" = none := ⟨by cbv, by cbv⟩
  simp only [closure, List.mem_cons, List.not_mem_nil, or_false] at hp
  rcases hp with rfl | rfl | rfl
  · exact ⟨by simp [wire, hids], by simp [wire]⟩
  · exact ⟨by simp [lamp, hids], by simp [lamp]⟩
  · exact ⟨by simp [main, hids], by simp [main, hkey]⟩

end Lamp

/-! ## A link id with too many digits -/

namespace Loop

/-- A node with a link from one of its pins to another, under this link id. -/
def document (id : String) : Value :=
  .obj [("patches", .obj [("@/main", .obj [
    ("nodes", .obj [("1", .obj [("type", .str "led")])]),
    ("links", .obj [(id, .obj [("pins", .arr [
      .obj [("nodeId", .int 1), ("pinKey", .str "out")],
      .obj [("nodeId", .int 1), ("pinKey", .str "in")]])])])])])]

def patch (id : String) : Patch where
  path := "@/main"
  id := none
  nodes := [⟨1, "led", [], 1⟩]
  links := [⟨id, ⟨1, .named "out"⟩, ⟨1, .named "in"⟩⟩]

def project (id : String) : Project := ⟨"", [patch id], []⟩

def closure (id : String) : Closure where
  entry := patch id
  patches := [patch id]
  kinds := [("led", .primitive ⟨"led", none, none⟩)]

theorem project_document (id : String) : Document.project (document id) = .ok (project id) := rfl

theorem ofEntry_project (id : String) :
    Closure.ofEntry (project id) "@/main" false = .ok (closure id) := by
  cbv

theorem not_illFormed (id : String) : ¬ ∃ q ∈ (closure id).patches, (closure id).IllFormed q := by
  simp [closure, patch, Closure.IllFormed, Closure.BadLink, Closure.Misplaced, Closure.Points,
    Closure.Dangling, Closure.Instantiates, Kinds.kind, Link.ends, Primitive.pin?,
    Primitive.terminalPin?]

theorem idFault?_replicate {n : Nat} (h : Text.Numeral.limit < n) :
    Link.idFault? (String.ofList (List.replicate n '1')) ≠ none := by
  have hdigit : Text.Numeral.isAsciiDigit '1' = true := by decide
  have hpos : n ≠ 0 := by omega
  have hnumeral : Text.Numeral.isAsciiNumeral (String.ofList (List.replicate n '1')) = true := by
    simp [Text.Numeral.isAsciiNumeral, List.all_replicate, hpos, hdigit]
  unfold Link.idFault? Text.Numeral.read
  rw [if_pos hnumeral, String.toList_ofList, List.length_replicate, if_pos h]
  simp

/-- A numeral one digit longer than those that are read. -/
def longId : String := String.ofList (List.replicate (Text.Numeral.limit + 1) '1')

theorem idFault?_longId : Link.idFault? longId ≠ none := idFault?_replicate (Nat.lt_succ_self _)

end Loop

/-- Flattening fails exactly on ill-formed patches, wherever they are nested, and on numerals with
too many digits. Where all patches can be read, it reports the structure of the project if one of
them is ill-formed, and gives a graph otherwise. -/
theorem flatten_refuses {document : Value} {project : Project} {entryPath : String} {strict : Bool}
    {closure : Closure} (hp : Document.project document = .ok project)
    (hc : Closure.ofEntry project entryPath strict = .ok closure) :
    ((∃ graph, closure.flatten = .ok graph) ↔
      ∀ patch ∈ closure.patches, ¬ closure.IllFormed patch ∧ closure.Readable patch) ∧
    (∀ failure, closure.flatten = .error failure →
      failure.kind = .invalidProjectFormat ∧ (∃ patch ∈ closure.patches, closure.IllFormed patch) ∨
      (∃ count, failure = .fault (.tooManyDigits count)) ∧
        ∃ patch ∈ closure.patches, ¬ closure.Readable patch) ∧
    ((∀ patch ∈ closure.patches, closure.Readable patch) →
      ((∃ failure, closure.flatten = .error failure ∧ failure.kind = .invalidProjectFormat) ↔
        ∃ patch ∈ closure.patches, closure.IllFormed patch)) := by
  have hs := Closure.sound_of_ofEntry hp hc
  have hok := Inlining.flatten_eq_ok_iff hs
  refine ⟨hok, fun failure hf => Inlining.blamed_of_flatten hs hf, fun hread => ⟨?_, ?_⟩⟩
  · rintro ⟨failure, hf, _⟩
    rcases Inlining.blamed_of_flatten hs hf with ⟨_, hbad⟩ | ⟨_, patch, hpatch, hunread⟩
    · exact hbad
    · exact absurd (hread patch hpatch) hunread
  · rintro ⟨patch, hpatch, hbad⟩
    cases hf : closure.flatten with
    | ok graph => exact absurd hbad ((hok.mp ⟨graph, hf⟩) patch hpatch).1
    | error failure =>
      refine ⟨failure, rfl, ?_⟩
      rcases Inlining.blamed_of_flatten hs hf with ⟨hinvalid, _⟩ | ⟨_, patch, hpatch, hunread⟩
      · exact hinvalid
      · exact absurd (hread patch hpatch) hunread

theorem flatten_refuses_lamp :
    Document.project (Lamp.document "output_41") = .ok (Lamp.project "output_41") ∧
    Closure.ofEntry (Lamp.project "output_41") "@/main" false = .ok (Lamp.closure "output_41") ∧
    (∀ patch ∈ (Lamp.closure "output_41").patches,
      (Lamp.closure "output_41").Readable patch) ∧
    ∃ failure, (Lamp.closure "output_41").flatten = .error failure ∧
      failure.kind = .invalidProjectFormat := by
  have hp := Lamp.project_document "output_41"
  have hc := Lamp.ofEntry_project "output_41"
  have hread := @Lamp.readable_closure "output_41" (by decide)
  refine ⟨hp, hc, hread, ((flatten_refuses hp hc).2.2 hread).mpr ?_⟩
  exact ⟨Lamp.main "output_41", by simp [Lamp.closure], Lamp.illFormed_main⟩

/-- A patch that is not ill-formed, and is refused all the same, for a link id that is a numeral
with too many digits. -/
theorem flatten_refuses_longId :
    Document.project (Loop.document Loop.longId) = .ok (Loop.project Loop.longId) ∧
    Closure.ofEntry (Loop.project Loop.longId) "@/main" false = .ok (Loop.closure Loop.longId) ∧
    (¬ ∃ patch ∈ (Loop.closure Loop.longId).patches,
      (Loop.closure Loop.longId).IllFormed patch) ∧
    ∃ failure, (Loop.closure Loop.longId).flatten = .error failure ∧
      failure.kind ≠ .invalidProjectFormat := by
  have hp := Loop.project_document Loop.longId
  have hc := Loop.ofEntry_project Loop.longId
  have hs := Closure.sound_of_ofEntry hp hc
  have hgood := Loop.not_illFormed Loop.longId
  refine ⟨hp, hc, hgood, ?_⟩
  cases hf : (Loop.closure Loop.longId).flatten with
  | ok graph =>
    have hread := ((Inlining.flatten_eq_ok_iff hs).mp ⟨graph, hf⟩ _ (List.mem_singleton_self _)).2
    exact absurd (hread.links _ (List.mem_singleton_self _)) Loop.idFault?_longId
  | error failure =>
    rcases Inlining.blamed_of_flatten hs hf with ⟨_, hbad⟩ | ⟨⟨count, rfl⟩, _⟩
    · exact absurd hbad hgood
    · exact ⟨_, rfl, by simp [Failure.kind]⟩

end Patchbay
