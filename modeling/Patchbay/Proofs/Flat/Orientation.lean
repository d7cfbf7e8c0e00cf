import Patchbay.Flat.Inlining
import Patchbay.Proofs.Outcome
import Patchbay.Proofs.Project.IllFormed

/-!
# Directed links

A link of a patch is directed from its output to its input exactly if it is not bad
(`orient_cases`), and then both its ends are where they were, and it ends on no output
(`direction_of_orient`). A patch adds one edge for each of its
links, or is refused for a bad one (`addLinks_cases`).
-/

namespace Patchbay

/-- A failure about the structure of the project. -/
def Failure.IsInvalid (failure : Failure) : Prop := failure.kind = .invalidProjectFormat

/-- A failure about a numeral with too many digits. -/
def Failure.IsUnread (failure : Failure) : Prop := ∃ count, failure = .fault (.tooManyDigits count)

namespace Inlining

variable {closure : Closure} {patch : Patch} {node : Node} {e : LinkEnd} {link : Link}

theorem typeIn_eq_ok (hp : patch.Sound) (hn : node ∈ patch.nodes) (hid : node.id = e.node) :
    typeIn patch e.node = .ok node.type := by
  unfold typeIn
  rw [hp.node?_eq_some_iff.mpr ⟨hn, hid⟩]

theorem misplaced_iff (hs : closure.Sound) (hp : patch ∈ closure.patches) (hn : node ∈ patch.nodes)
    (hid : node.id = e.node) :
    closure.Misplaced patch e ↔
      (∃ inner, closure.Instantiates node.type inner) ∧ (∃ key, e.pin = .named key) ∨
      ∃ p, closure.kinds.kind node.type = .ok (.primitive p) ∧
        (p.entry ≠ none ∨ p.terminal ≠ none) ∧ p.pin? e.pin.key = none := by
  refine ⟨fun ⟨m, hm, hmid, h⟩ => ?_, fun h => ⟨node, hn, hid, h⟩⟩
  rwa [(hs.patch_sound _ hp).eq_of_id_eq hn hm (hid.trans hmid.symm)]

theorem points_iff (hs : closure.Sound) (hp : patch ∈ closure.patches) (hn : node ∈ patch.nodes)
    (hid : node.id = e.node) {d : Direction} :
    closure.Points patch e d ↔
      (∃ inner, closure.Instantiates node.type inner) ∧ (∃ terminal, e.pin = .boundary d terminal) ∨
      ∃ p, closure.kinds.kind node.type = .ok (.primitive p) ∧
        ∃ pin, p.pin? e.pin.key = some pin ∧ pin.direction = d := by
  refine ⟨fun ⟨m, hm, hmid, h⟩ => ?_, fun h => ⟨node, hn, hid, h⟩⟩
  rwa [(hs.patch_sound _ hp).eq_of_id_eq hn hm (hid.trans hmid.symm)]

theorem hasSignature_iff {p : Primitive} :
    p.hasSignature = true ↔ p.entry ≠ none ∨ p.terminal ≠ none := by
  simp [Primitive.hasSignature, Primitive.isTerminal, Option.isSome_iff_ne_none]

/-- The direction of an end is told unless the end is misplaced. -/
theorem direction_cases (hs : closure.Sound) (hp : patch ∈ closure.patches)
    (hn : node ∈ patch.nodes) (hid : node.id = e.node) (id : String) :
    (∃ failure, direction closure.kinds id node.type e = .error failure ∧ failure.IsInvalid ∧
      closure.Misplaced patch e) ∨
    (∃ d?, direction closure.kinds id node.type e = .ok d? ∧ ¬ closure.Misplaced patch e ∧
      ∀ d, d? = some d ↔ closure.Points patch e d) := by
  rw [misplaced_iff hs hp hn hid]
  simp only [points_iff hs hp hn hid]
  unfold direction
  rcases hs.kind_cases (hs.classified _ hp _ hn) with ⟨inner, hinst, hkind⟩ | ⟨p, hkind, hnone⟩
  · rw [hkind]
    cases hpin : e.pin with
    | named key => exact .inl ⟨_, rfl, rfl, .inl ⟨⟨inner, hinst⟩, key, rfl⟩⟩
    | boundary d terminal =>
      refine .inr ⟨_, rfl, by simp, fun d' => ?_⟩
      simp [show ∃ inner, closure.Instantiates node.type inner from ⟨inner, hinst⟩]
  · rw [hkind]
    have hnone : ¬ ∃ inner, closure.Instantiates node.type inner := fun ⟨q, hq⟩ => hnone q hq
    cases hpin : p.pin? e.pin.key with
    | some pin =>
      simp only [Primitive.direction?, hpin]
      exact .inr ⟨_, rfl, by simp [hnone, hpin], fun d => by simp [hnone, hpin]⟩
    | none =>
      simp only [Primitive.direction?, hpin]
      by_cases hsig : p.hasSignature = true
      · simp only [Option.map_none, hsig, if_true]
        exact .inl ⟨_, rfl, rfl, .inr ⟨p, rfl, hasSignature_iff.mp hsig, hpin⟩⟩
      · simp only [Option.map_none, hsig]
        refine .inr ⟨_, rfl, ?_, fun d => by simp [hnone, hpin]⟩
        rw [hasSignature_iff] at hsig
        simpa [hnone, hpin] using hsig

/-- A link is directed unless it is bad. -/
theorem orient_cases (hs : closure.Sound) (hp : patch ∈ closure.patches)
    (hlink : link ∈ patch.links) :
    (∃ failure, orient closure.kinds patch link = .error failure ∧ failure.IsInvalid ∧
      closure.BadLink patch link) ∨
    (∃ edge, orient closure.kinds patch link = .ok edge ∧ ¬ closure.BadLink patch link ∧
      (edge = ⟨link.first, link.second⟩ ∨ edge = ⟨link.second, link.first⟩)) := by
  have hpatch := hs.patch_sound _ hp
  obtain ⟨a, ha, haid⟩ := hpatch.ends_known _ hlink link.first link.first_mem_ends
  obtain ⟨b, hb, hbid⟩ := hpatch.ends_known _ hlink link.second link.second_mem_ends
  unfold orient
  simp only [typeIn_eq_ok hpatch ha haid, typeIn_eq_ok hpatch hb hbid, bind, Except.bind]
  rcases direction_cases hs hp ha haid link.id with
    ⟨failure, hfail, hinvalid, hmis⟩ | ⟨da, hda, hamis, hadir⟩
  · exact .inl ⟨failure, by rw [hfail], hinvalid, .inl ⟨link.first, link.first_mem_ends, hmis⟩⟩
  rcases direction_cases hs hp hb hbid link.id with
    ⟨failure, hfail, hinvalid, hmis⟩ | ⟨db, hdb, hbmis, hbdir⟩
  · exact .inl ⟨failure, by rw [hda, hfail], hinvalid,
      .inl ⟨link.second, link.second_mem_ends, hmis⟩⟩
  rw [hda, hdb]
  have hends : ¬ ∃ e ∈ link.ends, closure.Misplaced patch e := by
    simp [Link.ends, hamis, hbmis]
  have hbad : closure.BadLink patch link ↔ ∃ d, da = some d ∧ db = some d := by
    unfold Closure.BadLink
    simp only [hends, false_or, hadir, hbdir]
  rw [hbad]
  match da, db with
  | some .input, some .input => exact .inl ⟨_, rfl, rfl, _, rfl, rfl⟩
  | some .output, some .output => exact .inl ⟨_, rfl, rfl, _, rfl, rfl⟩
  | some .input, some .output => exact .inr ⟨_, rfl, by simp, .inr rfl⟩
  | some .output, some .input => exact .inr ⟨_, rfl, by simp, .inl rfl⟩
  | some .input, none => exact .inr ⟨_, rfl, by simp, .inr rfl⟩
  | some .output, none => exact .inr ⟨_, rfl, by simp, .inl rfl⟩
  | none, some .output => exact .inr ⟨_, rfl, by simp, .inr rfl⟩
  | none, some .input => exact .inr ⟨_, rfl, by simp, .inl rfl⟩
  | none, none => exact .inr ⟨_, rfl, by simp, .inl rfl⟩

/-- A directed link ends on no output. -/
theorem direction_of_orient {kinds : Kinds} {edge : Edge} (h : orient kinds patch link = .ok edge) :
    ∃ type d?, typeIn patch edge.target.node = .ok type ∧
      direction kinds link.id type edge.target = .ok d? ∧ d? ≠ some .output := by
  obtain ⟨type, htype, h⟩ := bind_eq_ok.mp h
  obtain ⟨first, hfirst, h⟩ := bind_eq_ok.mp h
  obtain ⟨type', htype', h⟩ := bind_eq_ok.mp h
  obtain ⟨second, hsecond, h⟩ := bind_eq_ok.mp h
  have hends : edge = ⟨link.first, link.second⟩ ∧ second ≠ some .output ∨
      edge = ⟨link.second, link.first⟩ ∧ first ≠ some .output := by
    match first, second with
    | some .input, some .input => exact absurd h (by simp)
    | some .output, some .output => exact absurd h (by simp)
    | some .input, some .output => exact .inr ⟨(Except.ok.inj h).symm, by simp⟩
    | some .output, some .input => exact .inl ⟨(Except.ok.inj h).symm, by simp⟩
    | some .input, none => exact .inr ⟨(Except.ok.inj h).symm, by simp⟩
    | some .output, none => exact .inl ⟨(Except.ok.inj h).symm, by simp⟩
    | none, some .output => exact .inr ⟨(Except.ok.inj h).symm, by simp⟩
    | none, some .input => exact .inl ⟨(Except.ok.inj h).symm, by simp⟩
    | none, none => exact .inl ⟨(Except.ok.inj h).symm, by simp⟩
  rcases hends with ⟨rfl, houtput⟩ | ⟨rfl, houtput⟩
  · exact ⟨type', second, htype', hsecond, houtput⟩
  · exact ⟨type, first, htype, hfirst, houtput⟩

/-- A directed link ends on an input where the pins of the type are known. -/
theorem direction?_of_orient {kinds : Kinds} {edge : Edge} {p : Primitive}
    (h : orient kinds patch link = .ok edge) (hp : patch.Sound) (hn : node ∈ patch.nodes)
    (hid : node.id = edge.target.node) (hkind : kinds.kind node.type = .ok (.primitive p))
    (hsig : p.hasSignature = true) : p.direction? edge.target.pin.key = some .input := by
  obtain ⟨type, d?, htype, hdirection, houtput⟩ := direction_of_orient h
  obtain rfl := Except.ok.inj ((typeIn_eq_ok hp hn hid).symm.trans htype)
  unfold direction at hdirection
  rw [hkind] at hdirection
  dsimp only at hdirection
  split at hdirection
  · next d hd =>
    obtain rfl := Except.ok.inj hdirection
    cases d with
    | input => exact hd
    | output => exact absurd rfl houtput
  · rw [if_pos hsig] at hdirection
    exact absurd hdirection (by simp)

/-! ## The edges of a patch -/

/-- The edge that a link becomes between the places of its nodes. -/
def Placed (closure : Closure) (patch : Patch) (places : Places) (link : Link) (edge : Edge) :
    Prop :=
  ∃ directed, orient closure.kinds patch link = .ok directed ∧
    place places directed.source.node = .ok edge.source.node ∧
    place places directed.target.node = .ok edge.target.node ∧
    edge.source.pin = directed.source.pin ∧ edge.target.pin = directed.target.pin

/-- The places hold every node of the patch. -/
def Covers (places : Places) (patch : Patch) : Prop :=
  ∀ node ∈ patch.nodes, ∃ global, place places node.id = .ok global

theorem placedEdge_cases (hs : closure.Sound) (hp : patch ∈ closure.patches) {places : Places}
    (hcovers : Covers places patch) (hlink : link ∈ patch.links) :
    (∃ failure, placedEdge closure.kinds patch places link = .error failure ∧ failure.IsInvalid ∧
      closure.BadLink patch link) ∨
    (∃ edge, placedEdge closure.kinds patch places link = .ok edge ∧
      ¬ closure.BadLink patch link ∧ Placed closure patch places link edge) := by
  have hknown : ∀ e ∈ link.ends, ∃ global, place places e.node = .ok global := by
    intro e he
    obtain ⟨node, hn, hid⟩ := (hs.patch_sound _ hp).ends_known _ hlink e he
    exact hid ▸ hcovers node hn
  obtain ⟨first, hfirst⟩ := hknown link.first link.first_mem_ends
  obtain ⟨second, hsecond⟩ := hknown link.second link.second_mem_ends
  unfold placedEdge
  rcases orient_cases hs hp hlink with
    ⟨failure, hfail, hinvalid, hbad⟩ | ⟨edge, horient, hok, hends⟩
  · exact .inl ⟨failure, by simp only [hfail, bind, Except.bind], hinvalid, hbad⟩
  · rcases hends with rfl | rfl
    · exact .inr ⟨⟨⟨first, link.first.pin⟩, ⟨second, link.second.pin⟩⟩,
        by simp only [horient, hfirst, hsecond, bind, Except.bind, pure, Except.pure],
        hok, _, horient, hfirst, hsecond, rfl, rfl⟩
    · exact .inr ⟨⟨⟨second, link.second.pin⟩, ⟨first, link.first.pin⟩⟩,
        by simp only [horient, hfirst, hsecond, bind, Except.bind, pure, Except.pure],
        hok, _, horient, hsecond, hfirst, rfl, rfl⟩

theorem addEdges_cases (hs : closure.Sound) (hp : patch ∈ closure.patches) {places : Places}
    (hcovers : Covers places patch) {c : Inlining} (hc : c.closure = closure) {links : List Link}
    (hlinks : ∀ link ∈ links, link ∈ patch.links) :
    (∃ stopped, addEdges patch places c links = .error stopped ∧ stopped.failure.IsInvalid ∧
      ∃ link ∈ links, closure.BadLink patch link) ∨
    (∃ edges, addEdges patch places c links = .ok { c with edges := c.edges ++ edges } ∧
      (∀ link ∈ links, ¬ closure.BadLink patch link) ∧
      List.Forall₂ (Placed closure patch places) links edges) := by
  induction links generalizing c with
  | nil => exact .inr ⟨[], by simp [addEdges], by simp, .nil⟩
  | cons link rest ih =>
    have hlink := hlinks link List.mem_cons_self
    have hrest := fun l hl => hlinks l (List.mem_cons_of_mem _ hl)
    unfold addEdges
    rw [show c.closure.kinds = closure.kinds from congrArg Closure.kinds hc]
    rcases placedEdge_cases hs hp hcovers hlink with
      ⟨failure, hfail, hinvalid, hbad⟩ | ⟨edge, hok, hgood, hplaced⟩
    · exact .inl ⟨⟨c, failure⟩, by rw [hfail], hinvalid, link, List.mem_cons_self, hbad⟩
    · rw [hok]
      rcases ih (c := { c with edges := c.edges ++ [edge] }) hc hrest with
        ⟨stopped, hstop, hinvalid, l, hl, hbad⟩ | ⟨edges, hadd, hgoods, hplaceds⟩
      · exact .inl ⟨stopped, hstop, hinvalid, l, List.mem_cons_of_mem _ hl, hbad⟩
      · refine .inr ⟨edge :: edges, by simpa using hadd, fun l hl => ?_, .cons hplaced hplaceds⟩
        rcases List.mem_cons.mp hl with rfl | hl
        · exact hgood
        · exact hgoods l hl

theorem idFault?_eq_some {id : String} {fault : Fault} (h : Link.idFault? id = some fault) :
    ∃ count, fault = .tooManyDigits count := by
  unfold Link.idFault? Text.Numeral.read at h
  split at h
  · split at h
    · exact absurd h (by simp)
    · next fault' hread =>
      split at hread
      · obtain rfl := Option.some.inj h
        exact ⟨_, (Except.error.inj hread).symm⟩
      · exact absurd hread (by simp)
  · exact absurd h (by simp)

theorem sortedLinks_cases (patch : Patch) :
    (∃ fault, patch.sortedLinks = .error fault ∧ (∃ count, fault = .tooManyDigits count) ∧
      ∃ link ∈ patch.links, Link.idFault? link.id ≠ none) ∨
    (∃ links, patch.sortedLinks = .ok links ∧ links.Perm patch.links ∧
      ∀ link ∈ patch.links, Link.idFault? link.id = none) := by
  unfold Patch.sortedLinks Link.sortById
  cases h : patch.links.findSome? fun link => Link.idFault? link.id with
  | some fault =>
    obtain ⟨link, hlink, hfault⟩ := List.exists_of_findSome?_eq_some h
    exact .inl ⟨fault, rfl, idFault?_eq_some hfault, link, hlink, by simp [hfault]⟩
  | none => exact .inr ⟨_, rfl, List.mergeSort_perm _ _, List.findSome?_eq_none_iff.mp h⟩

/-- A patch adds an edge for each of its links, in some order, unless one of them is bad or has an
id that cannot be read. -/
theorem addLinks_cases (hs : closure.Sound) (hp : patch ∈ closure.patches) {places : Places}
    (hcovers : Covers places patch) {c : Inlining} (hc : c.closure = closure) :
    (∃ stopped, addLinks c patch places = .error stopped ∧
      (stopped.failure.IsInvalid ∧ (∃ link ∈ patch.links, closure.BadLink patch link) ∨
        stopped.failure.IsUnread ∧ ∃ link ∈ patch.links, Link.idFault? link.id ≠ none)) ∨
    (∃ links edges, addLinks c patch places = .ok { c with edges := c.edges ++ edges } ∧
      links.Perm patch.links ∧
      (∀ link ∈ patch.links, ¬ closure.BadLink patch link ∧ Link.idFault? link.id = none) ∧
      List.Forall₂ (Placed closure patch places) links edges) := by
  unfold addLinks
  rcases sortedLinks_cases patch with
    ⟨fault, hsort, ⟨count, rfl⟩, hlink⟩ | ⟨links, hsort, hperm, hread⟩
  · exact .inl ⟨_, by rw [hsort], .inr ⟨⟨count, rfl⟩, hlink⟩⟩
  · rw [hsort]
    rcases addEdges_cases hs hp hcovers hc (fun l hl => hperm.mem_iff.mp hl) with
      ⟨stopped, hstop, hinvalid, l, hl, hbad⟩ | ⟨edges, hadd, hgood, hplaced⟩
    · exact .inl ⟨stopped, hstop, .inl ⟨hinvalid, l, hperm.mem_iff.mp hl, hbad⟩⟩
    · exact .inr ⟨links, edges, hadd, hperm,
        fun l hl => ⟨hgood l (hperm.mem_iff.mpr hl), hread l hl⟩, hplaced⟩

end Inlining

end Patchbay
