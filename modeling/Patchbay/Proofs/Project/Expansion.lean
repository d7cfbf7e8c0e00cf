import Patchbay.Project.Closure
import Patchbay.Proofs.Keyed
import Patchbay.Proofs.Text.Numeral

/-!
# Expansions of variadic pins

A variadic input `ADD` has the expansions `ADD-$1` up to below the arity of a node. The lookup of a
pin reads a base off every such key, whatever the arity (`expansionBase?_expansion`): on a regular
type the inputs that it finds among the exposed keys are the inputs of the node
(`Regular.direction?_iff`).
-/

namespace Patchbay

/-! ## Keys of expansions -/

namespace Text

theorem isDigit_of_isAsciiDigit {c : Char} (h : Numeral.isAsciiDigit c = true) :
    isDigit c = true := by
  rw [Numeral.isAsciiDigit, Bool.and_eq_true, decide_eq_true_eq, decide_eq_true_eq] at h
  have hlow : '0'.toNat ≤ c.toNat := h.1
  have hhigh : c.toNat ≤ '9'.toNat := h.2
  rw [isDigit, digitValue?, Option.isSome_map, List.find?_isSome]
  refine ⟨0x30, by decide, ?_⟩
  rw [Bool.and_eq_true, decide_eq_true_eq, decide_eq_true_eq]
  exact ⟨hlow, Nat.lt_succ_of_le hhigh⟩

end Text

namespace NodeType

/-- The characters of an expansion, last first: its number ends where the base begins. -/
theorem reverse_expansion (base : String) (i : Nat) :
    (Text.dropFinalFeed (base ++ "-$" ++ Text.Numeral.natText i).toList).reverse =
      (Text.Numeral.digits i).reverse ++ '$' :: '-' :: base.toList.reverse := by
  have hlist : (base ++ "-$" ++ Text.Numeral.natText i).toList =
      base.toList ++ ['-', '$'] ++ Text.Numeral.digits i := by
    simp [Text.Numeral.natText]
  rw [hlist, Text.dropFinalFeed, if_neg]
  · simp
  · intro hlast
    rw [List.getLast?_append_of_ne_nil _ (Text.Numeral.digits_ne_nil i)] at hlast
    exact absurd (Text.Numeral.mem_digits (List.mem_of_getLast? hlast)) (by decide)

/-- The key of an expansion is read back as its base. -/
theorem expansionBase?_expansion {base : String} (hne : base ≠ "") (hfeed : '\n' ∉ base.toList)
    (i : Nat) : expansionBase? (base ++ "-$" ++ Text.Numeral.natText i) = some base := by
  obtain ⟨first, rest, hfirst⟩ := List.exists_cons_of_ne_nil
    (List.reverse_ne_nil_iff.mpr (Text.Numeral.digits_ne_nil i))
  have hdigits : ∀ c ∈ first :: rest, Text.isDigit c = true := by
    intro c hc
    rw [← hfirst, List.mem_reverse] at hc
    exact Text.isDigit_of_isAsciiDigit (Text.Numeral.mem_digits hc)
  have hdollar : ¬ Text.isDigit '$' = true := by decide
  unfold expansionBase?
  simp only [reverse_expansion, hfirst, List.takeWhile_append_of_pos hdigits,
    List.dropWhile_append_of_pos hdigits, List.takeWhile_cons_of_neg hdollar,
    List.dropWhile_cons_of_neg hdollar, List.append_nil]
  rw [if_neg (by simp [hne, hfeed]), List.reverse_reverse, String.ofList_toList]

/-! ## Inputs at an arity -/

/-- The key is an expansion of a variadic input, with a number below the arity. -/
def Expands (t : NodeType) (arity : Int) (key : String) : Prop :=
  ∃ base pin, ∃ i : Nat, (base, pin) ∈ t.pins ∧ pin.direction = .input ∧ pin.variadic = true ∧
    0 < i ∧ (i : Int) < arity ∧ key = base ++ "-$" ++ Text.Numeral.natText i

/-- The key is declared, or an expansion with a number below the arity. -/
def Exposes (t : NodeType) (arity : Int) (key : String) : Prop :=
  key ∈ t.pins.map Prod.fst ∨ t.Expands arity key

/-- The key is that of a declared input, or an expansion with a number below the arity. -/
def HasInput (t : NodeType) (arity : Int) (key : String) : Prop :=
  (∃ pin, (key, pin) ∈ t.pins ∧ pin.direction = .input) ∨ t.Expands arity key

/-- A type whose inputs go by the keys that they are declared under, at an arity: none has another
key, expansions can be read back, and no output is declared under one. -/
structure Regular (t : NodeType) (arity : Int) : Prop where
  keys_nodup : (t.pins.map Prod.fst).Nodup
  key_eq : ∀ key pin, (key, pin) ∈ t.pins → pin.direction = .input → pin.key = .str key
  legible : 1 < arity → ∀ key pin, (key, pin) ∈ t.pins → pin.direction = .input →
    pin.variadic = true → key ≠ "" ∧ '\n' ∉ key.toList
  direction_eq : ∀ key pin, (key, pin) ∈ t.pins → t.Expands arity key → pin.direction = .input

variable {t : NodeType} {arity : Int} {key : String} {pin : Pin}

theorem pin?_of_mem (hn : (t.pins.map Prod.fst).Nodup) (h : (key, pin) ∈ t.pins) :
    t.pin? key = some pin := by
  unfold pin?
  rw [(Keyed.lookup_eq_some_iff hn).mpr h]

namespace Regular

/-- An expansion below the arity leads to an input. -/
theorem exists_pin?_of_expands (h : t.Regular arity) (hexpands : t.Expands arity key) :
    ∃ pin, t.pin? key = some pin ∧ pin.direction = .input := by
  cases hlookup : t.pins.lookup key with
  | some pin =>
    have hmem := Keyed.mem_of_lookup hlookup
    exact ⟨pin, pin?_of_mem h.keys_nodup hmem, h.direction_eq key pin hmem hexpands⟩
  | none =>
    obtain ⟨base, pin, i, hmem, hinput, hvariadic, hpos, hlt, rfl⟩ := hexpands
    obtain ⟨hne, hfeed⟩ := h.legible (by omega) base pin hmem hinput hvariadic
    refine ⟨pin, ?_, hinput⟩
    unfold pin?
    rw [hlookup, expansionBase?_expansion hne hfeed, Option.bind_some,
      (Keyed.lookup_eq_some_iff h.keys_nodup).mpr hmem]
    exact if_pos hvariadic

/-- Among the keys that a node exposes, the lookup takes for inputs those that are. -/
theorem direction_iff (h : t.Regular arity) :
    (t.pin? key).map Pin.direction = some .input ∧ t.Exposes arity key ↔
      t.HasInput arity key := by
  constructor
  · rintro ⟨hdirection, hmem | hexpands⟩
    · obtain ⟨member, hmember, rfl⟩ := List.mem_map.mp hmem
      rw [pin?_of_mem h.keys_nodup hmember] at hdirection
      exact .inl ⟨member.2, hmember, Option.some.inj hdirection⟩
    · exact .inr hexpands
  · rintro (⟨pin, hmem, hinput⟩ | hexpands)
    · rw [pin?_of_mem h.keys_nodup hmem]
      exact ⟨congrArg some hinput, .inl (List.mem_map_of_mem hmem)⟩
    · obtain ⟨pin, hpin, hinput⟩ := h.exists_pin?_of_expands hexpands
      rw [hpin]
      exact ⟨congrArg some hinput, .inr hexpands⟩

end Regular

end NodeType

/-- Where a type that is no terminal is declared, its pins are those of the declaration. -/
theorem Primitive.direction?_of_entry {p : Primitive} {entry : NodeType}
    (hplain : p.isTerminal = false) (hentry : p.entry = some entry) (key : String) :
    p.direction? key = (entry.pin? key).map Pin.direction := by
  have hnone : p.terminal = none := by
    simpa [Primitive.isTerminal] using hplain
  simp [Primitive.direction?, Primitive.pin?, Primitive.terminalPin?, hentry, hnone]

end Patchbay
