import Mathlib
import Patchbay.Proofs.Keyed
import Patchbay.Text.Character

/-!
# String literals of C++

What the characters between the quotes of a C++ string literal denote: bytes, those of a character
that stands for itself in UTF-8, or those of an escape sequence (`Denotes`). An escape sequence is
longer than what it denotes, so a text that is put between quotes as it is denotes itself just where
it holds no backslash, no quote and no line break (`denotes_self_iff`).
-/

namespace Patchbay.Literal

/-- The bytes of some characters in UTF-8. -/
def bytes (cs : List Char) : List UInt8 := cs.flatMap String.utf8EncodeChar

/-- The characters that stand for another one behind a backslash, with its byte. -/
def simpleEscapes : List (Char × UInt8) :=
  [(Char.ofNat 0x27, 0x27), ('"', 0x22), ('?', 0x3F), ('\\', 0x5C), ('a', 0x07), ('b', 0x08),
    ('f', 0x0C), ('n', 0x0A), ('r', 0x0D), ('t', 0x09), ('v', 0x0B)]

/-- The value of a digit of a base. -/
def digit? (base : Nat) (c : Char) : Option Nat := (Text.hexValue? c).filter (· < base)

/-- The value of a row of digits of a base. -/
def numeral? (base : Nat) (cs : List Char) : Option Nat :=
  cs.foldlM (fun n c => (digit? base c).map (base * n + ·)) 0

/-- The characters start with a digit of the base. -/
def StartsWithDigit (base : Nat) (cs : List Char) : Prop :=
  ∃ c rest, cs = c :: rest ∧ (digit? base c).isSome

/-- A character that stands for itself between quotes. -/
structure IsPlain (c : Char) : Prop where
  not_quote : c ≠ '"'
  not_backslash : c ≠ '\\'
  not_feed : c ≠ '\n'
  not_return : c ≠ '\r'

/-- What the characters between the quotes of a string literal denote. -/
inductive Denotes : List Char → List UInt8 → Prop
  | nil : Denotes [] []
  | plain {c : Char} {cs : List Char} {bs : List UInt8} : IsPlain c → Denotes cs bs →
      Denotes (c :: cs) (String.utf8EncodeChar c ++ bs)
  | simple {c : Char} {b : UInt8} {cs : List Char} {bs : List UInt8} : (c, b) ∈ simpleEscapes →
      Denotes cs bs → Denotes ('\\' :: c :: cs) (b :: bs)
  /-- Up to three octal digits, as many as there are. -/
  | octal {n : Nat} {digits cs : List Char} {bs : List UInt8} : 1 ≤ digits.length →
      digits.length ≤ 3 → numeral? 8 digits = some n → n < 256 →
      (digits.length < 3 → ¬ StartsWithDigit 8 cs) → Denotes cs bs →
      Denotes ('\\' :: (digits ++ cs)) (UInt8.ofNat n :: bs)
  /-- Hexadecimal digits, as many as there are. -/
  | hex {n : Nat} {digits cs : List Char} {bs : List UInt8} : 1 ≤ digits.length →
      numeral? 16 digits = some n → n < 256 → ¬ StartsWithDigit 16 cs → Denotes cs bs →
      Denotes ('\\' :: 'x' :: (digits ++ cs)) (UInt8.ofNat n :: bs)
  /-- The number of a character in four digits. -/
  | short {n : Nat} {digits cs : List Char} {bs : List UInt8} : digits.length = 4 →
      numeral? 16 digits = some n → n.isValidChar → Denotes cs bs →
      Denotes ('\\' :: 'u' :: (digits ++ cs)) (String.utf8EncodeChar (Char.ofNat n) ++ bs)
  /-- The number of a character in eight digits. -/
  | long {n : Nat} {digits cs : List Char} {bs : List UInt8} : digits.length = 8 →
      numeral? 16 digits = some n → n.isValidChar → Denotes cs bs →
      Denotes ('\\' :: 'U' :: (digits ++ cs)) (String.utf8EncodeChar (Char.ofNat n) ++ bs)

/-! ## Lengths -/

theorem length_bytes_cons (c : Char) (cs : List Char) :
    (bytes (c :: cs)).length = c.utf8Size + (bytes cs).length := by
  rw [bytes, List.flatMap_cons, List.length_append, String.length_utf8EncodeChar]
  rfl

theorem length_bytes_append (cs ds : List Char) :
    (bytes (cs ++ ds)).length = (bytes cs).length + (bytes ds).length := by
  rw [bytes, List.flatMap_append, List.length_append]
  rfl

theorem length_le_bytes (cs : List Char) : cs.length ≤ (bytes cs).length := by
  induction cs with
  | nil => exact le_refl 0
  | cons c cs ih =>
    have := c.utf8Size_pos
    rw [length_bytes_cons, List.length_cons]
    omega

/-- An escape sequence is longer than what it denotes. -/
theorem length_lt_of_escape (escape : List Char) {cs : List Char} (out : List UInt8)
    {bs : List UInt8} (hout : out.length ≤ escape.length) (hrest : bs.length ≤ (bytes cs).length) :
    (out ++ bs).length < (bytes ('\\' :: (escape ++ cs))).length := by
  have := ('\\' : Char).utf8Size_pos
  have := length_le_bytes escape
  rw [length_bytes_cons, length_bytes_append, List.length_append]
  omega

/-- A literal denotes no more bytes than it has, and fewer where it has an escape sequence. -/
theorem Denotes.length_le {body : List Char} {bs : List UInt8} (h : Denotes body bs) :
    bs.length ≤ (bytes body).length ∧ ('\\' ∈ body → bs.length < (bytes body).length) := by
  have hshorter : ∀ {n m : Nat} {P : Prop}, n < m → n ≤ m ∧ (P → n < m) :=
    fun h => ⟨h.le, fun _ => h⟩
  have hchar : ∀ n, (String.utf8EncodeChar (Char.ofNat n)).length ≤ 4 := fun n => by
    rw [String.length_utf8EncodeChar]
    exact Char.utf8Size_le_four _
  induction h with
  | nil => exact ⟨le_refl 0, fun hmem => absurd hmem List.not_mem_nil⟩
  | plain hplain _ ih =>
    rw [length_bytes_cons, List.length_append, String.length_utf8EncodeChar]
    refine ⟨Nat.add_le_add_left ih.1 _, fun hmem => ?_⟩
    rcases List.mem_cons.mp hmem with heq | hmem
    · exact absurd heq.symm hplain.not_backslash
    · exact Nat.add_lt_add_left (ih.2 hmem) _
  | @simple c b _ _ _ _ ih => exact hshorter (length_lt_of_escape [c] [b] (le_refl 1) ih.1)
  | @octal n digits _ _ hsome _ _ _ _ _ ih =>
    exact hshorter (length_lt_of_escape digits [UInt8.ofNat n] hsome ih.1)
  | @hex n digits _ _ hsome _ _ _ _ ih =>
    exact hshorter (length_lt_of_escape ('x' :: digits) [UInt8.ofNat n] (by simp) ih.1)
  | @short n digits _ _ hlength _ _ _ ih =>
    refine hshorter (length_lt_of_escape ('u' :: digits) _ ?_ ih.1)
    exact (hchar n).trans (by simp [hlength])
  | @long n digits _ _ hlength _ _ _ ih =>
    refine hshorter (length_lt_of_escape ('U' :: digits) _ ?_ ih.1)
    exact (hchar n).trans (by simp [hlength])

/-! ## Texts between quotes -/

theorem Denotes.isPlain {body : List Char} {bs : List UInt8} (h : Denotes body bs)
    (hbody : '\\' ∉ body) : ∀ c ∈ body, IsPlain c := by
  induction h with
  | nil => exact fun c hc => absurd hc List.not_mem_nil
  | plain hplain _ ih =>
    exact List.forall_mem_cons.mpr ⟨hplain, ih fun hmem => hbody (List.mem_cons_of_mem _ hmem)⟩
  | simple | octal | hex | short | long => exact absurd List.mem_cons_self hbody

theorem denotes_of_isPlain {body : List Char} (h : ∀ c ∈ body, IsPlain c) :
    Denotes body (bytes body) := by
  induction body with
  | nil => exact .nil
  | cons c cs ih =>
    obtain ⟨hc, hcs⟩ := List.forall_mem_cons.mp h
    exact .plain hc (ih hcs)

/-- A text between quotes denotes itself just where all of its characters do. -/
theorem denotes_self_iff (text : List Char) :
    Denotes text (bytes text) ↔ ∀ c ∈ text, IsPlain c := by
  refine ⟨fun h => h.isPlain fun hmem => ?_, denotes_of_isPlain⟩
  exact absurd (h.length_le.2 hmem) (lt_irrefl _)

end Patchbay.Literal
