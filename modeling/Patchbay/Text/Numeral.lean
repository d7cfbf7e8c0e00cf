import Patchbay.Text.Character

/-!
# Numerals

Decimal numerals: `digits` writes a number, `value` reads a row of decimal digits of any script,
and `value_digits` says that reading undoes writing. `integer?` reads the signed numerals of a
setting: blanks around, a sign, and single underscores between digits are allowed. Rows of more than
`limit` digits are refused where documents and settings are read.
-/

namespace Patchbay.Text.Numeral

/-- The ASCII digit of a number below ten. -/
def digitChar (n : Nat) : Char := Char.ofNat (48 + n)

/-- The decimal digits of a number, without leading zeros. -/
def digits (n : Nat) : List Char :=
  if n < 10 then [digitChar n] else digits (n / 10) ++ [digitChar (n % 10)]
termination_by n
decreasing_by omega

/-- The text of a natural number. -/
def natText (n : Nat) : String := String.ofList (digits n)

/-- The text of an integer: a minus sign where it is negative. -/
def intText (n : Int) : String :=
  if n < 0 then String.ofList ('-' :: digits n.natAbs) else natText n.natAbs

/-- The number that a row of decimal digits denotes; a character that is no digit counts zero. -/
def value (cs : List Char) : Nat :=
  cs.foldl (fun acc c => acc * 10 + (digitValue? c).getD 0) 0

/-- One of the ten ASCII digits. -/
def isAsciiDigit (c : Char) : Bool := '0' ≤ c && c ≤ '9'

theorem digitValue?_digitChar {n : Nat} (h : n < 10) : digitValue? (digitChar n) = some n := by
  have : ∀ m : Fin 10, digitValue? (digitChar m) = some m.val := by decide
  exact this ⟨n, h⟩

/-- Reading the digits of a number gives the number. -/
theorem value_digits (n : Nat) : value (digits n) = n := by
  fun_induction digits n with
  | case1 n h => simp [value, digitValue?_digitChar h]
  | case2 n h ih =>
    rw [value] at ih
    rw [value, List.foldl_append, ih]
    simp only [List.foldl_cons, List.foldl_nil,
      digitValue?_digitChar (Nat.mod_lt n (by omega : 0 < 10)), Option.getD_some]
    omega

/-- So many digits, leading zeros among them, are the most that a whole number is read from. -/
def limit : Nat := 4300

/-- A non-empty row of ASCII digits. -/
def isAsciiNumeral (s : String) : Bool := !s.toList.isEmpty && s.toList.all isAsciiDigit

/-- A non-empty row of decimal digits of any script. -/
def isNumeral (cs : List Char) : Bool := !cs.isEmpty && cs.all isDigit

/-! ## Signed numerals of settings -/

/-- A blank that may stand around a signed numeral: every blank but the four separators
U+001C to U+001F. -/
def isPadding (c : Char) : Bool := isBlank c && !(0x1C ≤ c.toNat && c.toNat ≤ 0x1F)

/-- The digits of a row in which single underscores may stand between two digits. -/
def ungroup? : List Char → Option (List Char)
  | [] => none
  | [c] => if isDigit c then some [c] else none
  | c :: '_' :: rest => if isDigit c then (ungroup? rest).map (c :: ·) else none
  | c :: rest => if isDigit c then (ungroup? rest).map (c :: ·) else none

/-- A numeral without the blanks around it: whether it is negative, and what follows the sign. -/
def unsigned (s : String) : Bool × List Char :=
  match ((s.toList.dropWhile isPadding).reverse.dropWhile isPadding).reverse with
  | '-' :: rest => (true, rest)
  | '+' :: rest => (false, rest)
  | rest => (false, rest)

/-- The integer that a signed numeral denotes, if the text is one. -/
def integer? (s : String) : Option Int :=
  let (negative, body) := unsigned s
  (ungroup? body).map fun ds => if negative then -(value ds : Int) else value ds

/-- The digits that a signed numeral starts with, whatever follows them. -/
def leadingDigits (s : String) : List Char :=
  (ungroup? ((unsigned s).2.takeWhile fun c => isDigit c || c = '_')).getD []

end Patchbay.Text.Numeral
