/-! Characters and the texts made of them: digits in bases up to sixteen and the number that a run
of them stands for, white space in the sense of Unicode, and texts inside other texts, where
`occursIn p s` says that `s` is some text, then `p`, then some more text. -/
namespace QualityGate.Text

/-! ### Digits -/

def isDigit (c : Char) : Bool := '0'.toNat ≤ c.toNat && c.toNat ≤ '9'.toNat

/-- The value of a hexadecimal digit in either case. -/
def hexValue? (c : Char) : Option Nat :=
  if isDigit c then some (c.toNat - '0'.toNat)
  else if 'a'.toNat ≤ c.toNat && c.toNat ≤ 'f'.toNat then some (c.toNat - 'a'.toNat + 10)
  else if 'A'.toNat ≤ c.toNat && c.toNat ≤ 'F'.toNat then some (c.toNat - 'A'.toNat + 10)
  else none

/-- Whether a character is a digit below a base of at most sixteen. -/
def isDigitBelow (base : Nat) (c : Char) : Bool := (hexValue? c).any (· < base)

/-- The number that digits stand for in a base. -/
def numeral (base : Nat) (digits : List Char) : Nat :=
  digits.foldl (fun n c => n * base + (hexValue? c).getD 0) 0

/-- Whether a number fits into 64 bits with a sign. -/
def fitsSigned (n : Int) : Bool := Int64.minValue.toInt ≤ n && n ≤ Int64.maxValue.toInt

/-- Whether a number fits into 64 bits without a sign. -/
def fitsUnsigned (n : Nat) : Bool := n < UInt64.size

/-- The character of a code point, unless the code point is no character. -/
def charOfCode? (n : Nat) : Option Char :=
  if n.isValidChar then some (Char.ofNat n) else none

/-! ### White space -/

def isWhiteSpace (c : Char) : Bool :=
  let n := c.toNat
  (9 ≤ n && n ≤ 13) || n = 0x20 || n = 0x85 || n = 0xa0 || n = 0x1680
    || (0x2000 ≤ n && n ≤ 0x200a) || n = 0x2028 || n = 0x2029 || n = 0x202f || n = 0x205f
    || n = 0x3000

/-- A text without white space at its ends. -/
def trim (cs : List Char) : List Char :=
  ((cs.dropWhile isWhiteSpace).reverse.dropWhile isWhiteSpace).reverse

/-! ### Occurrence -/

/-- Whether the first text stands somewhere inside the second one. -/
def occursIn (p : List Char) : List Char → Bool
  | [] => p.isEmpty
  | c :: cs => p.isPrefixOf (c :: cs) || occursIn p cs

/-- Whether one string stands somewhere inside another. -/
def contains (s p : String) : Bool := occursIn p.toList s.toList

theorem occursIn_iff {p s : List Char} : occursIn p s = true ↔ ∃ a b, s = a ++ p ++ b := by
  induction s with
  | nil => simp [occursIn]
  | cons c cs ih =>
    simp only [occursIn, Bool.or_eq_true, List.isPrefixOf_iff_prefix, ih]
    constructor
    · rintro (⟨b, hb⟩ | ⟨a, b, h⟩)
      · exact ⟨[], b, by simp [hb]⟩
      · exact ⟨c :: a, b, by simp [h]⟩
    · rintro ⟨a, b, h⟩
      cases a with
      | nil => exact .inl ⟨b, by simpa using h.symm⟩
      | cons x a =>
        simp only [List.cons_append, List.cons.injEq] at h
        exact .inr ⟨a, b, h.2⟩

theorem occursIn_iff_isInfix {p s : List Char} : occursIn p s = true ↔ p <:+: s := by
  rw [occursIn_iff]
  constructor
  · rintro ⟨a, b, h⟩
    exact ⟨a, b, h.symm⟩
  · rintro ⟨a, b, h⟩
    exact ⟨a, b, h.symm⟩

end QualityGate.Text
