/-!
# Decimal numerals

Counts are written in decimal and fit in 64 bits.
-/

namespace TapeMachine.Text

def largestCount : Nat := 0xFFFFFFFFFFFFFFFF

def digit? (c : Char) : Option Nat := if c.isDigit then some (c.toNat - '0'.toNat) else none

/-- The number that extends a numeral's value by more digits. -/
def digitsValue? : List Char → Nat → Option Nat
  | [], n => some n
  | c :: rest, n => (digit? c).bind fun d => digitsValue? rest (10 * n + d)

/-- Reads a count: digits, with leading zeros and one plus sign allowed. -/
def readCount? (s : String) : Option Nat :=
  let digits := match s.toList with
    | '+' :: rest => rest
    | cs => cs
  if digits.isEmpty then none
  else (digitsValue? digits 0).filter (· ≤ largestCount)

end TapeMachine.Text
