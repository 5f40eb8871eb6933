/-!
# The shortest decimal of a binary fraction

A floating-point number stands for all reals that round to it. Its shortest decimal has the fewest
digits of all decimals among them, and is the nearest of those to the number; a tie goes to the even
last digit.
-/

namespace TapeMachine.Decimal

/-- A positive binary fraction `mantissa · 2 ^ exponent`. -/
structure Binary where
  mantissa : Nat
  exponent : Int
  /-- Whether the next smaller number is only half as far away as the next larger one. -/
  atPowerOfTwo : Bool

/-- A decimal `digits · 10 ^ exponent`. -/
structure Scientific where
  digits : Nat
  exponent : Int
  deriving DecidableEq

def Binary.ofFloat (f : Float) : Binary :=
  let bits := f.toBits.toNat
  let fraction : Nat := bits % Nat.pow 2 52
  let field : Nat := bits / Nat.pow 2 52 % Nat.pow 2 11
  if field = 0 then { mantissa := fraction, exponent := -1074, atPowerOfTwo := false }
  else
    { mantissa := Nat.pow 2 52 + fraction
      exponent := (field : Int) - 1075
      atPowerOfTwo := fraction = 0 && 1 < field }

/-- A fraction as numerator and denominator: `units` quarters of the last place. -/
def Binary.quarters (b : Binary) (units : Nat) : Nat × Nat :=
  if 0 ≤ b.exponent then (units * Nat.pow 2 b.exponent.toNat, 4)
  else (units, 4 * Nat.pow 2 (-b.exponent).toNat)

def Scientific.compare (s : Scientific) (fraction : Nat × Nat) : Ordering :=
  if 0 ≤ s.exponent then
    Ord.compare (s.digits * Nat.pow 10 s.exponent.toNat * fraction.2) fraction.1
  else Ord.compare (s.digits * fraction.2) (fraction.1 * Nat.pow 10 (-s.exponent).toNat)

/-- Whether a decimal rounds to a binary fraction; a decimal halfway between two goes to the one
with the even mantissa. -/
def Binary.rounds (b : Binary) (s : Scientific) : Bool :=
  let low := s.compare (b.quarters (4 * b.mantissa - (if b.atPowerOfTwo then 1 else 2)))
  let high := s.compare (b.quarters (4 * b.mantissa + 2))
  if b.mantissa % 2 = 0 then low.isGE && high.isLE else low.isGT && high.isLT

/-- The greatest decimal with the given exponent that is not above a fraction. -/
def below (fraction : Nat × Nat) (exponent : Int) : Scientific :=
  { digits :=
      if 0 ≤ exponent then fraction.1 / (fraction.2 * Nat.pow 10 exponent.toNat)
      else fraction.1 * Nat.pow 10 (-exponent).toNat / fraction.2
    exponent }

/-- Whether the first of two neighbouring decimals is nearer to a fraction between them than the
second. Of two that are equally near, the one with the even last digit is taken. -/
def nearer (fraction : Nat × Nat) (low high : Scientific) : Bool :=
  match (Scientific.mk (low.digits + high.digits) low.exponent).compare
      (2 * fraction.1, fraction.2) with
  | .gt => true
  | .eq => low.digits % 2 = 0
  | .lt => false

/-- The decimal with the given exponent that rounds to a binary fraction, if there is one. -/
def Binary.onGrid? (b : Binary) (exponent : Int) : Option Scientific :=
  let value := b.quarters (4 * b.mantissa)
  let low := below value exponent
  let high : Scientific := { low with digits := low.digits + 1 }
  match b.rounds low, b.rounds high with
  | true, true => some (if nearer value low high then low else high)
  | true, false => some low
  | false, true => some high
  | false, false => none

/-- The first decimal that rounds to a binary fraction, on ever finer grids. -/
def Binary.search (b : Binary) : Nat → Int → Scientific
  | 0, exponent => below (b.quarters (4 * b.mantissa)) exponent
  | grids + 1, exponent => (b.onGrid? exponent).getD (b.search grids (exponent - 1))

/-- The exponent of ten of the leading digit of a fraction that is not zero. -/
def leadingExponent (fraction : Nat × Nat) : Int :=
  if fraction.2 ≤ fraction.1 then (Nat.toDigits 10 (fraction.1 / fraction.2)).length - 1
  else
    -- the quotient is at least one, and its last digit counts for ten to the power of minus 400
    ((Nat.toDigits 10 (fraction.1 * Nat.pow 10 400 / fraction.2)).length : Int) - 401

/-- The shortest decimal of a binary fraction that is not zero. Seventeen digits always suffice. -/
def Binary.shortest (b : Binary) : Scientific :=
  b.search 17 (leadingExponent (b.quarters (4 * b.mantissa)))

/-- The digits of a decimal without the zeros at their end, and the exponent of the first digit. -/
def Scientific.normal (s : Scientific) : List Char × Int :=
  let digits := Nat.toDigits 10 s.digits
  ((digits.reverse.dropWhile (· == '0')).reverse, s.exponent + digits.length - 1)

/-- The text of a number with the given digits, where the first counts for the given power of ten:
positional from `0.00001` up to sixteen digits before the point, with an exponent beyond. -/
def positionalOrExponent (digits : List Char) (leading : Int) : List Char :=
  if 0 ≤ leading && leading ≤ 15 then
    let whole := leading.toNat + 1
    if digits.length ≤ whole then
      digits ++ List.replicate (whole - digits.length) '0' ++ ['.', '0']
    else digits.take whole ++ '.' :: digits.drop whole
  else if -5 ≤ leading && leading < 0 then
    ['0', '.'] ++ List.replicate ((-leading).toNat - 1) '0' ++ digits
  else
    let mantissa := match digits with
      | first :: second :: rest => first :: '.' :: second :: rest
      | short => short
    let sign := if leading < 0 then '-' else '+'
    mantissa ++ 'e' :: sign :: Nat.toDigits 10 leading.natAbs

def floatText (f : Float) : String :=
  let sign := if f.toBits.toNat / Nat.pow 2 63 = 1 then ['-'] else []
  let b := Binary.ofFloat f
  if b.mantissa = 0 then String.ofList (sign ++ ['0', '.', '0'])
  else
    let (digits, leading) := b.shortest.normal
    String.ofList (sign ++ positionalOrExponent digits leading)

end TapeMachine.Decimal
