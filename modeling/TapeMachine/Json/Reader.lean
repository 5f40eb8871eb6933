import TapeMachine.Decimal.Shortest
import TapeMachine.Text.Numeral
import TapeMachine.Text.Quoted

/-!
# Reading the tokens of JSON

A reader is a place in a text with what follows it. Lines count from one and columns count the bytes
of the line before the place. Each scan takes one token off the reader, or says what is wrong and
where.
-/

namespace TapeMachine.Json

structure Place where
  line : Nat
  /-- The bytes of the line before the place. -/
  column : Nat
  deriving DecidableEq

namespace Place

def afterChar (p : Place) (c : Char) : Place :=
  if c = '\n' then ⟨p.line + 1, 0⟩ else ⟨p.line, p.column + c.utf8Size⟩

def afterByte (p : Place) (c : Char) : Place :=
  if c = '\n' then ⟨p.line + 1, 0⟩ else ⟨p.line, p.column + 1⟩

/-- The place behind a number of bytes of a text, or at its end if it has fewer. -/
def afterBytes : Nat → List Char → Place → Place
  | _, [], p => p
  | n, c :: rest, p =>
    if n = 0 then p
    else if n < c.utf8Size then ⟨p.line, p.column + n⟩
    else afterBytes (n - c.utf8Size) rest (p.afterChar c)

end Place

structure Reader where
  rest : List Char
  place : Place
  deriving DecidableEq

inductive Found where
  | null
  | boolean (value : Bool)
  | integer (value : Int)
  /-- A number with a fraction or an exponent, or too large for an integer, by its text. -/
  | real (shown : String)
  | text (value : String)
  | list
  | object
  deriving DecidableEq

def Found.label : Found → String
  | null => "null"
  | boolean value => s!"boolean `{value}`"
  | integer value => s!"integer `{value}`"
  | real shown => s!"floating point `{shown}`"
  | text value => "string " ++ Text.quoted value
  | list => "sequence"
  | object => "map"

inductive Problem where
  | endInValue
  | endInText
  | endInList
  | endInObject
  | expectedColon
  | expectedListCommaOrEnd
  | expectedObjectCommaOrEnd
  | expectedIdent
  | expectedValue
  | invalidEscape
  | invalidNumber
  | numberOutOfRange
  | loneSurrogate
  | brokenSurrogatePair
  | controlCharacter
  | keyNotText
  | trailingComma
  | trailingCharacters
  | invalidType (found : Found) (expected : String)
  | invalidValue (found : Found) (expected : String)
  | invalidLength (length : Nat) (expected : String)
  | unknownVariant (found : String) (variants : List String)
  | duplicateField (name : String)
  | missingField (name : String)
  deriving DecidableEq

/-- Names between backticks, as the choice that was expected. -/
def expectedNames : List String → String
  | [] => "there are no variants"
  | [a] => s!"expected `{a}`"
  | [a, b] => s!"expected `{a}` or `{b}`"
  | names => "expected one of " ++ ", ".intercalate (names.map fun name => s!"`{name}`")

def Problem.message : Problem → String
  | endInValue => "EOF while parsing a value"
  | endInText => "EOF while parsing a string"
  | endInList => "EOF while parsing a list"
  | endInObject => "EOF while parsing an object"
  | expectedColon => "expected `:`"
  | expectedListCommaOrEnd => "expected `,` or `]`"
  | expectedObjectCommaOrEnd => "expected `,` or `\x7d`"
  | expectedIdent => "expected ident"
  | expectedValue => "expected value"
  | invalidEscape => "invalid escape"
  | invalidNumber => "invalid number"
  | numberOutOfRange => "number out of range"
  | loneSurrogate => "lone leading surrogate in hex escape"
  | brokenSurrogatePair => "unexpected end of hex escape"
  | controlCharacter => "control character (\\u0000-\\u001F) found while parsing a string"
  | keyNotText => "key must be a string"
  | trailingComma => "trailing comma"
  | trailingCharacters => "trailing characters"
  | invalidType found expected => s!"invalid type: {found.label}, expected {expected}"
  | invalidValue found expected => s!"invalid value: {found.label}, expected {expected}"
  | invalidLength length expected => s!"invalid length {length}, expected {expected}"
  | unknownVariant found variants => s!"unknown variant `{found}`, {expectedNames variants}"
  | duplicateField name => s!"duplicate field `{name}`"
  | missingField name => s!"missing field `{name}`"

structure Fault where
  problem : Problem
  place : Place
  deriving DecidableEq

def Fault.message (f : Fault) : String :=
  s!"{f.problem.message} at line {f.place.line} column {f.place.column}"

/-- The outcome of reading a value: the value and the reader behind it, or a fault. -/
abbrev Scan (α : Type) := Except Fault (α × Reader)

namespace Reader

def ofString (text : String) : Reader := ⟨text.toList, ⟨1, 0⟩⟩

/-- The place behind the next byte, which is the place itself at the end of the text. -/
def ahead (r : Reader) : Place :=
  match r.rest with
  | [] => r.place
  | c :: _ => r.place.afterByte c

def faultHere {α : Type} (r : Reader) (problem : Problem) : Except Fault α :=
  .error ⟨problem, r.place⟩

def faultAhead {α : Type} (r : Reader) (problem : Problem) : Except Fault α :=
  .error ⟨problem, r.ahead⟩

def advance (r : Reader) : Reader :=
  match r.rest with
  | [] => r
  | c :: rest => ⟨rest, r.place.afterChar c⟩

/-- The characters that may stand between tokens. -/
def isSpace (c : Char) : Bool := c == ' ' || c == '\t' || c == '\n' || c == '\r'

/-- The reader behind the characters of a class that come next. -/
def advanceWhile (ok : Char → Bool) : List Char → Place → Reader
  | [], p => ⟨[], p⟩
  | c :: rest, p => if ok c then advanceWhile ok rest (p.afterChar c) else ⟨c :: rest, p⟩

def skipSpace (r : Reader) : Reader := advanceWhile isSpace r.rest r.place

/-- Takes the rest of a word whose first letter has been taken. -/
def scanWord : List Char → Reader → Except Fault Reader
  | [], r => .ok r
  | c :: cs, r =>
    match r.rest with
    | [] => r.faultHere .endInValue
    | d :: _ => if c = d then scanWord cs r.advance else r.faultAhead .expectedIdent

def hexDigit? (c : Char) : Option Nat :=
  if c.isDigit then some (c.toNat - '0'.toNat)
  else if 'a' ≤ c ∧ c ≤ 'f' then some (c.toNat - 'a'.toNat + 10)
  else if 'A' ≤ c ∧ c ≤ 'F' then some (c.toNat - 'A'.toNat + 10)
  else none

def hexUnit? (a b c d : Char) : Option Nat := do
  let a ← hexDigit? a
  let b ← hexDigit? b
  let c ← hexDigit? c
  let d ← hexDigit? d
  return ((a * 16 + b) * 16 + c) * 16 + d

/-- Takes the four digits of a hexadecimal escape. They are four bytes, whatever those are. -/
def scanHexUnit (r : Reader) : Scan Nat :=
  let size := (r.rest.take 4).foldl (fun size c => size + c.utf8Size) 0
  let last := Place.afterBytes 4 r.rest r.place
  if size < 4 then .error ⟨.endInText, last⟩
  else match r.rest with
    | a :: b :: c :: d :: rest =>
      match hexUnit? a b c d with
      | some unit => .ok (unit, ⟨rest, last⟩)
      | none => .error ⟨.invalidEscape, last⟩
    | _ => .error ⟨.invalidEscape, last⟩

/-- Takes one character that has to come next inside a surrogate pair. -/
def scanPairChar (expected : Char) (r : Reader) : Except Fault Reader :=
  match r.rest with
  | [] => r.faultHere .endInText
  | c :: _ => if c = expected then .ok r.advance else r.faultAhead .brokenSurrogatePair

/-- Takes what follows the letter of a hexadecimal escape. A character beyond the basic plane is
written as a pair of surrogates. -/
def scanUnicode (r : Reader) : Except Fault (Char × Reader) := do
  let (unit, r) ← r.scanHexUnit
  if 0xDC00 ≤ unit ∧ unit ≤ 0xDFFF then r.faultHere .loneSurrogate
  else if unit < 0xD800 ∨ 0xDBFF < unit then return (Char.ofNat unit, r)
  else
    let r ← scanPairChar '\\' r
    let r ← scanPairChar 'u' r
    let (low, r) ← r.scanHexUnit
    if low < 0xDC00 ∨ 0xDFFF < low then r.faultHere .loneSurrogate
    else return (Char.ofNat (0x10000 + (unit - 0xD800) * 0x400 + (low - 0xDC00)), r)

/-- The character that a letter after a backslash stands for. -/
def simpleEscape? : Char → Option Char
  | '"' => some '"'
  | '\\' => some '\\'
  | '/' => some '/'
  | 'b' => some '\x08'
  | 'f' => some '\x0c'
  | 'n' => some '\n'
  | 'r' => some '\r'
  | 't' => some '\t'
  | _ => none

def scanEscape (r : Reader) : Scan Char :=
  match r.rest with
  | [] => r.faultHere .endInText
  | c :: _ =>
    if c = 'u' then r.advance.scanUnicode
    else match simpleEscape? c with
      | some e => .ok (e, r.advance)
      | none => r.faultAhead .invalidEscape

/-- Takes a text behind its opening quote, in as many steps as the first argument has characters.
The second one holds what has been taken, the latest first. -/
def scanTextBody : List Char → List Char → Reader → Scan String
  | [], _, r => r.faultHere .endInText
  | _ :: bound, taken, r =>
    match r.rest with
    | [] => r.faultHere .endInText
    | c :: _ =>
      if c = '"' then .ok (String.ofList taken.reverse, r.advance)
      else if c = '\\' then
        match r.advance.scanEscape with
        | .error fault => .error fault
        | .ok (e, r) => scanTextBody bound (e :: taken) r
      else if c.toNat < 0x20 then r.faultAhead .controlCharacter
      else scanTextBody bound (c :: taken) r.advance

def scanText (r : Reader) : Scan String := scanTextBody r.rest [] r

structure Significand where
  /-- The digits that fit, as a number. -/
  value : Nat := 0
  /-- The number of digits that fit. -/
  kept : Nat := 0
  /-- The number of digits after those. -/
  dropped : Nat := 0

/-- Appends a digit; after the first that does not fit, all are dropped. -/
def Significand.push (s : Significand) (c : Char) : Significand :=
  let value := 10 * s.value + (c.toNat - '0'.toNat)
  if 0 < s.dropped ∨ Text.largestCount < value then { s with dropped := s.dropped + 1 }
  else { s with value, kept := s.kept + 1 }

/-- Takes the digits that come next and appends them to a number. -/
def scanDigits (value : Nat) (r : Reader) : Significand × Reader :=
  ((r.rest.takeWhile Char.isDigit).foldl Significand.push { value },
    advanceWhile Char.isDigit r.rest r.place)

inductive Number where
  | integer (value : Int)
  | real (value : Float)

def powerOfTen (n : Nat) : Float := Float.ofScientific 1 false n

/-- The floating-point number `value · 10 ^ exponent`, unless it is infinite. -/
def scaled? (value : Nat) (exponent : Int) : Option Float :=
  let f := Float.ofNat value
  let n := exponent.natAbs
  if value = 0 then some f
  else if 0 ≤ exponent then
    if n ≤ 308 then
      let g := f * powerOfTen n
      if g.isInf then none else some g
    else none
  else if n ≤ 308 then some (f / powerOfTen n)
  else if n ≤ 616 then some (f / powerOfTen 308 / powerOfTen (n - 308))
  else some 0

def finishReal (positive : Bool) (value : Nat) (exponent : Int) (r : Reader) : Scan Number :=
  match scaled? value exponent with
  | some f => .ok (.real (if positive then f else -f), r)
  | none => r.faultHere .numberOutOfRange

/-- Takes the sign of an exponent; without one the exponent is positive. -/
def scanSign (r : Reader) : Bool × Reader :=
  match r.rest with
  | '+' :: _ => (true, r.advance)
  | '-' :: _ => (false, r.advance)
  | _ => (true, r)

/-- The largest exponent that is looked at, digit by digit. -/
def largestExponent : Nat := 0x7FFFFFFF

/-- Takes the digits of an exponent until it is larger than any that is looked at. Answers whether
that happened. -/
def scanExponentDigits : List Char → Nat → Reader → (Nat × Bool) × Reader
  | [], n, r => ((n, false), r)
  | c :: rest, n, r =>
    if c.isDigit then
      let n' := 10 * n + (c.toNat - '0'.toNat)
      if largestExponent < n' then ((n, true), r.advance)
      else scanExponentDigits rest n' r.advance
    else ((n, false), r)

def scanExponent (positive : Bool) (value : Nat) (exponent : Int) (r : Reader) : Scan Number :=
  let (up, r) := r.advance.scanSign
  match r.rest with
  | [] => r.faultHere .endInValue
  | c :: _ =>
    if c.isDigit then
      let ((n, tooLarge), r) := scanExponentDigits r.rest 0 r
      if tooLarge then
        if value ≠ 0 ∧ up then r.faultHere .numberOutOfRange
        else finishReal positive 0 0 (advanceWhile Char.isDigit r.rest r.place)
      else finishReal positive value (if up then exponent + n else exponent - n) r
    else r.faultAhead .invalidNumber

def scanOptionalExponent (positive : Bool) (value : Nat) (exponent : Int) (r : Reader) :
    Scan Number :=
  match r.rest with
  | 'e' :: _ | 'E' :: _ => scanExponent positive value exponent r
  | _ => finishReal positive value exponent r

def scanFraction (positive : Bool) (value : Nat) (exponent : Int) (r : Reader) : Scan Number :=
  let (s, r) := scanDigits value r.advance
  if s.kept + s.dropped = 0 then
    match r.rest with
    | [] => r.faultAhead .endInValue
    | _ => r.faultAhead .invalidNumber
  else scanOptionalExponent positive s.value (exponent - s.kept) r

/-- Takes what follows the integer digits of a number. An integer is a number without fraction and
exponent that fits into 64 bits; minus zero is none. -/
def scanAfterDigits (positive : Bool) (s : Significand) (r : Reader) : Scan Number :=
  match r.rest with
  | '.' :: _ => scanFraction positive s.value s.dropped r
  | 'e' :: _ | 'E' :: _ => scanExponent positive s.value s.dropped r
  | _ =>
    if 0 < s.dropped then finishReal positive s.value s.dropped r
    else if positive then .ok (.integer s.value, r)
    else if s.value = 0 ∨ 0x8000000000000000 < s.value then finishReal positive s.value 0 r
    else .ok (.integer (-(s.value : Int)), r)

def scanUnsigned (positive : Bool) (r : Reader) : Scan Number :=
  match r.rest with
  | [] => r.faultHere .endInValue
  | '0' :: _ =>
    let r := r.advance
    match r.rest with
    | c :: _ =>
      if c.isDigit then r.faultAhead .invalidNumber
      else scanAfterDigits positive {} r
    | [] => scanAfterDigits positive {} r
  | c :: _ =>
    if c.isDigit then
      let (s, r) := scanDigits 0 r
      scanAfterDigits positive s r
    else r.faultAhead .invalidNumber

def scanNumber (r : Reader) : Scan Number :=
  match r.rest with
  | '-' :: _ => scanUnsigned false r.advance
  | _ => scanUnsigned true r

def Number.found : Number → Found
  | .integer value => .integer value
  | .real value => .real (Decimal.floatText value)

end Reader

end TapeMachine.Json
