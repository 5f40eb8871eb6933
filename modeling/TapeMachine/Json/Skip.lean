import TapeMachine.Json.Reader

/-!
# Skipping values

The value of a field that nobody asks for is passed over without being built. Only its shape is
checked: numbers may be of any size and hexadecimal escapes need not pair up. The brackets that are
open are kept in a list, so that values may be nested to any depth.
-/

namespace TapeMachine.Json.Reader

inductive Bracket where
  | list
  | object
  deriving DecidableEq

def Bracket.closing : Bracket → Char
  | list => ']'
  | object => '\x7d'

def Bracket.unfinished : Bracket → Problem
  | list => .endInList
  | object => .endInObject

/-- The problem of something that stands where a comma or the closing bracket should. -/
def Bracket.expectedCommaOrEnd : Bracket → Problem
  | list => .expectedListCommaOrEnd
  | object => .expectedObjectCommaOrEnd

/-- Passes over a text behind its opening quote, in as many steps as the first argument has
characters. -/
def skipTextBody : List Char → Reader → Except Fault Reader
  | [], r => r.faultHere .endInText
  | _ :: bound, r =>
    match r.rest with
    | [] => r.faultHere .endInText
    | c :: _ =>
      if c = '"' then .ok r.advance
      else if c = '\\' then
        let r := r.advance
        match r.rest with
        | [] => r.faultHere .endInText
        | e :: _ =>
          if e = 'u' then
            match r.advance.scanHexUnit with
            | .error fault => .error fault
            | .ok (_, r) => skipTextBody bound r
          else if (simpleEscape? e).isSome then skipTextBody bound r.advance
          else r.faultAhead .invalidEscape
      else if c.toNat < 0x20 then r.faultHere .controlCharacter
      else skipTextBody bound r.advance

def skipText (r : Reader) : Except Fault Reader := skipTextBody r.rest r

def skipDigits (r : Reader) : Reader := advanceWhile Char.isDigit r.rest r.place

def skipExponent (r : Reader) : Except Fault Reader :=
  let (_, r) := r.advance.scanSign
  match r.rest with
  | [] => r.faultHere .invalidNumber
  | c :: _ => if c.isDigit then .ok r.skipDigits else r.faultAhead .invalidNumber

def skipOptionalExponent (r : Reader) : Except Fault Reader :=
  match r.rest with
  | 'e' :: _ | 'E' :: _ => r.skipExponent
  | _ => .ok r

/-- Passes over the fraction and the exponent of a number, as far as it has them. -/
def skipAfterDigits (r : Reader) : Except Fault Reader :=
  match r.rest with
  | '.' :: _ =>
    let r := r.advance
    match r.rest with
    | [] => r.faultAhead .invalidNumber
    | c :: _ =>
      if c.isDigit then r.skipDigits.skipOptionalExponent else r.faultAhead .invalidNumber
  | _ => r.skipOptionalExponent

def skipUnsigned (r : Reader) : Except Fault Reader :=
  match r.rest with
  | [] => r.faultHere .invalidNumber
  | '0' :: _ =>
    let r := r.advance
    match r.rest with
    | [] => .ok r
    | c :: _ => if c.isDigit then r.faultAhead .invalidNumber else r.skipAfterDigits
  | c :: _ => if c.isDigit then r.skipDigits.skipAfterDigits else r.faultAhead .invalidNumber

/-- Passes over a value that has no parts, or over an opening bracket, which is answered. -/
def skipHead (r : Reader) : Except Fault (Option Bracket × Reader) :=
  match r.rest with
  | [] => r.faultAhead .endInValue
  | c :: _ =>
    if c = 'n' then (scanWord ['u', 'l', 'l'] r.advance).map (none, ·)
    else if c = 't' then (scanWord ['r', 'u', 'e'] r.advance).map (none, ·)
    else if c = 'f' then (scanWord ['a', 'l', 's', 'e'] r.advance).map (none, ·)
    else if c = '-' then r.advance.skipUnsigned.map (none, ·)
    else if c.isDigit then r.skipUnsigned.map (none, ·)
    else if c = '"' then r.advance.skipText.map (none, ·)
    else if c = '[' then .ok (some .list, r.advance)
    else if c = '\x7b' then .ok (some .object, r.advance)
    else r.faultAhead .expectedValue

def scanColon (r : Reader) : Except Fault Reader :=
  let r := r.skipSpace
  match r.rest with
  | [] => r.faultAhead .endInObject
  | c :: _ => if c = ':' then .ok r.advance else r.faultAhead .expectedColon

/-- Passes over what stands in front of a value inside brackets: a key and its colon, if the
brackets are those of an object. -/
def skipKey (bracket : Bracket) (r : Reader) : Except Fault Reader :=
  match bracket with
  | .list => .ok r
  | .object =>
    let r := r.skipSpace
    match r.rest with
    | [] => r.faultAhead .endInObject
    | c :: _ =>
      if c = '"' then
        match r.advance.skipText with
        | .error fault => .error fault
        | .ok r => r.scanColon
      else r.faultAhead .keyNotText

/-- Passes over what follows inside brackets that are open, the innermost first, in as many steps as
the first argument has characters. `fresh` tells that the innermost has just been opened, so that
no comma is due. -/
def skipInside : List Char → Bracket → List Bracket → Bool → Reader → Except Fault Reader
  | [], bracket, _, _, r => r.faultAhead bracket.unfinished
  | _ :: bound, bracket, outer, fresh, r =>
    let r := r.skipSpace
    match r.rest with
    | [] => r.faultAhead bracket.unfinished
    | c :: _ =>
      if c = bracket.closing then
        match outer with
        | [] => .ok r.advance
        | next :: outer => skipInside bound next outer false r.advance
      else if !fresh && c != ',' then r.faultAhead bracket.expectedCommaOrEnd
      else
        match skipKey bracket (if fresh then r else r.advance) with
        | .error fault => .error fault
        | .ok r =>
          match r.skipSpace.skipHead with
          | .error fault => .error fault
          | .ok (none, r) => skipInside bound bracket outer false r
          | .ok (some inner, r) => skipInside bound inner (bracket :: outer) true r

def skipValue (r : Reader) : Except Fault Reader :=
  match r.skipSpace.skipHead with
  | .error fault => .error fault
  | .ok (none, r) => .ok r
  | .ok (some bracket, r) => skipInside r.rest bracket [] true r

end TapeMachine.Json.Reader
