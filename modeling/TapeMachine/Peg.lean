/-!
# Parsing expression grammars

A grammar is a value: expressions describe texts, each with the type of what it reads from them.
Choices are ordered and repetition is greedy; neither is reconsidered later. `Peg.run?` reads from a
cursor, `Peg.pieces` lists the constructs that were found, and `Peg.attempts` keeps account of those
that were looked for in vain, so that a failure can be reported where the reading came furthest.
-/

namespace TapeMachine

/-- A position in a text with what follows it. -/
structure Cursor where
  offset : Nat
  rest : List Char
  deriving DecidableEq

def Cursor.atStart (text : List Char) : Cursor := ⟨0, text⟩

/-- A value with the part of the text that it was read from. -/
structure Located (α : Type) where
  start : Nat
  stop : Nat
  value : α
  deriving DecidableEq

/-- A construct that was found, with the part of the text that it was read from and the constructs
that were found inside of it. -/
structure Piece (ν : Type) where
  name : ν
  start : Nat
  stop : Nat
  inner : List (Piece ν)

/-- The part of a text that a construct was read from. -/
def Piece.chars {ν : Type} (text : List Char) (p : Piece ν) : List Char :=
  (text.drop p.start).take (p.stop - p.start)

/-- A grammar expression whose constructs have names in `ν`, and which reads a value of the given
type. -/
inductive Peg (ν : Type) : Type → Type 1 where
  | done : Peg ν Unit
  | endOfText : Peg ν Unit
  | char (ok : Char → Bool) : Peg ν Char
  | span (ok : Char → Bool) : Peg ν (List Char)
  | literal (text : List Char) : Peg ν Unit
  | both {α β : Type} (first : Peg ν α) (second : Peg ν β) : Peg ν (α × β)
  | either {α : Type} (first second : Peg ν α) : Peg ν α
  | star {α : Type} (body : Peg ν α) : Peg ν (List α)
  | map {α β : Type} (f : α → β) (body : Peg ν α) : Peg ν β
  | located {α : Type} (body : Peg ν α) : Peg ν (Located α)
  | named {α : Type} (name : ν) (body : Peg ν α) : Peg ν α

/-- What was looked for in vain at the furthest position where that happened. -/
structure Attempts (ν : Type) where
  position : Nat
  names : List ν

namespace Attempts

variable {ν : Type}

/-- The number of constructs that were looked for at a position. -/
def countAt (a : Attempts ν) (position : Nat) : Nat :=
  if position = a.position then a.names.length else 0

/-- Notes that a construct was not found at a position. `before` is the number of constructs that
had been looked for there when the search for this one began. If the search left exactly one more
behind, that one says more than the construct and is kept; otherwise the construct stands for all of
them. Positions behind the furthest one do not count. -/
def miss (a : Attempts ν) (name : ν) (position before : Nat) : Attempts ν :=
  if a.countAt position = before + 1 then a
  else if position = a.position then
    { a with names := name :: a.names.drop (a.names.length - before) }
  else if a.position < position then { position, names := [name] }
  else a

end Attempts

namespace Peg

variable {ν : Type}

/-- The rest of a text after the given characters, if it starts with them. -/
def dropLiteral? : List Char → List Char → Option (List Char)
  | [], rest => some rest
  | _ :: _, [] => none
  | c :: cs, d :: rest => if c = d then dropLiteral? cs rest else none

/-- Reads as often as a reader succeeds, at most once for each character of the third argument,
and puts the values in front of those that were read before. -/
def repeatRead {α : Type} (read : Cursor → Option (α × Cursor)) :
    List α → Cursor → List Char → List α × Cursor
  | values, c, [] => (values.reverse, c)
  | values, c, _ :: bound =>
    match read c with
    | none => (values.reverse, c)
    | some (value, c) => repeatRead read (value :: values) c bound

/-- Reads an expression at a cursor: its value and the cursor after its text. -/
def run? : {α : Type} → Peg ν α → Cursor → Option (α × Cursor)
  | _, done, c => some ((), c)
  | _, endOfText, c => if c.rest.isEmpty then some ((), c) else none
  | _, char ok, c =>
    match c.rest with
    | [] => none
    | x :: rest => if ok x then some (x, ⟨c.offset + 1, rest⟩) else none
  | _, span ok, c =>
    let taken := c.rest.takeWhile ok
    some (taken, ⟨c.offset + taken.length, c.rest.dropWhile ok⟩)
  | _, literal text, c =>
    (dropLiteral? text c.rest).map fun rest => ((), ⟨c.offset + text.length, rest⟩)
  | _, both first second, c =>
    (first.run? c).bind fun (a, c) => (second.run? c).map fun (b, c) => ((a, b), c)
  | _, either first second, c => first.run? c <|> second.run? c
  | _, star body, c => some (repeatRead body.run? [] c c.rest)
  | _, map f body, c => (body.run? c).map fun (a, c) => (f a, c)
  | _, located body, c => (body.run? c).map fun (a, d) => (⟨c.offset, d.offset, a⟩, d)
  | _, named _ body, c => body.run? c

/-- The constructs of all rounds of a repetition. -/
def repeatPieces {α : Type} (read : Cursor → Option (α × Cursor))
    (pieces : Cursor → List (Piece ν)) : Cursor → List Char → List (Piece ν)
  | _, [] => []
  | c, _ :: bound =>
    match read c with
    | none => []
    | some (_, d) => pieces c ++ repeatPieces read pieces d bound

/-- The constructs that reading an expression at a cursor finds, in order. There are none where
nothing can be read. -/
def pieces : {α : Type} → Peg ν α → Cursor → List (Piece ν)
  | _, both first second, c =>
    match first.run? c with
    | none => []
    | some (_, d) => first.pieces c ++ second.pieces d
  | _, either first second, c =>
    match first.run? c with
    | none => second.pieces c
    | some _ => first.pieces c
  | _, star body, c => repeatPieces body.run? body.pieces c c.rest
  | _, map _ body, c => body.pieces c
  | _, located body, c => body.pieces c
  | _, named name body, c =>
    match body.run? c with
    | none => []
    | some (_, d) => [{ name, start := c.offset, stop := d.offset, inner := body.pieces c }]
  | _, _, _ => []

/-- Takes account of every round of a repetition, the failing one included. -/
def repeatAttempts {α : Type} (read : Cursor → Option (α × Cursor))
    (note : Cursor → Attempts ν → Attempts ν) : Cursor → Attempts ν → List Char → Attempts ν
  | c, a, [] => note c a
  | c, a, _ :: bound =>
    match read c with
    | none => note c a
    | some (_, d) => repeatAttempts read note d (note c a) bound

/-- Takes account of what reading an expression at a cursor looks for in vain. -/
def attempts : {α : Type} → Peg ν α → Cursor → Attempts ν → Attempts ν
  | _, both first second, c, a =>
    match first.run? c with
    | none => first.attempts c a
    | some (_, d) => second.attempts d (first.attempts c a)
  | _, either first second, c, a =>
    match first.run? c with
    | none => second.attempts c (first.attempts c a)
    | some _ => first.attempts c a
  | _, star body, c, a => repeatAttempts body.run? body.attempts c a c.rest
  | _, map _ body, c, a => body.attempts c a
  | _, located body, c, a => body.attempts c a
  | _, named name body, c, a =>
    match body.run? c with
    | some _ => body.attempts c a
    | none => (body.attempts c a).miss name c.offset (a.countAt c.offset)
  | _, _, _, a => a

/-- One expression and then another, of which only the second has a value that matters. -/
def skipTo {α β : Type} (first : Peg ν α) (second : Peg ν β) : Peg ν β :=
  map Prod.snd (both first second)

/-- One expression and then another, of which only the first has a value that matters. -/
def endBy {α β : Type} (first : Peg ν α) (second : Peg ν β) : Peg ν α :=
  map Prod.fst (both first second)

def optional {α : Type} (body : Peg ν α) : Peg ν (Option α) :=
  either (map some body) (map (fun _ => none) done)

/-- An expression as often as it succeeds, with filler between the rounds. -/
def starWith {α : Type} (filler : Peg ν Unit) (body : Peg ν α) : Peg ν (List α) :=
  either
    (map (fun (x, xs) => x :: xs) (both body (star (skipTo filler body))))
    (map (fun _ => []) done)

/-- An expression once and then as often as it succeeds, with filler between the rounds. -/
def plusWith {α : Type} (filler : Peg ν Unit) (body : Peg ν α) : Peg ν (List α) :=
  map (fun (x, xs) => x :: xs) (both body (skipTo filler (starWith filler body)))

end Peg

end TapeMachine
