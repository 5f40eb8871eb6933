import TapeMachine.Configuration

/-!
# Positions in words of 64 bits

Positions are unbounded, but they may be kept in words of 64 bits with a sign. Here the operations
on tapes and configurations compute one position after the other in such words. A number that does
not fit either stops the operation, which then gives nothing, or is wrapped around: it is reduced to
a word modulo `2 ^ 64`.
-/

namespace TapeMachine

/-- The number fits into a word, which then stands for it. -/
def IsWord (x : Int) : Prop := (Int64.ofInt x).toInt = x

instance (x : Int) : Decidable (IsWord x) := inferInstanceAs (Decidable (_ = _))

/-- The word that stands for a number modulo `2 ^ 64`. -/
def wrap (x : Int) : Int := (Int64.ofInt x).toInt

/-- What is done where a number does not fit into a word. -/
inductive Overflow where
  | stops
  | wraps
  deriving DecidableEq

/-- The word that is computed for a number. -/
def Overflow.word? : Overflow → Int → Option Int
  | .stops, x => if IsWord x then some x else none
  | .wraps, x => some (wrap x)

namespace Tape

def readWord? (t : Tape) (position : Int) : Option Symbol :=
  if IsWord (position - t.offset) then some (t.read position) else none

/-- Stores blanks in front of the stored cells, one at a time, until they begin at a position. -/
def growFrontWord? (t : Tape) (position : Int) : Option Tape :=
  if position < t.offset then
    if IsWord (t.offset - 1) then
      growFrontWord? { t with offset := t.offset - 1, cells := #[t.blank] ++ t.cells } position
    else none
  else some t
termination_by (t.offset - position).toNat

/-- Grows the storage and replaces the symbol of the cell at a position. The index of the cell is
computed, and the number of cells that are needed for it. -/
def writeWord? (t : Tape) (position : Int) (symbol : Symbol) : Option Tape :=
  ((t.anchor position).growFrontWord? position).bind fun t =>
    if IsWord (position - t.offset) ∧ IsWord (position - t.offset + 1) then
      (t.growBack position).overwrite? position symbol
    else none

def spanWord? (t : Tape) : Option (Int × List Symbol) :=
  let kept := t.cells.popWhile (· == t.blank)
  if kept.isEmpty then some (0, [])
  else
    let leading := (kept.takeWhile (· == t.blank)).size
    if IsWord leading ∧ IsWord (t.offset + leading) then
      some (t.offset + leading, kept.toList.drop leading)
    else none

/-- The symbol of the cell whose index is a wrapped distance: a distance that has become negative is
taken for one to the front. -/
def readWrapped (t : Tape) (position : Int) : Symbol :=
  let index := wrap (position - t.offset)
  if index < 0 then t.blank else (t.cells[index.toNat]?).getD t.blank

def spanWrapped (t : Tape) : Int × List Symbol :=
  let kept := t.cells.popWhile (· == t.blank)
  if kept.isEmpty then (0, [])
  else
    let leading := (kept.takeWhile (· == t.blank)).size
    (wrap (t.offset + wrap leading), kept.toList.drop leading)

/-- A write whose tape can be stored: its cells are counted in a word. Nothing is wrapped here. The
storage grows to the position one cell at a time, from one word to the next, and a distance from its
first cell that is not a word would take more cells than can be counted. -/
def storeWord? (t : Tape) (position : Int) (symbol : Symbol) : Option Tape :=
  (t.writeWord? position symbol).filter fun t => IsWord t.cells.size

variable (o : Overflow)

def readBy? (t : Tape) (position : Int) : Option Symbol :=
  match o with
  | .stops => t.readWord? position
  | .wraps => some (t.readWrapped position)

def spanBy? (t : Tape) : Option (Int × List Symbol) :=
  match o with
  | .stops => t.spanWord?
  | .wraps => some t.spanWrapped

def contentsBy? (t : Tape) : Option String := (t.spanBy? o).map fun block => String.ofList block.2

/-- Whether tapes are the same: first the blanks are compared, then the spans. -/
def equalBy? (s t : Tape) : Option Bool :=
  if s.blank = t.blank then
    (s.spanBy? o).bind fun a => (t.spanBy? o).map fun b => decide (a = b)
  else some false

/-- The positions from the first to the last one of a window, both of them computed in words, with
what is read there. -/
def windowBy? (t : Tape) (position : Int) (radius : Nat) : Option (List (Int × Symbol)) := do
  let first ← o.word? (position - wrap radius)
  let last ← o.word? (position + wrap radius)
  (List.range (last - first + 1).toNat).mapM fun i : Nat =>
    (t.readBy? o (first + i)).map fun symbol => (first + (i : Int), symbol)

end Tape

def Configuration.applyWord? (c : Configuration) (a : Action) : Option Configuration :=
  (c.tape.writeWord? c.head a.write).bind fun tape =>
    if IsWord (c.head + a.direction.offset) then
      some { state := a.nextState, tape, head := c.head + a.direction.offset }
    else none

namespace Configuration

variable (o : Overflow)

def applyBy? (c : Configuration) (a : Action) : Option Configuration :=
  (c.tape.storeWord? c.head a.write).bind fun tape =>
    (o.word? (c.head + a.direction.offset)).map fun head => { state := a.nextState, tape, head }

/-- Whether configurations are the same: first the states are compared, then the tapes and then the
heads. -/
def equalBy? (c d : Configuration) : Option Bool :=
  if c.state = d.state then
    (c.tape.equalBy? o d.tape).map fun same => same && decide (c.head = d.head)
  else some false

end Configuration

end TapeMachine
