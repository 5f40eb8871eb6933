/-!
# Lines and columns

A position in a text is the number of characters before it. Lines end at line feeds only; lines and
columns count from one.
-/

namespace TapeMachine.Text

structure LineColumn where
  line : Nat
  column : Nat
  deriving DecidableEq

/-- The line and column after some characters, from a given line and column on. -/
def LineColumn.after (start : LineColumn) (passed : List Char) : LineColumn :=
  passed.foldl (fun p c => if c = '\n' then ⟨p.line + 1, 1⟩ else ⟨p.line, p.column + 1⟩) start

def lineColumn (text : List Char) (position : Nat) : LineColumn :=
  LineColumn.after ⟨1, 1⟩ (text.take position)

/-- The text from the start of the line that a position is in. -/
def fromLineStart (text : List Char) (position : Nat) : List Char :=
  text.drop (position + 1 - (lineColumn text position).column)

/-- The first line of a text, with its line feed if it has one. -/
def firstLine (text : List Char) : List Char :=
  text.takeWhile (· ≠ '\n') ++ (text.dropWhile (· ≠ '\n')).take 1

/-- The line that a position is in, with its line feed if it has one. -/
def lineAt (text : List Char) (position : Nat) : List Char :=
  firstLine (fromLineStart text position)

def withoutBreaks (line : List Char) : List Char := line.filter fun c => c ≠ '\n' && c ≠ '\r'

/-- A line with visible signs for the characters that end lines. -/
def withVisibleBreaks (line : List Char) : List Char :=
  line.map fun c => if c = '\n' then '␊' else if c = '\r' then '␍' else c

end TapeMachine.Text
