import TapeMachine.Listing.Grammar
import TapeMachine.Text.Place

/-!
# Complaints about listings

A text that is no listing, or one that says something twice, is refused with a complaint. It shows
the lines that it is about and marks the place in them.
-/

namespace TapeMachine.Listing

def Section.construct : Section → Construct
  | .name _ => .name
  | .kind _ => .kind
  | .blank _ => .blank
  | .input _ => .input
  | .tape _ => .tape
  | .states _ => .states
  | .start _ => .start
  | .accept _ => .accept
  | .reject _ => .reject

inductive Problem where
  /-- None of the constructs that may stand somewhere stands there. -/
  | expected (constructs : List Construct)
  | repeatedSection (construct : Construct)
  | repeatedBlock (state : State)
  | missingName
  | missingRules
  | emptyProgram
  | missingState
  | missingRead
  | missingDirection
  | missingNextState
  | missingValue
  | unsupportedDirection (text : String)
  | unsupportedKind (text : String)
  deriving DecidableEq

def alternatives : List String → String
  | [] => ""
  | [a] => a
  | [a, b] => s!"{a} or {b}"
  | words => ", ".intercalate words.dropLast ++ ", or " ++ words.getLast?.getD ""

def Problem.message : Problem → String
  | expected constructs => "expected " ++ alternatives (constructs.map Construct.label)
  | repeatedSection construct => s!"Duplicate \"{construct.label}:\" declaration"
  | repeatedBlock state => s!"Duplicate rule block for state: {state}"
  | missingName => "Missing 'name' section"
  | missingRules => "Missing 'rules' section"
  | emptyProgram => "Empty program"
  | missingState => "Missing state name"
  | missingRead => "Missing read symbol"
  | missingDirection => "Missing direction"
  | missingNextState => "Missing next state"
  | missingValue => "Missing value"
  | unsupportedDirection text => s!"Unsupported direction: {text}"
  | unsupportedKind text => s!"Unsupported kind: {text}"

/-- A problem with the part of a text that it is about. A part without an end is a single place. -/
structure Complaint where
  text : List Char
  start : Nat
  stop : Option Nat
  problem : Problem
  deriving DecidableEq

namespace Complaint

def spaces (n : Nat) : String := String.ofList (List.replicate n ' ')

/-- The space below the first characters of a line, in which tabs stay tabs. -/
def underlay (line : List Char) (width : Nat) : String :=
  String.ofList ((line.take width).map fun c => if c = '\t' then '\t' else ' ')

def padded (width n : Nat) : String :=
  let digits := toString n
  spaces (width - digits.length) ++ digits

def showPoint (text : List Char) (position : Nat) (message : String) : String :=
  let place := Text.lineColumn text position
  let atBreak := match text.drop position with
    | c :: _ => isBreak c
    | [] => false
  let line := Text.lineAt text position
  let shown := if atBreak then Text.withVisibleBreaks line else Text.withoutBreaks line
  let gutter := spaces (toString place.line).length
  "\n".intercalate
    [ s!"{gutter}--> {place.line}:{place.column}",
      s!"{gutter} |",
      s!"{place.line} | {String.ofList shown}",
      s!"{gutter} | {underlay shown (place.column - 1)}^---",
      s!"{gutter} |",
      s!"{gutter} = {message}" ]

/-- The marks under a part of a line that is so many columns wide. -/
def marks (width : Nat) : String :=
  if width ≤ 1 then "^" else "^" ++ String.ofList (List.replicate (width - 2) '-') ++ "^"

/-- A message below a part of the text, of which the first line is shown and the last, if that is
another one. The marks reach from the first column to the last, whichever of them is on the left. -/
def showSpan (text : List Char) (start stop : Nat) (message : String) : String :=
  let first := Text.lineColumn text start
  let last := Text.lineColumn text stop
  let width := max (toString first.line).length (toString last.line).length
  let gutter := spaces width
  let firstLine := Text.withoutBreaks (Text.lineAt text start)
  let lastLine := Text.withVisibleBreaks (Text.lineAt text (stop - 1))
  let (left, right) :=
    if last.column < first.column then (last.column - 1, first.column + 1)
    else (first.column, last.column)
  "\n".intercalate <|
    [ s!"{gutter}--> {first.line}:{first.column}",
      s!"{gutter} |",
      s!"{padded width first.line} | {String.ofList firstLine}" ] ++
    (if first.line + 1 < last.line then [s!"{gutter} | ..."] else []) ++
    (if first.line < last.line then [s!"{padded width last.line} | {String.ofList lastLine}"]
      else []) ++
    [ s!"{gutter} | {underlay firstLine (left - 1)}{marks (right - left)}",
      s!"{gutter} |",
      s!"{gutter} = {message}" ]

def message (c : Complaint) : String :=
  match c.stop with
  | none => showPoint c.text c.start c.problem.message
  | some stop => showSpan c.text c.start stop c.problem.message

end Complaint

end TapeMachine.Listing
