/-!
# Text without terminal commands

A terminal shows most characters and takes others for commands. An escape character starts a
command of several characters, whose end depends on its kind. `withoutCommands` keeps what is shown
of a text, line ends and the like included, so that it can be read in a file.
-/

namespace TapeMachine.Text

/-- What a terminal takes the next character for. -/
inductive TerminalMode where
  | text
  | escape
  | escapeRest
  | sequence
  | device
  | deviceParameters
  | deviceRest
  | body
  | command
  deriving DecidableEq

namespace TerminalMode

/-- Whether a character is one of those from the first to the last one given. -/
def isWithin (first last c : Char) : Bool := first ≤ c && c ≤ last

def isLayout (c : Char) : Bool := c == '\t' || c == '\n' || c == '\x0c' || c == '\r'

def isGraphic (c : Char) : Bool := isWithin ' ' '~' c || '\x80' ≤ c

/-- Whether white space is shown: it interrupts escape sequences, but not strings and commands. -/
def showsLayout : TerminalMode → Bool
  | text | escape | escapeRest | sequence => true
  | device | deviceParameters | deviceRest | body | command => false

/-- The mode after an escape character and one more that is not shown. -/
def afterEscape (c : Char) : TerminalMode :=
  if isWithin ' ' '/' c then escapeRest
  else if c = '[' then sequence
  else if c = ']' then command
  else if c = 'P' then device
  else if c = 'X' || c = '^' || c = '_' then body
  else if isWithin '0' '~' c then text
  else escape

/-- Whether the bytes that encode a character contain the one that ends the body of a string. -/
def endsBody (c : Char) : Bool := (String.utf8EncodeChar c).contains 0x9C

def next (m : TerminalMode) (c : Char) : TerminalMode :=
  if c = '\x18' || c = '\x1a' then text
  else if c = '\x1b' then escape
  else match m with
    | text => text
    | escape => afterEscape c
    | escapeRest => if isWithin '0' '~' c then text else escapeRest
    | sequence => if isWithin '@' '~' c then text else sequence
    | device =>
      if isWithin ' ' '/' c then deviceRest
      else if isWithin '0' '?' c then deviceParameters
      else if isWithin '@' '~' c then body
      else device
    | deviceParameters =>
      if isWithin ' ' '/' c then deviceRest
      else if isWithin '<' '~' c then body
      else deviceParameters
    | deviceRest => if isWithin '0' '~' c then body else deviceRest
    | body => if endsBody c then text else body
    | command => if c = '\x07' then text else command

end TerminalMode

structure TerminalState where
  mode : TerminalMode := .text
  showing : Bool := false
  deriving DecidableEq

namespace TerminalState

open TerminalMode (isLayout isGraphic)

def shows (s : TerminalState) (c : Char) : Bool :=
  if isLayout c then s.showing || s.mode.showsLayout
  else isGraphic c && (s.showing || s.mode = .text)

/-- The state after a character. White space that interrupts an escape sequence starts text, and the
sequence goes on behind that text; a character beyond ASCII in the text ends it. -/
def next (s : TerminalState) (c : Char) : TerminalState :=
  if s.shows c then { mode := if '\x80' ≤ c then .text else s.mode, showing := true }
  else { mode := s.mode.next c, showing := false }

end TerminalState

/-- What a terminal shows of a text. -/
def withoutCommands (s : List Char) : List Char :=
  (s.foldl (fun (state, shown) c => (state.next c, if state.shows c then c :: shown else shown))
    (({} : TerminalState), [])).2.reverse

/-- Text with spaces in front of every line but the first. -/
def indented (width : Nat) (s : List Char) : List Char :=
  s.flatMap fun c => if c = '\n' then '\n' :: List.replicate width ' ' else [c]

end TapeMachine.Text
