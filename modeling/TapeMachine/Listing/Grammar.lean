import TapeMachine.Basic
import TapeMachine.Peg

/-!
# The grammar of listings

A listing is a machine definition written as text. Header sections come first, one to a line and in
any order; the rules follow, a block for each source state. Spaces, tabs and comments may stand
between any two words of a line. The grammar says which texts are listings, and reads them into
sections and blocks.
-/

namespace TapeMachine.Listing

/-- The constructs of a listing that a reader can be told about, in the order in which they are
mentioned. -/
inductive Construct where
  | endOfText | program | name | kind | blank | input | tape | states | start | accept | reject
  | kindValue | rules | stateBlock | transition | read | write | direction | symbols | identifiers
  | identifier | symbol | text
  deriving DecidableEq

namespace Construct

/-- All constructs in the order in which they are mentioned. -/
def all : List Construct :=
  [endOfText, program, name, kind, blank, input, tape, states, start, accept, reject, kindValue,
    rules, stateBlock, transition, read, write, direction, symbols, identifiers, identifier, symbol,
    text]

def label : Construct → String
  | endOfText => "EOI"
  | program => "program"
  | name => "name"
  | kind => "kind"
  | blank => "blank"
  | input => "input"
  | tape => "tape"
  | states => "states"
  | start => "start"
  | accept => "accept"
  | reject => "reject"
  | kindValue => "kind_value"
  | rules => "rules"
  | stateBlock => "state_block"
  | transition => "transition"
  | read => "read"
  | write => "write"
  | direction => "direction"
  | symbols => "symbols"
  | identifiers => "identifiers"
  | identifier => "identifier"
  | symbol => "symbol"
  | text => "text"

end Construct

inductive Section where
  | name (text : List Char)
  | kind (kind : Kind)
  | blank (symbol : Symbol)
  | input (symbols : List Symbol)
  | tape (symbols : List Symbol)
  | states (states : List State)
  | start (state : State)
  | accept (states : List State)
  | reject (states : List State)
  deriving DecidableEq

structure Block where
  state : State
  rules : List Rule
  deriving DecidableEq

end Listing

structure Listing where
  sections : List (Located Listing.Section)
  blocks : List (Located Listing.Block)
  deriving DecidableEq

namespace Listing

abbrev Expr := Peg Construct

open Peg

def isGap (c : Char) : Bool := c == ' ' || c == '\t'

def isBreak (c : Char) : Bool := c == '\n' || c == '\r'

def isIdentifierChar (c : Char) : Bool := c.isAlphanum || c == '_'

/-- The characters that stand for themselves as symbols, without quotes. -/
def isBareSymbol (c : Char) : Bool :=
  !(isGap c || isBreak c || c == ',' || c == '[' || c == ']' || c == '\x27' || c == '#')

def word (text : String) : Expr Unit := .literal text.toList

def newline : Expr Unit := either (word "\n") (either (word "\r\n") (word "\r"))

def comment : Expr (List Char) := skipTo (word "#") (.span (!isBreak ·))

def filler : Expr Unit :=
  .map (fun _ => ()) (both (.span isGap) (.star (both comment (.span isGap))))

/-- One expression and then another, with filler between them. -/
def seq {α β : Type} (first : Expr α) (second : Expr β) : Expr (α × β) :=
  both first (skipTo filler second)

/-- The second of two expressions with filler between them. -/
def after {α β : Type} (first : Expr α) (second : Expr β) : Expr β :=
  .map Prod.snd (seq first second)

/-- The first of two expressions with filler between them. -/
def before {α β : Type} (first : Expr α) (second : Expr β) : Expr α :=
  .map Prod.fst (seq first second)

def many {α : Type} (body : Expr α) : Expr (List α) := starWith filler body

/-- The end of a line with any number of empty lines after it. -/
def newlines : Expr (List Unit) := plusWith filler newline

def identifier : Expr State :=
  .named .identifier (.map (fun (c, cs) => String.ofList (c :: cs))
    (both (.char isIdentifierChar) (.span isIdentifierChar)))

def symbol : Expr Symbol :=
  .named .symbol (either
    (skipTo (.literal ['\x27']) (endBy (.char (· != '\x27')) (.literal ['\x27'])))
    (.char isBareSymbol))

def text : Expr (List Char) :=
  .named .text (.map (fun (c, cs) => c :: cs)
    (both (.char (!isBreak ·)) (.span (!isBreak ·))))

def commaList {α : Type} (item : Expr α) : Expr (List α) :=
  .map (fun (x, xs) => x :: xs) (seq item (many (after (word ",") item)))

/-- Items with commas between them, in brackets or, if there are any, without. -/
def list {α : Type} (item : Expr α) : Expr (List α) :=
  either
    (after (word "[") (before (.map (·.getD []) (optional (commaList item))) (word "]")))
    (commaList item)

def symbols : Expr (List Symbol) := .named .symbols (list symbol)

def identifiers : Expr (List State) := .named .identifiers (list identifier)

def kindValue : Expr Kind :=
  .named .kindValue (either
    (.map (fun _ => .nondeterministic) (word "nondeterministic"))
    (.map (fun _ => .deterministic) (word "deterministic")))

def sectionOf {α : Type} (construct : Construct) (value : Expr α) (make : α → Section) :
    Expr Section :=
  .named construct (.map make (after (word construct.label) (after (word ":") value)))

def header : Expr Section :=
  either (sectionOf .name text .name) <|
  either (sectionOf .kind kindValue .kind) <|
  either (sectionOf .blank symbol .blank) <|
  either (sectionOf .input symbols .input) <|
  either (sectionOf .tape symbols .tape) <|
  either (sectionOf .states identifiers .states) <|
  either (sectionOf .start identifier .start) <|
  either (sectionOf .accept identifiers .accept) (sectionOf .reject identifiers .reject)

def direction : Expr Direction :=
  .named .direction <|
  either (.map (fun _ => .left) (word "L")) <|
  either (.map (fun _ => .right) (word "R")) <|
  either (.map (fun _ => .stay) (word "S")) <|
  either (.map (fun _ => .stay) (word "N")) <|
  either (.map (fun _ => .left) (word "<")) <|
  either (.map (fun _ => .right) (word ">")) (.map (fun _ => .stay) (word "-"))

/-- A rule; one that names no symbol to write leaves the symbol it read. -/
def transition : Expr Rule :=
  .named .transition (.map
    (fun (read, write, direction, nextState) =>
      { read, write := write.getD read, direction, nextState })
    (seq (.named .read symbol)
      (seq (optional (after (word "->") (.named .write symbol)))
        (after (word ",") (seq direction (after (word ",") identifier))))))

/-- A source state with its rules, each on a line of its own. -/
def stateBlock : Expr Block :=
  .named .stateBlock (.map (fun (state, rules) => { state, rules })
    (seq identifier (after (word ":") (many (after newlines transition)))))

def rules : Expr (List (Located Block)) :=
  .named .rules (after (word "rules") (after (word ":")
    (many (after newlines (.located stateBlock)))))

def program : Expr Listing :=
  .named .program (.map (fun (sections, blocks) => { sections, blocks })
    (after .done (after (many newline)
      (seq (many (before (.located header) newlines))
        (before rules (after (many newline) (.named .endOfText .endOfText)))))))

end TapeMachine.Listing
