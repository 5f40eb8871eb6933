import Mathlib
import TapeMachine.Definition
import TapeMachine.Listing.Grammar
import TapeMachine.Text.Space

/-!
# Layouts

The same definition can be written in many ways: its sections in any order, a symbol with or without
quotes, a list with or without brackets, a rule with or without the symbol that it writes, with any
space between the words and any empty lines and comments between the lines. The languages of this
module say which texts write a value, from the space between two words up to whole definitions. They
do not refer to the grammar.
-/

namespace TapeMachine

namespace Listing

open scoped Computability

/-- Spaces and tabs. -/
def gap : Language Char := {s | ∀ x ∈ s, isGap x = true}

/-- A comment, up to the end of its line. -/
def remark : Language Char :=
  {s | ∃ body : List Char, s = '#' :: body ∧ ∀ x ∈ body, isBreak x = false}

/-- What may stand behind the last word of a line. -/
def lineTail : Language Char := gap + gap * remark

/-- The three ways to end a line. -/
def lineEnd : Language Char := {['\n'], ['\r', '\n'], ['\r']}

/-- The end of a line and any number of empty lines, with a text on the line behind them. -/
def emptyLines (T : Language Char) : Language Char := (lineEnd * lineTail)∗ * (lineEnd * T)

/-- The end of a line and any number of empty lines, with the indentation of the next line. -/
def lineBreaks : Language Char := emptyLines gap

/-- The empty lines at the end of a text. -/
def lastLines : Language Char := (lineEnd * lineTail)∗

/-- A symbol in quotes, or without where that is possible. -/
def symbolTexts (c : Symbol) : Language Char :=
  {s | s = ['\x27', c, '\x27'] ∨ isBareSymbol c = true ∧ s = [c]}

def stateTexts (q : State) : Language Char := {q.toList}

/-- Items with commas between them. -/
def commaTexts {α : Type} (item : α → Language Char) : α → List α → Language Char
  | x, [] => item x
  | x, y :: ys => item x * gap * {[',']} * gap * commaTexts item y ys

/-- Items with commas between them, in brackets or, if there are any, without. -/
def listTexts {α : Type} (item : α → Language Char) : List α → Language Char
  | [] => {['[']} * gap * {[']']}
  | x :: xs => commaTexts item x xs + {['[']} * gap * commaTexts item x xs * gap * {[']']}

def directionTexts : Direction → Language Char
  | .left => {['L'], ['<']}
  | .right => {['R'], ['>']}
  | .stay => {['S'], ['N'], ['-']}

/-- An arrow with the symbol to write, or nothing if that is the symbol that was read. -/
def writeTexts (r : Rule) : Language Char :=
  let arrow := {['-', '>']} * gap * symbolTexts r.write * gap
  if r.write = r.read then 1 + arrow else arrow

def ruleTexts (r : Rule) : Language Char :=
  symbolTexts r.read * gap * writeTexts r * {[',']} * gap * directionTexts r.direction * gap *
    {[',']} * gap * stateTexts r.nextState

/-- A source state, and each of its rules on a new line. -/
def blockTexts (b : State × List Rule) : Language Char :=
  stateTexts b.1 * gap * {[':']} * (b.2.map fun r => lineTail * lineBreaks * ruleTexts r).prod

/-- The word that a section starts with. -/
def labelTexts (construct : Construct) : Language Char :=
  {construct.label.toList} * gap * {[':']} * gap

/-- A section of the header with the rest of its line. A comment behind a name would be part of
the name. -/
def sectionTexts : Section → Language Char
  | .name chars => labelTexts .name * {chars} * gap
  | .kind k => labelTexts .kind * {k.label.toList} * lineTail
  | .blank c => labelTexts .blank * symbolTexts c * lineTail
  | .input cs => labelTexts .input * listTexts symbolTexts cs * lineTail
  | .tape cs => labelTexts .tape * listTexts symbolTexts cs * lineTail
  | .states qs => labelTexts .states * listTexts stateTexts qs * lineTail
  | .start q => labelTexts .start * stateTexts q * lineTail
  | .accept qs => labelTexts .accept * listTexts stateTexts qs * lineTail
  | .reject qs => labelTexts .reject * listTexts stateTexts qs * lineTail

/-- What a text may start with: the space before its first word, with empty lines before it. -/
def leading : Language Char := gap + lineTail * lineBreaks

/-- What a text may end with: the rest of its last line, with empty lines behind it. -/
def trailing : Language Char := lineTail * lastLines

/-- From the first word to the last: sections and then blocks, in this order. -/
def coreTexts (sections : List Section) (blocks : List (State × List Rule)) : Language Char :=
  (sections.map fun s => sectionTexts s * lineBreaks).prod *
    {Construct.rules.label.toList} * gap * {[':']} *
    (blocks.map fun b => lineTail * lineBreaks * blockTexts b).prod

/-- The sections that say what is taken to be said when they are left out. -/
def defaultSections : List Section :=
  [.kind .deterministic, .blank '_', .input [], .tape [], .states [], .accept [], .reject []]

/-- What states are called in a text. -/
def IsStateName (q : State) : Prop := q ≠ "" ∧ ∀ x ∈ q.toList, isIdentifierChar x = true

end Listing

namespace Definition

open Listing

/-- All sections that say what a definition is, apart from its rules. -/
def sections (d : Definition) : List Section :=
  [.name d.name.toList, .kind d.kind, .blank d.blank, .input d.inputAlphabet, .tape d.tapeAlphabet,
    .states d.states, .start d.startState, .accept d.acceptStates, .reject d.rejectStates]

/-- The texts that write a definition: its sections in any order, where those that say the default
may be omitted, and its blocks in any order. -/
def texts (d : Definition) : Language Char :=
  {s | ∃ sections omitted blocks, (sections ++ omitted).Perm d.sections ∧
    omitted ⊆ defaultSections ∧ blocks.Perm d.rules.entries ∧
      s ∈ leading * coreTexts sections blocks * trailing}

/-- The states that a definition names somewhere. -/
def namedStates (d : Definition) : List State :=
  d.startState :: d.states ++ d.acceptStates ++ d.rejectStates ++ d.rules.keys ++
    d.allRules.map (·.nextState)

/-- The symbols that a definition names somewhere. -/
def namedSymbols (d : Definition) : List Symbol :=
  d.blank :: d.inputAlphabet ++ d.tapeAlphabet ++ d.allRules.flatMap fun r => [r.read, r.write]

/-- The name, the states and the symbols of a definition can be written in a text. -/
structure Writable (d : Definition) : Prop where
  name_ne : d.name ≠ ""
  name_trim : Text.trim d.name.toList = d.name.toList
  name_line : ∀ x ∈ d.name.toList, isBreak x = false
  name_sign : d.name.toList.head? ≠ some '#'
  states : ∀ q ∈ d.namedStates, IsStateName q
  symbols : ∀ c ∈ d.namedSymbols, c ≠ '\x27'

end Definition

end TapeMachine
