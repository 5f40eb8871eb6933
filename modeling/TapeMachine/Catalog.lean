import TapeMachine.Catalog.Sources
import TapeMachine.Listing.Reading
import TapeMachine.Machine

/-!
# The catalog

The built-in machines in a fixed order, to be found by number, by name or by a part of the name.
-/

namespace TapeMachine

structure CatalogEntry where
  definition : Definition
  source : String
  samples : List String
  automaton : Automaton
  deriving Inhabited

namespace CatalogEntry

def name (e : CatalogEntry) : String := e.definition.name

def load (e : CatalogEntry) (input : String) : Except Fault Machine :=
  Machine.load e.definition input

end CatalogEntry

namespace Catalog

/-- The diagram that comes with a built-in machine, if there is one and it is consistent. -/
def diagram? (s : Source) : Option Automaton :=
  s.diagram.bind fun lines => (Automaton.read (String.ofList (charsOf lines))).toOption

/-- The entry of a built-in machine. A machine without a diagram of its own has the one of its
rules. -/
def entry? (s : Source) : Option CatalogEntry :=
  match Definition.parseChars s.chars with
  | .error _ => none
  | .ok d => some
    { definition := d
      source := String.ofList s.chars
      samples := s.samples
      automaton := (diagram? s).getD (.ofDefinition d) }

def entries : List CatalogEntry := sources.filterMap entry?

def count : Nat := entries.length

def names : List String := entries.map CatalogEntry.name

def byIndex? (index : Nat) : Option CatalogEntry := entries[index]?

/-- A text with its ASCII capitals replaced by small letters. -/
def lowerAscii (s : String) : List Char := s.toList.map Char.toLower

/-- The entry whose machine has a name, whatever the case of its ASCII letters. -/
def byName? (name : String) : Option CatalogEntry :=
  entries.find? fun e => lowerAscii e.name = lowerAscii name

/-- The small letter of a character, as far as that is an ASCII character: the Kelvin sign is the
only other capital of an ASCII letter. Names of machines are ASCII, so no more is needed to find
them. -/
def lowerLetter (c : Char) : Char := if c = '\u212a' then 'k' else c.toLower

def occursIn (wanted : List Char) : List Char → Bool
  | [] => wanted.isEmpty
  | c :: rest => wanted.isPrefixOf (c :: rest) || occursIn wanted rest

/-- The numbers of the entries whose name contains a text, whatever the case of letters. -/
def search (text : String) : List Nat :=
  let wanted := text.toList.map lowerLetter
  (List.range count).filter fun i =>
    match byIndex? i with
    | some e => occursIn wanted (e.name.toList.map lowerLetter)
    | none => false

structure Info where
  index : Nat
  name : String
  kind : Kind
  startState : State
  samples : List String
  stateCount : Nat
  transitionCount : Nat
  deriving DecidableEq

def info? (index : Nat) : Option Info :=
  (byIndex? index).map fun e =>
    { index
      name := e.name
      kind := e.definition.kind
      startState := e.definition.startState
      samples := e.samples
      stateCount := e.definition.stateSet.length
      transitionCount := e.definition.transitionCount }

end Catalog

end TapeMachine
