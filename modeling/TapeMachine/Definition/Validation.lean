import TapeMachine.Definition
import TapeMachine.Text.Quoted
import TapeMachine.Text.Space

/-!
# Well-formed definitions

A definition is well formed when it passes seven conditions, checked in a fixed order; `validate`
names the first one that fails, with everything that offends it. `checkInput` does the same for an
input.
-/

namespace TapeMachine

inductive Fault where
  | missingStart
  | multipleStarts (states : List State)
  | undeclaredStart (state : State)
  | undeclaredStates (states : List State)
  | undeclaredSymbols (symbols : List Symbol)
  | inputOutsideTape (symbols : List Symbol)
  | blankInInput (blank : Symbol)
  | conflictingHalts (states : List State)
  | repeatedRule (state : State) (symbol : Symbol)
  | foreignInput (symbol : Symbol) (position : Nat)
  deriving DecidableEq

def Fault.message : Fault → String
  | missingStart => "No start state defined"
  | multipleStarts states => s!"Multiple start states defined: {Text.quotedList states}"
  | undeclaredStart state => s!"Start state '{state}' is not a declared state"
  | undeclaredStates states => s!"Undeclared states referenced: {Text.quotedList states}"
  | undeclaredSymbols symbols =>
    s!"Transitions use symbols outside the tape alphabet: {Text.quotedChars symbols}"
  | inputOutsideTape symbols =>
    s!"Input alphabet symbols missing from the tape alphabet: {Text.quotedChars symbols}"
  | blankInInput blank => s!"Blank symbol '{blank}' must not be part of the input alphabet"
  | conflictingHalts states =>
    s!"States cannot be both accepting and rejecting: {Text.quotedList states}"
  | repeatedRule state symbol =>
    s!"Deterministic machine has more than one transition for ({state}, {symbol})"
  | foreignInput symbol position =>
    s!"Input symbol '{symbol}' at position {position} is not in the input alphabet"

/-- The first member of a list that occurs earlier in it. -/
def firstRepeated? {α : Type} [DecidableEq α] : List α → List α → Option α
  | _, [] => none
  | seen, x :: xs => if seen.contains x then some x else firstRepeated? (x :: seen) xs

namespace Definition

/-- The start state has to be a state of the machine, verbatim. -/
def startFault? (d : Definition) : Option Fault :=
  if (Text.trim d.startState.toList).isEmpty then some .missingStart
  else if d.stateSet.contains d.startState then none
  else some (.undeclaredStart d.startState)

/-- The fault of referring to states that the machine does not have. -/
def undeclaredStates? (d : Definition) (referenced : List State) : Option Fault :=
  let states := d.stateSet
  match sortedSet (referenced.filter fun s => !states.contains s) with
  | [] => none
  | undeclared => some (.undeclaredStates undeclared)

def haltStatesFault? (d : Definition) : Option Fault :=
  d.undeclaredStates? (d.acceptStates ++ d.rejectStates)

/-- The blank is no input symbol, and input symbols are symbols of the tape. -/
def alphabetFault? (d : Definition) : Option Fault :=
  let input := d.inputSymbols
  if input.contains d.blank then some (.blankInInput d.blank)
  else
    let tape := d.tapeSymbols
    match input.filter fun s => !tape.contains s with
    | [] => none
    | missing => some (.inputOutsideTape missing)

/-- Sources and targets of rules have to be states of the machine. -/
def ruleStatesFault? (d : Definition) : Option Fault :=
  d.undeclaredStates? (d.rules.keys ++ d.allRules.map (·.nextState))

def ruleSymbolsFault? (d : Definition) : Option Fault :=
  let tape := d.tapeSymbols
  match sortedSet ((d.allRules.flatMap fun r => [r.read, r.write]).filter
      fun s => !tape.contains s) with
  | [] => none
  | undeclared => some (.undeclaredSymbols undeclared)

/-- In a deterministic machine no two rules compete. -/
def determinismFault? (d : Definition) : Option Fault :=
  match d.kind with
  | .nondeterministic => none
  | .deterministic => d.sources.findSome? fun s =>
    (firstRepeated? [] ((d.rulesOf s).map (·.read))).map (.repeatedRule s)

/-- No state both accepts and rejects. -/
def haltConflictFault? (d : Definition) : Option Fault :=
  match sortedSet (d.rejectStates.filter d.isAccepting) with
  | [] => none
  | conflicting => some (.conflictingHalts conflicting)

def fault? (d : Definition) : Option Fault :=
  d.startFault? <|> d.haltStatesFault? <|> d.alphabetFault? <|> d.ruleStatesFault? <|>
    d.ruleSymbolsFault? <|> d.determinismFault? <|> d.haltConflictFault?

def validate (d : Definition) : Except Fault Unit :=
  match d.fault? with
  | some fault => .error fault
  | none => .ok ()

/-- The first symbol of a text that is not in an alphabet, with its position. -/
def firstForeign? (alphabet : List Symbol) : Nat → List Symbol → Option Fault
  | _, [] => none
  | position, s :: rest =>
    if alphabet.contains s then firstForeign? alphabet (position + 1) rest
    else some (.foreignInput s position)

/-- Accepts the inputs that consist of input symbols. -/
def checkInput (d : Definition) (input : String) : Except Fault Unit :=
  match firstForeign? d.inputSymbols 0 input.toList with
  | some fault => .error fault
  | none => .ok ()

end Definition

end TapeMachine
