import TapeMachine.Definition
import TapeMachine.Json.Codec
import TapeMachine.Text.Quoted

/-!
# State diagrams

A state diagram is a finite automaton that is shown beside a machine. It takes no part in a run.
`Automaton.ofDefinition` derives one from the rules of a machine, and `accepts` runs it on a word,
keeping all states that it may be in.
-/

namespace TapeMachine

/-- Whether a diagram may have several edges for one state and symbol. -/
inductive AutomatonKind where
  | dfa
  | nfa
  deriving DecidableEq, Inhabited

structure Edge where
  source : State
  symbol : Symbol
  target : State
  deriving DecidableEq, Inhabited

/-- A state diagram. -/
structure Automaton where
  kind : AutomatonKind
  states : List State
  alphabet : List Symbol
  start : State
  accept : List State := []
  edges : List Edge := []
  deriving DecidableEq, Inhabited

inductive AutomatonFault where
  | undeclaredStart (state : State)
  | undeclaredStates (states : List State)
  | undeclaredSymbols (symbols : List Symbol)
  | repeatedEdge (state : State) (symbol : Symbol)
  deriving DecidableEq

def AutomatonFault.message : AutomatonFault → String
  | undeclaredStart state => s!"Start state '{state}' is not a declared state"
  | undeclaredStates states => s!"Undeclared states referenced: {Text.quotedList states}"
  | undeclaredSymbols symbols =>
    s!"Edges use symbols outside the alphabet: {Text.quotedChars symbols}"
  | repeatedEdge state symbol => s!"DFA has more than one edge for ({state}, {symbol})"

namespace Automaton

def edgeOf (source : State) (r : Rule) : Edge :=
  { source, symbol := r.read, target := r.nextState }

/-- The diagram of a machine's rules, with an edge for each rule. It does not show what the machine
writes and how its head moves. -/
def ofDefinition (d : Definition) : Automaton :=
  { kind := match d.kind with
      | .deterministic => .dfa
      | .nondeterministic => .nfa
    states := d.stateSet
    alphabet := d.tapeSymbols
    start := d.startState
    accept := d.acceptStates
    edges := d.sources.flatMap fun s => (d.rulesOf s).map (edgeOf s) }

/-- The states that the diagram refers to, apart from its start state. -/
def referencedStates (a : Automaton) : List State :=
  a.accept ++ a.edges.flatMap fun e => [e.source, e.target]

/-- The first edge that leaves a state with a symbol with which an earlier one leaves it. -/
def firstRepeatedEdge? : List (State × Symbol) → List Edge → Option AutomatonFault
  | _, [] => none
  | seen, e :: rest =>
    if seen.contains (e.source, e.symbol) then some (.repeatedEdge e.source e.symbol)
    else firstRepeatedEdge? ((e.source, e.symbol) :: seen) rest

def fault? (a : Automaton) : Option AutomatonFault :=
  if !a.states.contains a.start then some (.undeclaredStart a.start)
  else match sortedSet (a.referencedStates.filter fun s => !a.states.contains s) with
    | s :: rest => some (.undeclaredStates (s :: rest))
    | [] =>
      match sortedSet ((a.edges.map (·.symbol)).filter fun s => !a.alphabet.contains s) with
      | s :: rest => some (.undeclaredSymbols (s :: rest))
      | [] =>
        match a.kind with
        | .nfa => none
        | .dfa => firstRepeatedEdge? [] a.edges

def validate (a : Automaton) : Except AutomatonFault Unit :=
  match a.fault? with
  | some fault => .error fault
  | none => .ok ()

/-- The states that a symbol leads to from any of the given states. -/
def advance (a : Automaton) (current : List State) (symbol : Symbol) : List State :=
  sortedSet ((a.edges.filter fun e => e.symbol = symbol && current.contains e.source).map
    (·.target))

/-- The states that the diagram may be in after a word, from the given states on. -/
def statesAfter (a : Automaton) : List State → List Symbol → List State
  | current, [] => current
  | [], _ :: _ => []
  | current, symbol :: rest => a.statesAfter (a.advance current symbol) rest

/-- Whether some path for a word leads from the start state to an accepting one. -/
def accepts (a : Automaton) (word : String) : Bool :=
  let final := a.statesAfter [a.start] word.toList
  a.accept.any final.contains

end Automaton

open Json (Codec)

def AutomatonKind.label : AutomatonKind → String
  | dfa => "dfa"
  | nfa => "nfa"

def AutomatonKind.codec : Codec AutomatonKind :=
  .choice [("dfa", .dfa), ("nfa", .nfa)] AutomatonKind.label

def Edge.codec : Codec Edge :=
  .convert
    (fun (source, symbol, target, ()) => { source, symbol, target })
    (fun e => (e.source, e.symbol, e.target, ()))
    (.record "Edge"
      (.cons "from" .text none <| .cons "symbol" .character none <| .cons "to" .text none .nil))

def Automaton.codec : Codec Automaton :=
  .convert
    (fun (kind, states, alphabet, start, accept, edges, ()) =>
      { kind, states, alphabet, start, accept, edges })
    (fun a => (a.kind, a.states, a.alphabet, a.start, a.accept, a.edges, ()))
    (.record "AutomatonDescription"
      (.cons "kind" AutomatonKind.codec none <|
       .cons "states" (.list .text) none <|
       .cons "alphabet" (.list .character) none <|
       .cons "start" .text none <|
       .cons "accept" (.list .text) (some []) <|
       .cons "edges" (.list Edge.codec) (some []) .nil))

end TapeMachine
