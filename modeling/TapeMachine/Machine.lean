import Std.Data.HashMap
import TapeMachine.Definition.Validation
import TapeMachine.Trace

/-!
# Machines

A machine is a well-formed definition bound to an input. `load` is the way to build one; the checks
it made are fields of the result. Loading compiles the rules into a look-up table, in one form for
each kind of machine. `step` gives what follows a configuration.
-/

namespace TapeMachine

/-- The compiled rules, by state and scanned symbol. -/
inductive ActionTable where
  | single (actions : Std.HashMap (State × Symbol) Action)
  /-- The actions of a nondeterministic machine, in the order of the rules. -/
  | several (actions : Std.HashMap (State × Symbol) (List Action))

namespace ActionTable

/-- The table of a kind of machine before any rule is added. -/
def empty : Kind → ActionTable
  | .deterministic => .single ∅
  | .nondeterministic => .several ∅

/-- Adds a rule of a state. Among single actions it takes the place of an earlier rule for the same
symbol, among several ones it comes after them. -/
def addRule (state : State) : ActionTable → Rule → ActionTable
  | .single table, r => .single (table.insert (state, r.read) r.action)
  | .several table, r => .several <|
    table.alter (state, r.read) fun actions => some (actions.getD [] ++ [r.action])

def addRules (table : ActionTable) (entry : State × List Rule) : ActionTable :=
  entry.2.foldl (addRule entry.1) table

end ActionTable

/-- The look-up table of a definition's rules. -/
def Definition.compile (d : Definition) : ActionTable :=
  d.rules.entries.foldl ActionTable.addRules (.empty d.kind)

/-- A well-formed definition with an input that fits it. -/
structure Machine where
  definition : Definition
  input : String
  table : ActionTable
  table_eq : table = definition.compile
  valid : definition.validate = .ok ()
  fits : definition.checkInput input = .ok ()

structure Successor where
  transition : Transition
  configuration : Configuration
  deriving DecidableEq

inductive Step where
  | next (successor : Successor)
  | branch (successors : List Successor)
  | halt (reason : Halt)
  deriving DecidableEq

namespace Step

def successors : Step → List Successor
  | .next s => [s]
  | .branch successors => successors
  | .halt _ => []

def verdict : Step → Verdict
  | .halt reason => reason.verdict
  | _ => .haltedNonFinal

end Step

namespace Machine

/-- Binds a definition to an input, or names the first fault of the two. -/
def load (definition : Definition) (input : String) : Except Fault Machine :=
  match hv : definition.validate with
  | .error fault => .error fault
  | .ok () =>
    match hf : definition.checkInput input with
    | .error fault => .error fault
    | .ok () => .ok
      { definition, input, table := definition.compile, table_eq := rfl, valid := hv, fits := hf }

def kind (m : Machine) : Kind := m.definition.kind

def blank (m : Machine) : Symbol := m.definition.blank

/-- The configuration that every computation of the machine starts from. -/
def start (m : Machine) : Configuration :=
  .initial m.definition.startState m.input m.definition.blank

/-- Whether a state accepts or rejects, if it does either. -/
def haltingState? (m : Machine) (s : State) : Option Halt :=
  if m.definition.isAccepting s then some .accept
  else if m.definition.isRejecting s then some .reject
  else none

def successor (c : Configuration) (a : Action) : Successor :=
  { transition := { state := c.state, read := c.symbol, action := a }, configuration := c.apply a }

/-- What follows a configuration. Accepting and rejecting states halt whatever rules they have. -/
def step (m : Machine) (c : Configuration) : Step :=
  match m.haltingState? c.state with
  | some reason => .halt reason
  | none =>
    match m.table with
    | .single table =>
      match table[(c.state, c.symbol)]? with
      | some a => .next (successor c a)
      | none => .halt .noTransition
    | .several table => .branch ((table[(c.state, c.symbol)]?.getD []).map (successor c))

end Machine

/-- A transition that no machine may make: it writes a symbol that is not one of its tape. -/
structure ForeignWrite where
  state : State
  read : Symbol
  write : Symbol
  deriving DecidableEq

def ForeignWrite.message (w : ForeignWrite) : String :=
  s!"transition ({w.state}, {w.read}) writes '{w.write}' outside the tape alphabet"

namespace Machine

/-- A successor, provided that the action writes a symbol of the tape. -/
def checkedSuccessor (m : Machine) (c : Configuration) (a : Action) :
    Except ForeignWrite Successor :=
  if m.definition.tapeSymbols.contains a.write then .ok (successor c a)
  else .error { state := c.state, read := c.symbol, write := a.write }

/-- A step that checks every symbol before it is written. No check of a machine ever fails, so
that `step` can do without them. -/
def checkedStep (m : Machine) (c : Configuration) : Except ForeignWrite Step :=
  match m.haltingState? c.state with
  | some reason => .ok (.halt reason)
  | none =>
    match m.table with
    | .single table =>
      match table[(c.state, c.symbol)]? with
      | some a => (m.checkedSuccessor c a).map .next
      | none => .ok (.halt .noTransition)
    | .several table =>
      ((table[(c.state, c.symbol)]?.getD []).mapM (m.checkedSuccessor c)).map .branch

end Machine

end TapeMachine
