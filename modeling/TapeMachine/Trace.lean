import TapeMachine.Configuration

/-!
# Traces and runs

A trace lists the configurations of a computation with the transitions between them, and a run is a
trace with its verdict. `Trace.replay` applies the recorded transitions again, from the first
configuration on.
-/

namespace TapeMachine

/-- A transition that a machine made: where it applied and what it did. -/
structure Transition where
  state : State
  read : Symbol
  action : Action
  deriving DecidableEq, Inhabited, Hashable

/-- The line that shows a transition, such as `(q0, 0) → (q1, X, R)`. -/
def Transition.line (t : Transition) : String :=
  s!"({t.state}, {t.read}) → ({t.action.nextState}, {t.action.write}, {t.action.direction.letter})"

structure TraceEntry where
  step : Nat
  transition : Option Transition
  configuration : Configuration
  deriving DecidableEq, Inhabited

/-- The recorded configurations of a computation, in order. -/
structure Trace where
  entries : List TraceEntry
  deriving DecidableEq, Inhabited

namespace Trace

def length (t : Trace) : Nat := t.entries.length

def configurations (t : Trace) : List Configuration := t.entries.map (·.configuration)

def transitions (t : Trace) : List Transition := t.entries.filterMap (·.transition)

def first? (t : Trace) : Option Configuration := t.entries.head?.map (·.configuration)

def last? (t : Trace) : Option Configuration := t.entries.getLast?.map (·.configuration)

/-- The configuration that the recorded transitions lead to from the first one. -/
def replay (t : Trace) : Option Configuration :=
  t.first?.map fun start =>
    t.transitions.foldl (fun c transition => c.apply transition.action) start

end Trace

structure Run where
  verdict : Verdict
  trace : Trace
  explored : Nat
  deriving DecidableEq, Inhabited

namespace Run

def output (r : Run) : String := (r.trace.last?.map fun c => c.tape.contents).getD ""

def steps (r : Run) : Nat := r.trace.transitions.length

end Run

end TapeMachine
