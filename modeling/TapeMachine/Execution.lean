import TapeMachine.Run

/-!
# Executions

An execution hands out the trace of a run one entry at a time. It makes the transitions of a
deterministic machine on demand; a nondeterministic machine is explored when the first entry is
asked for, and the entries of the deciding path are handed out one by one.

What an execution knows is in its phase. It can also be kept in fields, of which a run of either
kind uses its own: `Fields.next?` looks at each field again before it is used.
-/

namespace TapeMachine

inductive Phase where
  | ready
  /-- The configuration handed out last, and the numbers of entries and of configurations so far. -/
  | stepping (last : Configuration) (recorded explored : Nat)
  /-- The exploration, and the entries of its path that are still to be handed out. -/
  | replaying (exploration : Exploration) (rest : List TraceEntry)
  | halted (verdict : Verdict) (explored : Nat)

inductive Status where
  | ready
  | running
  | halted (verdict : Verdict)
  deriving DecidableEq

/-- A run that is made on demand. -/
structure Execution where
  machine : Machine
  limits : Limits
  phase : Phase

def Machine.execute (m : Machine) (limits : Limits) : Execution :=
  { machine := m, limits, phase := .ready }

namespace Execution

def status (e : Execution) : Status :=
  match e.phase with
  | .ready => .ready
  | .stepping .. | .replaying .. => .running
  | .halted verdict _ => .halted verdict

def verdict? (e : Execution) : Option Verdict :=
  match e.phase with
  | .halted verdict _ => some verdict
  | _ => none

/-- The number of configurations that were made so far. -/
def explored (e : Execution) : Nat :=
  match e.phase with
  | .ready => 0
  | .stepping _ _ explored => explored
  | .replaying exploration _ => exploration.explored
  | .halted _ explored => explored

def inPhase (e : Execution) (phase : Phase) : Execution := { e with phase }

def nextReplayed (e : Execution) (exploration : Exploration) :
    List TraceEntry → Option TraceEntry × Execution
  | [] => (none, e.inPhase (.halted exploration.verdict exploration.explored))
  | entry :: rest => (some entry, e.inPhase (.replaying exploration rest))

/-- Makes the next transition of a deterministic machine. -/
def nextStepped (e : Execution) (last : Configuration) (recorded explored : Nat) :
    Option TraceEntry × Execution :=
  match (e.machine.step last).successors with
  | [] => (none, e.inPhase (.halted (e.machine.step last).verdict explored))
  | s :: _ =>
    if e.limits.maxSteps ≤ recorded then (none, e.inPhase (.halted .timeout explored))
    else
      (some { step := recorded, transition := some s.transition, configuration := s.configuration },
        e.inPhase (.stepping s.configuration (recorded + 1) (explored + 1)))

/-- Hands out the next entry, or ends the run when there is none. -/
def next (e : Execution) : Option TraceEntry × Execution :=
  match e.phase with
  | .halted .. => (none, e)
  | .replaying exploration rest => e.nextReplayed exploration rest
  | .stepping last recorded explored => e.nextStepped last recorded explored
  | .ready =>
    match e.machine.kind with
    | .nondeterministic =>
      let exploration := e.machine.explore e.limits
      e.nextReplayed exploration exploration.path
    | .deterministic => (some e.machine.startEntry, e.inPhase (.stepping e.machine.start 1 1))

/-- The state of an execution, field by field. -/
structure Fields where
  status : Status := .ready
  /-- The configuration handed out last, while a deterministic machine runs. -/
  current : Option Configuration := none
  /-- The number of entries of a deterministic machine that were handed out. -/
  recorded : Nat := 0
  explored : Nat := 0
  /-- The entries of the path of an exploration that are still to be handed out. -/
  buffered : List TraceEntry := []
  /-- The verdict of the exploration, until it is given. -/
  pending : Option Verdict := none

namespace Fields

def verdict? (f : Fields) : Option Verdict :=
  match f.status with
  | .halted verdict => some verdict
  | .ready | .running => none

def halt (f : Fields) (verdict : Verdict) : Option TraceEntry × Fields :=
  (none, { f with status := .halted verdict, current := none })

def nextBuffered (f : Fields) : Option TraceEntry × Fields :=
  match f.buffered with
  | entry :: rest => (some entry, { f with buffered := rest })
  | [] => { f with pending := none }.halt (f.pending.getD .timeout)

def begin (m : Machine) (limits : Limits) (f : Fields) : Option TraceEntry × Fields :=
  match m.kind with
  | .nondeterministic =>
    let exploration := m.explore limits
    { f with
      status := .running
      explored := exploration.explored
      pending := some exploration.verdict
      buffered := exploration.path }.nextBuffered
  | .deterministic =>
    (some m.startEntry,
      { f with status := .running, current := some m.start, recorded := 1, explored := 1 })

/-- Makes the next transition of a deterministic machine. There is no answer where it branches. -/
def nextStepped? (m : Machine) (limits : Limits) (f : Fields) :
    Option (Option TraceEntry × Fields) :=
  match f.current with
  | none => some (none, f)
  | some last =>
    match m.step last with
    | .halt reason => some (f.halt reason.verdict)
    | .branch _ => none
    | .next s =>
      if limits.maxSteps ≤ f.recorded then some (f.halt .timeout)
      else some
        (some
          { step := f.recorded
            transition := some s.transition
            configuration := s.configuration },
          { f with
            current := some s.configuration
            recorded := f.recorded + 1
            explored := f.explored + 1 })

/-- Hands out the next entry, or ends the run when there is none. Fields that were empty at first
always have an answer, so that `Execution.next` can do without looking. -/
def next? (m : Machine) (limits : Limits) (f : Fields) : Option (Option TraceEntry × Fields) :=
  match f.status with
  | .halted _ => some (none, f)
  | .ready => some (f.begin m limits)
  | .running =>
    match m.kind with
    | .nondeterministic => some f.nextBuffered
    | .deterministic => f.nextStepped? m limits

end Fields

end Execution

end TapeMachine
