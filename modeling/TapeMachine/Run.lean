import TapeMachine.Exploration

/-!
# Runs

A deterministic machine runs step by step until it halts or its trace is full. A nondeterministic
one is explored, and its run is the path to the configuration that decided the verdict.
-/

namespace TapeMachine.Machine

/-- Follows a computation, up to a number of further entries. `recorded` counts the entries so far
and `explored` the configurations that were made; `entries` holds the entries, the latest first. -/
def follow (m : Machine) : Nat → Nat → Nat → Configuration → List TraceEntry → Run
  | room, recorded, explored, c, entries =>
    match (m.step c).successors, room with
    | [], _ => { verdict := (m.step c).verdict, trace := ⟨entries.reverse⟩, explored }
    | _ :: _, 0 => { verdict := .timeout, trace := ⟨entries.reverse⟩, explored }
    | s :: _, room + 1 =>
      follow m room (recorded + 1) (explored + 1) s.configuration
        ({ step := recorded, transition := some s.transition, configuration := s.configuration } ::
          entries)

/-- The run of the computation that always takes the first successor. -/
def runDirectly (m : Machine) (limits : Limits) : Run :=
  m.follow (limits.depth - 1) 1 1 m.start [m.startEntry]

def run (m : Machine) (limits : Limits) : Run :=
  match m.kind with
  | .deterministic => m.runDirectly limits
  | .nondeterministic => (m.explore limits).run

theorem run_of_deterministic {m : Machine} (hk : m.kind = .deterministic) (limits : Limits) :
    m.run limits = m.runDirectly limits := by
  rw [run, hk]

theorem run_of_nondeterministic {m : Machine} (hk : m.kind = .nondeterministic)
    (limits : Limits) : m.run limits = (m.explore limits).run := by
  rw [run, hk]

end TapeMachine.Machine
