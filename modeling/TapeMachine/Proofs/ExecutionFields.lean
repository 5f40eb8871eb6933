import TapeMachine.Proofs.InterleavedCalls
import TapeMachine.Proofs.SafeComputation

/-!
# Executions kept in fields

The fields of an execution say what its phase says. They are empty at first, and each call of
`next?` has an answer, that of `next`, and leaves the fields of the phase that follows. So a
deterministic machine is never met branching, no current configuration is missing while it runs, and
the verdict of an exploration is still there when its path has been handed out. Kept in fields, an
execution answers every sequence of calls as it does kept in its phase, and draining it gives the
run.
-/

namespace TapeMachine

namespace Execution

namespace Fields

section Stepped

variable {m : Machine} {limits : Limits} {f : Fields} {last : Configuration} {s : Successor}
  (hk : m.kind = .deterministic) (hf : f.status = .running) (hc : f.current = some last)

include hk hf hc

private theorem next?_of_halt {reason : Halt} (hs : m.step last = .halt reason) :
    f.next? m limits = some (f.halt reason.verdict) := by
  simp only [next?, hf, hk, nextStepped?, hc, hs]

private theorem next?_of_le (hs : m.step last = .next s) (hle : limits.maxSteps ≤ f.recorded) :
    f.next? m limits = some (f.halt .timeout) := by
  simp only [next?, hf, hk, nextStepped?, hc, hs]
  exact if_pos hle

private theorem next?_of_lt (hs : m.step last = .next s) (hlt : f.recorded < limits.maxSteps) :
    f.next? m limits = some (some (s.entry f.recorded),
      { f with
        current := some s.configuration
        recorded := f.recorded + 1
        explored := f.explored + 1 }) := by
  simp only [next?, hf, hk, nextStepped?, hc, hs]
  exact if_neg (Nat.not_le_of_lt hlt)

end Stepped

/-- The fields of an execution of a machine in a phase. -/
inductive Represents (m : Machine) : Fields → Phase → Prop where
  | ready : Represents m {} .ready
  | stepping (hk : m.kind = .deterministic) (last : Configuration) (recorded explored : Nat) :
      Represents m { status := .running, current := some last, recorded, explored }
        (.stepping last recorded explored)
  | replaying (hk : m.kind = .nondeterministic) (x : Exploration) (rest : List TraceEntry) :
      Represents m
        { status := .running
          explored := x.explored
          buffered := rest
          pending := some x.verdict }
        (.replaying x rest)
  | halted {f : Fields} {v : Verdict} (h : f.status = .halted v) :
      Represents m f (.halted v f.explored)

namespace Represents

variable {e : Execution} {f : Fields}

private theorem status_eq (h : f.Represents e.machine e.phase) : f.status = e.status := by
  obtain ⟨m, limits, phase⟩ := e
  cases h with
  | halted h => exact h
  | _ => rfl

theorem verdict?_eq (h : f.Represents e.machine e.phase) : f.verdict? = e.verdict? := by
  obtain ⟨m, limits, phase⟩ := e
  cases h with
  | halted h =>
    rw [Fields.verdict?, h]
    rfl
  | _ => rfl

private theorem explored_eq (h : f.Represents e.machine e.phase) : f.explored = e.explored := by
  obtain ⟨m, limits, phase⟩ := e
  cases h <;> rfl

/-- A call of `next?` has the answer of `next`, and leaves the fields of the phase after it. -/
def Follows (f : Fields) (e : Execution) : Prop :=
  ∃ f' phase, f.next? e.machine e.limits = some (e.next.1, f') ∧
    e.next.2 = e.inPhase phase ∧ f'.Represents e.machine phase

private theorem follows_of_eq {f' : Fields} {x : Option TraceEntry} {phase : Phase}
    (hf : f.next? e.machine e.limits = some (x, f')) (he : e.next = (x, e.inPhase phase))
    (h : f'.Represents e.machine phase) : Follows f e :=
  ⟨f', phase, by rw [hf, he], by rw [he], h⟩

variable {m : Machine} {limits : Limits}

private theorem follows_stepping (hk : m.kind = .deterministic) (last : Configuration)
    (recorded explored : Nat) :
    Follows { status := .running, current := some last, recorded, explored }
      ⟨m, limits, .stepping last recorded explored⟩ := by
  let e : Execution := ⟨m, limits, .stepping last recorded explored⟩
  change Follows _ e
  cases hs : m.step last with
  | branch successors => exact absurd hs (Machine.step_ne_branch hk last successors)
  | halt reason =>
    have hnil : (e.machine.step last).successors = [] := congrArg Step.successors hs
    have hverdict : (e.machine.step last).verdict = reason.verdict := congrArg Step.verdict hs
    refine follows_of_eq (next?_of_halt hk rfl rfl hs) ?_ (.halted rfl)
    rw [← hverdict]
    exact next_stepping_of_nil hnil
  | next s =>
    have hcons : (e.machine.step last).successors = [s] := congrArg Step.successors hs
    by_cases hle : limits.maxSteps ≤ recorded
    · exact follows_of_eq (next?_of_le hk rfl rfl hs hle) (next_stepping_of_le hcons hle)
        (.halted rfl)
    · have hlt := Nat.lt_of_not_le hle
      exact follows_of_eq (next?_of_lt hk rfl rfl hs hlt) (next_stepping_of_lt hcons hlt)
        (.stepping hk ..)

private theorem follows_replaying (hk : m.kind = .nondeterministic) (x : Exploration)
    (rest : List TraceEntry) :
    Follows
      { status := .running, explored := x.explored, buffered := rest, pending := some x.verdict }
      ⟨m, limits, .replaying x rest⟩ := by
  cases rest with
  | nil =>
    have hlast : next? m limits
        { status := .running, explored := x.explored, buffered := [], pending := some x.verdict } =
          some ({ status := .running, explored := x.explored : Fields }.halt x.verdict) := by
      simp only [next?, hk]
      rfl
    exact follows_of_eq hlast rfl (.halted rfl)
  | cons entry rest =>
    refine follows_of_eq ?_ rfl (.replaying hk x rest)
    simp only [next?, hk]
    rfl

private theorem follows_ready (m : Machine) (limits : Limits) : Follows {} (m.execute limits) := by
  cases hk : m.kind with
  | nondeterministic =>
    -- the first call explores and then hands out the first entry of the path
    have hfields : Fields.next? m limits {} = Fields.next? m limits
        { status := .running
          explored := (m.explore limits).explored
          buffered := (m.explore limits).path
          pending := some (m.explore limits).verdict } := by
      simp only [next?, begin, hk]
    have hphase : (m.execute limits).next = Execution.next
        ⟨m, limits, .replaying (m.explore limits) (m.explore limits).path⟩ := by
      simp only [Execution.next, Machine.execute, hk]
      cases (m.explore limits).path <;> rfl
    obtain ⟨f', phase, hf, he, h⟩ : Follows _
        ⟨m, limits, .replaying (m.explore limits) (m.explore limits).path⟩ :=
      follows_replaying hk (m.explore limits) (m.explore limits).path
    refine ⟨f', phase, ?_, ?_, h⟩
    · rw [hphase]
      exact hfields.trans hf
    · rw [hphase]
      exact he
  | deterministic =>
    have hfields : Fields.next? m limits {} = some (some m.startEntry,
        { status := .running, current := some m.start, recorded := 1, explored := 1 }) := by
      simp only [next?, begin, hk]
    have hphase : (m.execute limits).next =
        (some m.startEntry, (m.execute limits).inPhase (.stepping m.start 1 1)) := by
      simp only [Execution.next, Machine.execute, hk]
    exact follows_of_eq hfields hphase (.stepping hk ..)

/-- One call after another, fields and phase go on together. -/
theorem follows (h : f.Represents e.machine e.phase) : Follows f e := by
  obtain ⟨m, limits, phase⟩ := e
  cases h with
  | ready => exact follows_ready m limits
  | stepping hk last recorded explored => exact follows_stepping hk last recorded explored
  | replaying hk x rest => exact follows_replaying hk x rest
  | halted h =>
    refine follows_of_eq ?_ rfl (.halted h)
    simp only [next?, h]

end Represents

/-- The answer to a call, and the fields after it. -/
def call? (m : Machine) (limits : Limits) (f : Fields) : Call → Option (Answer × Fields)
  | .next => (f.next? m limits).map fun r => (.entry r.1, r.2)
  | .status => some (.status f.status, f)
  | .verdict => some (.verdict f.verdict?, f)

/-- The answers to calls that are made one after the other, unless one of them has none. -/
def answers? (m : Machine) (limits : Limits) : Fields → List Call → Option (List Answer)
  | _, [] => some []
  | f, call :: rest =>
    (f.call? m limits call).bind fun r => (answers? m limits r.2 rest).map (r.1 :: ·)

/-- Calling for entries until there is none hands out the entries and leaves the last fields. -/
inductive Drains (m : Machine) (limits : Limits) : Fields → List TraceEntry → Fields → Prop where
  | ends {f f' : Fields} (h : f.next? m limits = some (none, f')) : Drains m limits f [] f'
  | hands {f f' f'' : Fields} {x : TraceEntry} {rest : List TraceEntry}
      (h : f.next? m limits = some (some x, f')) (hr : Drains m limits f' rest f'') :
      Drains m limits f (x :: rest) f''

namespace Represents

variable {e : Execution} {f : Fields}

private theorem exists_call (h : f.Represents e.machine e.phase) (c : Call) :
    ∃ f' phase, f.call? e.machine e.limits c = some ((e.call c).1, f') ∧
      (e.call c).2 = e.inPhase phase ∧ f'.Represents e.machine phase := by
  cases c with
  | status => exact ⟨f, e.phase, by rw [Fields.call?, h.status_eq]; rfl, rfl, h⟩
  | verdict => exact ⟨f, e.phase, by rw [Fields.call?, h.verdict?_eq]; rfl, rfl, h⟩
  | next =>
    obtain ⟨f', phase, hnext, he, hf'⟩ := h.follows
    exact ⟨f', phase, by rw [Fields.call?, hnext]; rfl, he, hf'⟩

/-- Kept in fields, an execution answers every sequence of calls as it does kept in its phase. -/
theorem answers?_eq (h : f.Represents e.machine e.phase) (calls : List Call) :
    f.answers? e.machine e.limits calls = some (e.answers calls) := by
  induction calls generalizing e f with
  | nil => rfl
  | cons c rest ih =>
    obtain ⟨f', phase, hcall, he, hf'⟩ := h.exists_call c
    have hrest : f'.answers? e.machine e.limits rest =
        some ((e.inPhase phase).answers rest) := ih (e := e.inPhase phase) hf'
    rw [Fields.answers?, hcall, Option.bind_some, hrest, Execution.answers, he]
    rfl

/-- What an execution hands out is handed out by its fields, which then have its verdict. -/
theorem drains {entries : List TraceEntry} {v : Verdict} {explored : Nat}
    (hy : e.Yields entries v explored) (h : f.Represents e.machine e.phase) :
    ∃ f', Drains e.machine e.limits f entries f' ∧ f'.verdict? = some v ∧
      f'.explored = explored := by
  induction hy generalizing f with
  | @halts e v explored hnone hv hcount =>
    obtain ⟨f', phase, hnext, he, hf'⟩ := h.follows
    rw [hnone] at hnext
    rw [he] at hv hcount
    exact ⟨f', .ends hnext, (verdict?_eq (e := e.inPhase phase) hf').trans hv,
      (explored_eq (e := e.inPhase phase) hf').trans hcount⟩
  | @hands e x rest v explored hx _ ih =>
    obtain ⟨f', phase, hnext, he, hf'⟩ := h.follows
    rw [hx] at hnext
    rw [he] at ih
    obtain ⟨f'', hdrains, hend⟩ := ih hf'
    exact ⟨f'', .hands hnext hdrains, hend⟩

end Represents

end Fields

end Execution

/-- Draining an execution that is kept in fields gives the run: the entries of its trace are handed
out, and then the verdict is there and the number of configurations. -/
def Machine.Executes (m : Machine) (limits : Limits) (r : Run) : Prop :=
  ∃ f, Execution.Fields.Drains m limits {} r.trace.entries f ∧ f.verdict? = some r.verdict ∧
    f.explored = r.explored

/-- Every run is what an execution gives that is kept in fields. -/
theorem Machine.executes_run (m : Machine) (limits : Limits) : m.Executes limits (m.run limits) :=
  Execution.Fields.Represents.drains (Execution.yields_execute m limits) .ready

/-- Kept in fields, a fresh execution answers every sequence of calls, and answers it as the run
says. -/
theorem Execution.Fields.answers?_fresh (m : Machine) (limits : Limits)
    (calls : List Execution.Call) :
    Execution.Fields.answers? m limits {} calls = some ((m.execute limits).answers calls) :=
  Execution.Fields.Represents.answers?_eq (e := m.execute limits) .ready calls

end TapeMachine
