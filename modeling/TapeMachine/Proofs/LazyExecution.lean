import TapeMachine.Execution
import TapeMachine.Proofs.SinglePath

/-!
# Executions hand out the run

`Yields e entries v n` says what calling `next` on an execution does until it answers with nothing:
it hands out the entries in order and leaves the execution halted with the verdict, after `n`
configurations. A fresh execution of a machine yields its run, whether it is stepped on demand or
explored first.
-/

namespace TapeMachine

/-- The execution hands out the entries one after the other and then halts with the verdict, after
a number of configurations. -/
inductive Execution.Yields : Execution → List TraceEntry → Verdict → Nat → Prop where
  | halts {e : Execution} {v : Verdict} {explored : Nat} (h : e.next.1 = none)
      (hv : e.next.2.verdict? = some v) (he : e.next.2.explored = explored) :
      Yields e [] v explored
  | hands {e : Execution} {x : TraceEntry} {rest : List TraceEntry} {v : Verdict} {explored : Nat}
      (h : e.next.1 = some x) (hr : Yields e.next.2 rest v explored) :
      Yields e (x :: rest) v explored

namespace Execution

private theorem Yields.of_next_eq {e e' : Execution} {entries : List TraceEntry} {v : Verdict}
    {explored : Nat} (h : e'.Yields entries v explored) (he : e.next = e'.next) :
    e.Yields entries v explored := by
  cases h with
  | halts h hv hc =>
    rw [← he] at h hv hc
    exact .halts h hv hc
  | hands h hr =>
    rw [← he] at h hr
    exact .hands h hr

private theorem Yields.of_next_none {e : Execution} {v : Verdict} {explored : Nat} (e' : Execution)
    (h : e.next = (none, e'.inPhase (.halted v explored))) : e.Yields [] v explored :=
  .halts (by rw [h]) (by rw [h]; rfl) (by rw [h]; rfl)

private theorem Yields.of_next_some {e e' : Execution} {x : TraceEntry} {rest : List TraceEntry}
    {v : Verdict} {explored : Nat} (h : e.next = (some x, e')) (hr : e'.Yields rest v explored) :
    e.Yields (x :: rest) v explored :=
  .hands (by rw [h]) (by rw [h]; exact hr)

private theorem yields_replaying (e : Execution) (exploration : Exploration)
    (rest : List TraceEntry) :
    (e.inPhase (.replaying exploration rest)).Yields rest exploration.verdict
      exploration.explored := by
  induction rest with
  | nil => exact .of_next_none e rfl
  | cons x rest ih => exact .of_next_some rfl ih

section Stepping

variable {e : Execution} {c : Configuration} {recorded explored : Nat} {s : Successor}
  {rest : List Successor}

theorem next_stepping_of_nil (h : (e.machine.step c).successors = []) :
    (e.inPhase (.stepping c recorded explored)).next =
      (none, e.inPhase (.halted (e.machine.step c).verdict explored)) := by
  change (e.inPhase _).nextStepped c recorded explored = _
  simp only [nextStepped, inPhase, h]

theorem next_stepping_of_le (h : (e.machine.step c).successors = s :: rest)
    (hle : e.limits.maxSteps ≤ recorded) :
    (e.inPhase (.stepping c recorded explored)).next =
      (none, e.inPhase (.halted .timeout explored)) := by
  change (e.inPhase _).nextStepped c recorded explored = _
  simp only [nextStepped, inPhase, h]
  exact if_pos hle

theorem next_stepping_of_lt (h : (e.machine.step c).successors = s :: rest)
    (hlt : recorded < e.limits.maxSteps) :
    (e.inPhase (.stepping c recorded explored)).next =
      (some (s.entry recorded),
        e.inPhase (.stepping s.configuration (recorded + 1) (explored + 1))) := by
  change (e.inPhase _).nextStepped c recorded explored = _
  simp only [nextStepped, inPhase, h]
  exact if_neg (Nat.not_le_of_lt hlt)

end Stepping

/-- What following the computation adds to the entries recorded so far is handed out. -/
theorem yields_stepping (e : Execution) {room recorded explored : Nat} {c : Configuration}
    {entries : List TraceEntry} (hpos : 0 < recorded) (hroom : room = e.limits.depth - recorded) :
    ∃ rest, (e.machine.follow room recorded explored c entries).trace.entries =
        entries.reverse ++ rest ∧
      (e.inPhase (.stepping c recorded explored)).Yields rest
        (e.machine.follow room recorded explored c entries).verdict
        (e.machine.follow room recorded explored c entries).explored := by
  have hdepth : e.limits.depth = max 1 e.limits.maxSteps := rfl
  induction room generalizing recorded explored c entries with
  | zero =>
    cases hs : (e.machine.step c).successors with
    | nil =>
      rw [Machine.follow_of_nil hs]
      exact ⟨[], (List.append_nil _).symm, .of_next_none e (next_stepping_of_nil hs)⟩
    | cons s more =>
      rw [Machine.follow_zero_of_cons hs]
      exact ⟨[], (List.append_nil _).symm, .of_next_none e (next_stepping_of_le hs (by omega))⟩
  | succ room ih =>
    cases hs : (e.machine.step c).successors with
    | nil =>
      rw [Machine.follow_of_nil hs]
      exact ⟨[], (List.append_nil _).symm, .of_next_none e (next_stepping_of_nil hs)⟩
    | cons s more =>
      rw [Machine.follow_succ_of_cons hs]
      obtain ⟨rest, he, hy⟩ := ih (Nat.succ_pos recorded) (by omega)
      refine ⟨s.entry recorded :: rest, by rw [he]; simp, ?_⟩
      exact .of_next_some (next_stepping_of_lt hs (by omega)) hy

/-- A fresh execution hands out the trace of the run and ends with its verdict, after as many
configurations. -/
theorem yields_execute (m : Machine) (limits : Limits) :
    (m.execute limits).Yields (m.run limits).trace.entries (m.run limits).verdict
      (m.run limits).explored := by
  cases hk : m.kind with
  | nondeterministic =>
    have hnext : (m.execute limits).next = ((m.execute limits).inPhase
        (.replaying (m.explore limits) (m.explore limits).path)).next := by
      change _ = (Execution.inPhase _ _).nextReplayed _ _
      simp only [next, Machine.execute, hk]
      cases (m.explore limits).path <;> rfl
    rw [Machine.run_of_nondeterministic hk]
    exact (yields_replaying _ _ _).of_next_eq hnext
  | deterministic =>
    have hnext : (m.execute limits).next =
        (some m.startEntry, (m.execute limits).inPhase (.stepping m.start 1 1)) := by
      simp only [next, Machine.execute, hk]
    obtain ⟨rest, he, hy⟩ : ∃ rest,
        (m.runDirectly limits).trace.entries = [m.startEntry].reverse ++ rest ∧
        ((m.execute limits).inPhase (.stepping m.start 1 1)).Yields rest
          (m.runDirectly limits).verdict (m.runDirectly limits).explored :=
      yields_stepping (m.execute limits) Nat.zero_lt_one rfl
    rw [Machine.run_of_deterministic hk, he]
    exact .of_next_some hnext hy

end Execution

end TapeMachine
