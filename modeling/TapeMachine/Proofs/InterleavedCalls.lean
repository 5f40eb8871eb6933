import TapeMachine.Proofs.LazyExecution

/-!
# Interleaved calls of an execution

An execution may be asked for its next entry, for its status and for its verdict, in any order and
as often as one likes. What it answers depends on the run and on how often `next` was called before,
and on nothing else: the entries of the run come first, then nothing, and the execution is ready
before the first of these calls, halted after one that found nothing and running in between.
-/

namespace TapeMachine

namespace Execution

inductive Call where
  | next
  | status
  | verdict
  deriving DecidableEq

inductive Answer where
  | entry (entry : Option TraceEntry)
  | status (status : Status)
  | verdict (verdict : Option Verdict)
  deriving DecidableEq

/-- The answer to a call, and the execution after it. -/
def call (e : Execution) : Call → Answer × Execution
  | .next => (.entry e.next.1, e.next.2)
  | .status => (.status e.status, e)
  | .verdict => (.verdict e.verdict?, e)

/-- The answers to calls that are made one after the other. -/
def answers : Execution → List Call → List Answer
  | _, [] => []
  | e, call :: rest => (e.call call).1 :: (e.call call).2.answers rest

/-- The execution after the calls. -/
def after : Execution → List Call → Execution
  | e, [] => e
  | e, call :: rest => (e.call call).2.after rest

/-- A fresh execution of the same machine within the same limits. -/
def restart (e : Execution) : Execution := e.machine.execute e.limits

end Execution

namespace Run

open Execution (Call Answer)

/-- The status of an execution of the run after a number of calls of `next`. -/
def statusAfter (r : Run) (k : Nat) : Status :=
  if k = 0 then .ready else if k ≤ r.trace.length then .running else .halted r.verdict

/-- The answer to a call after a number of calls of `next`. -/
def answerAfter (r : Run) (k : Nat) : Call → Answer
  | .next => .entry r.trace.entries[k]?
  | .status => .status (r.statusAfter k)
  | .verdict => .verdict (if k ≤ r.trace.length then none else some r.verdict)

private theorem statusAfter_succ_eq_halted_iff {r : Run} {k : Nat} :
    r.statusAfter (k + 1) = .halted r.verdict ↔ r.trace.length ≤ k := by
  rw [statusAfter, if_neg (Nat.succ_ne_zero k)]
  split_ifs with h
  · exact iff_of_false nofun (Nat.not_le_of_lt h)
  · exact iff_of_true rfl (by omega)

end Run

namespace Execution

variable {e : Execution} {r : Run} {k : Nat}

/-- Only a halted execution has a verdict. -/
theorem verdict?_eq_some_iff {v : Verdict} : e.verdict? = some v ↔ e.status = .halted v := by
  obtain ⟨m, limits, phase⟩ := e
  cases phase <;> simp [verdict?, status]

/-- What a call of `next` may do: it hands out an entry and the execution runs, or it hands out
nothing and the execution is halted. -/
inductive Moves (e : Execution) : Option TraceEntry × Execution → Prop where
  | runs (x : TraceEntry) {phase : Phase} (h : (e.inPhase phase).status = .running) :
      Moves e (some x, e.inPhase phase)
  | halts (v : Verdict) (explored : Nat) : Moves e (none, e.inPhase (.halted v explored))

private theorem moves_nextReplayed (e : Execution) (x : Exploration) (rest : List TraceEntry) :
    e.Moves (e.nextReplayed x rest) := by
  cases rest with
  | nil => exact .halts x.verdict x.explored
  | cons entry rest => exact .runs entry rfl

private theorem moves_nextStepped (e : Execution) (c : Configuration) (recorded explored : Nat) :
    e.Moves (e.nextStepped c recorded explored) := by
  rw [nextStepped]
  split
  · exact .halts ..
  · split
    · exact .halts ..
    · exact .runs _ rfl

private theorem moves_next (e : Execution) : e.Moves e.next := by
  obtain ⟨m, limits, phase⟩ := e
  cases phase with
  | halted v explored => exact .halts v explored
  | replaying x rest => exact moves_nextReplayed _ x rest
  | stepping c recorded explored => exact moves_nextStepped _ c recorded explored
  | ready =>
    rw [next]
    cases m.kind with
    | nondeterministic => exact moves_nextReplayed ..
    | deterministic => exact .runs _ rfl

private theorem status_next_of_some {x : TraceEntry} (h : e.next.1 = some x) :
    e.next.2.status = .running := by
  have hm := e.moves_next
  generalize e.next = result at h hm
  cases hm with
  | runs x hs => exact hs
  | halts v explored => cases h

/-- A call leaves the machine and the limits alone. -/
theorem restart_call (e : Execution) (c : Call) : (e.call c).2.restart = e.restart := by
  cases c with
  | next =>
    have hm := e.moves_next
    rw [call]
    generalize e.next = result at hm
    cases hm <;> rfl
  | status => rfl
  | verdict => rfl

private theorem restart_after (e : Execution) (calls : List Call)
    : (e.after calls).restart = e.restart := by
  induction calls generalizing e with
  | nil => rfl
  | cons c rest ih => rw [after, ih, restart_call]

/-- Nothing leaves a halt. -/
theorem next_of_halted {v : Verdict} (h : e.status = .halted v) : e.next = (none, e) := by
  obtain ⟨m, limits, phase⟩ := e
  cases phase with
  | halted v explored => rfl
  | _ => cases h

/-- The execution has handed out as many entries of the run as there were calls of `next`, as far as
there are any, and will hand out the others. -/
structure At (e : Execution) (r : Run) (k : Nat) : Prop where
  status : e.status = r.statusAfter k
  yields : e.Yields (r.trace.entries.drop k) r.verdict r.explored

private theorem at_execute (m : Machine) (limits : Limits)
    : (m.execute limits).At (m.run limits) 0 :=
  ⟨rfl, yields_execute m limits⟩

namespace At

theorem verdict?_eq (h : e.At r k) :
    e.verdict? = if k ≤ r.trace.length then none else some r.verdict := by
  have hs := h.status
  rw [Run.statusAfter] at hs
  by_cases hle : k ≤ r.trace.length
  · rw [if_pos hle, Option.eq_none_iff_forall_ne_some]
    intro v hv
    rw [verdict?_eq_some_iff.mp hv, if_pos hle] at hs
    split_ifs at hs
  · rw [if_neg hle]
    refine verdict?_eq_some_iff.mpr (hs.trans ?_)
    rw [if_neg (by omega), if_neg hle]

/-- A call of `next` hands out the entry whose turn it is. -/
theorem next (h : e.At r k) : e.next.1 = r.trace.entries[k]? ∧ e.next.2.At r (k + 1) := by
  have hy := h.yields
  generalize hd : r.trace.entries.drop k = rest at hy
  have hlen : r.trace.length - k = rest.length := by rw [← hd, List.length_drop]; rfl
  have hget : rest.head? = r.trace.entries[k]? := by rw [← hd, List.head?_drop]
  have htail : r.trace.entries.drop (k + 1) = rest.tail := by rw [← hd, List.tail_drop]
  -- the turn is past the entries exactly when the execution halts now or has halted before
  cases hy with
  | @hands _ x rest _ _ hx hr =>
    rw [List.length_cons] at hlen
    refine ⟨hx.trans hget, ?_, htail ▸ hr⟩
    rw [status_next_of_some hx, Run.statusAfter, if_neg (Nat.succ_ne_zero k), if_pos (by omega)]
  | halts hnone hv hcount =>
    have hs := verdict?_eq_some_iff.mp hv
    rw [List.length_nil] at hlen
    refine ⟨hnone.trans hget, ?_, ?_⟩
    · exact hs.trans (Run.statusAfter_succ_eq_halted_iff.mpr (by omega)).symm
    · rw [htail]
      exact .halts (by rw [next_of_halted hs]) (by rw [next_of_halted hs, hv])
        (by rw [next_of_halted hs, hcount])

/-- Every call is answered as the run says, and only `next` counts. -/
theorem call (h : e.At r k) (c : Call) : (e.call c).1 = r.answerAfter k c ∧
    (e.call c).2.At r (k + [c].count .next) := by
  cases c with
  | next => exact ⟨congrArg Answer.entry h.next.1, h.next.2⟩
  | status => exact ⟨congrArg Answer.status h.status, h⟩
  | verdict => exact ⟨congrArg Answer.verdict h.verdict?_eq, h⟩

theorem after (h : e.At r k) (calls : List Call) :
    (e.after calls).At r (k + calls.count .next) := by
  induction calls generalizing e k with
  | nil => exact h
  | cons c rest ih =>
    have hrest := ih (h.call c).2
    rwa [Nat.add_assoc, ← List.count_append] at hrest

theorem answers (h : e.At r k) (calls : List Call) :
    e.answers calls = calls.mapIdx fun i c => r.answerAfter (k + (calls.take i).count .next) c := by
  induction calls generalizing e k with
  | nil => rfl
  | cons c rest ih =>
    obtain ⟨hanswer, hat⟩ := h.call c
    rw [Execution.answers, hanswer, ih hat, List.mapIdx_cons]
    simp only [Nat.add_assoc, ← List.count_append]
    rfl

end At

/-- An execution is the run, whatever the calls. A call is answered by what the run has for it after
as many calls of `next` as came before; a call of `next` finds nothing exactly if it leaves the
execution halted; and a fresh execution that follows an abandoned one starts from the beginning. -/
theorem answers_execute (m : Machine) (limits : Limits) (calls : List Call) :
    (m.execute limits).answers calls =
        calls.mapIdx (fun i c => (m.run limits).answerAfter ((calls.take i).count .next) c) ∧
      (((m.execute limits).after calls).next.1 = none ↔
        ((m.execute limits).after calls).next.2.status = .halted (m.run limits).verdict) ∧
      ((m.execute limits).after calls).restart = m.execute limits := by
  have hat := at_execute m limits
  refine ⟨?_, ?_, restart_after _ calls⟩
  · simpa only [Nat.zero_add] using hat.answers calls
  · obtain ⟨hnext, hafter⟩ := (hat.after calls).next
    rw [hnext, hafter.status, Run.statusAfter_succ_eq_halted_iff]
    exact List.getElem?_eq_none_iff

end Execution

end TapeMachine
