import TapeMachine.Proofs.DeterministicRun

/-!
# Every run is its own certificate

The trace of a run can be checked without trusting whatever produced it: each entry follows from the
one before it by a step of the machine, and a look at the last configuration confirms the verdict.
Runs of deterministic machines are covered as explorations of a tree that is a single path.
-/

namespace TapeMachine

variable {m : Machine} {limits : Limits}

/-- The trace of a run is a computation of the machine, recorded entry by entry within the limits,
and the verdict is the one on its last configuration. -/
structure Run.Certified (m : Machine) (limits : Limits) (r : Run) : Prop where
  first : r.trace.entries[0]? = some { step := 0, transition := none, configuration := m.start }
  numbered {i : Nat} {e : TraceEntry} (h : r.trace.entries[i]? = some e) : e.step = i
  follows {i : Nat} {e e' : TraceEntry} (h : r.trace.entries[i]? = some e)
    (h' : r.trace.entries[i + 1]? = some e') : ∃ s ∈ (m.step e.configuration).successors,
      e'.transition = some s.transition ∧ e'.configuration = s.configuration
  length_le : r.trace.length ≤ max 1 limits.maxSteps
  replay : r.trace.replay = r.trace.last?
  verdict : ∃ c, r.trace.last? = some c ∧
    (r.verdict = .accepted ↔ m.step c = .halt .accept) ∧
    (r.verdict = .rejected ↔ m.step c = .halt .reject) ∧
    (r.verdict = .haltedNonFinal ↔ m.step c = .halt .noTransition ∨ m.step c = .branch []) ∧
    (r.verdict = .timeout ↔ (m.step c).successors ≠ [])

/-- A recorded computation certifies the ending of its last configuration. -/
theorem Machine.Records.certified {entries : List TraceEntry} {c : Configuration}
    (h : m.Records entries c) (hlen : entries.length ≤ limits.depth) (explored : Nat) :
    Run.Certified m limits { verdict := (m.step c).ending, trace := ⟨entries⟩, explored } where
  first := h.getElem?_zero
  numbered he := h.step_of_getElem? he
  follows he he' := h.follows he he'
  length_le := hlen
  replay := h.replay.trans h.last.symm
  verdict := ⟨c, h.last, Step.ending_eq_accepted_iff, Step.ending_eq_rejected_iff,
    Step.ending_eq_haltedNonFinal_iff, Step.ending_eq_timeout_iff⟩

namespace Machine

/-- The run of an exploration is certified, and the path is part of a tree within the limits. -/
theorem explore_certified (m : Machine) (limits : Limits) :
    (m.explore limits).run.Certified m limits ∧
      (m.explore limits).path.length ≤ (m.explore limits).explored ∧
      (m.explore limits).explored ≤ max 1 limits.maxConfigurations := by
  have hsound := (m.explored_tree limits).sound
  obtain ⟨i, n, -, hn, he, hl⟩ := m.explore_decided limits
  obtain ⟨n', hn', hr, hlen⟩ := hsound.grown.records hl
  obtain rfl : n = n' := Option.some.inj (hn.symm.trans hn')
  refine ⟨?_, ?_, hsound.size_le⟩
  · have hle : (m.explore limits).path.length ≤ limits.depth := by
      have := hsound.step_lt (Array.mem_of_getElem? hn)
      omega
    rw [Exploration.run, ← he]
    exact hr.certified hle _
  · have hi : i < (m.tree limits).nodes.size := (Array.getElem?_eq_some_iff.mp hn).1
    exact Nat.le_trans (hl.length_le hsound.grown.ordered) hi

/-- Every run is certified by its trace, the number of explored configurations is the length of the
trace or lies between it and the limit, some branch always decides an exploration, and an execution
hands out the run, whether it is kept in its phase or in fields. -/
theorem run_certified (m : Machine) (limits : Limits) :
    (m.run limits).Certified m limits ∧
      (match m.kind with
        | .deterministic => (m.run limits).explored = (m.run limits).trace.length
        | .nondeterministic => (m.run limits).trace.length ≤ (m.run limits).explored ∧
            (m.run limits).explored ≤ max 1 limits.maxConfigurations) ∧
      (m.settle (m.tree limits)).decide ≠ none ∧
      (m.execute limits).Yields (m.run limits).trace.entries (m.run limits).verdict
        (m.run limits).explored ∧
      m.Executes limits (m.run limits) := by
  refine ⟨?_, ?_, ?_, Execution.yields_execute m limits, m.executes_run limits⟩
  · obtain ⟨cap, hrun⟩ := m.exists_run_eq_explore limits
    obtain ⟨h, -⟩ := m.explore_certified { limits with maxConfigurations := cap }
    rw [hrun]
    exact ⟨h.first, h.numbered, h.follows, h.length_le, h.replay, h.verdict⟩
  · cases hk : m.kind with
    | deterministic =>
      rw [run_of_deterministic hk]
      exact m.explored_runDirectly limits
    | nondeterministic =>
      rw [run, hk]
      exact (m.explore_certified limits).2
  · exact Option.isSome_iff_ne_none.mp (m.isSome_decide_settle limits)

end Machine

end TapeMachine
