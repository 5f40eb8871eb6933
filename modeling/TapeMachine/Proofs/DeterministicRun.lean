import TapeMachine.Proofs.ExecutionFields

/-!
# Runs of deterministic machines

A deterministic machine can be followed step by step, explored, or declared nondeterministic and
explored then. All three give the same run as long as the tree may have as many nodes as a trace
may have entries, although the two kinds have tables of their own: a well-formed definition has one
action at most for a state and a symbol, so both tables hold the same actions.
-/

namespace TapeMachine

namespace Machine

variable {m m' : Machine} {limits : Limits}

/-- The verdict of a step depends on the state alone. -/
theorem verdict_step (m : Machine) (c : Configuration) :
    (m.step c).verdict = (m.haltingState? c.state).elim .haltedNonFinal Halt.verdict := by
  unfold step
  cases m.haltingState? c.state with
  | some reason => rfl
  | none =>
    cases m.table with
    | single table => cases h : table[(c.state, c.symbol)]? <;> simp [h, Step.verdict, Halt.verdict]
    | several table => rfl

/-- One action at most for a state and a symbol means one successor at most. -/
theorem linear_of_length_actions_le_one
    (h : ∀ q a, (m.definition.actions q a).length ≤ 1) : m.Linear := by
  intro c
  rw [successors_step]
  split_ifs
  · rw [List.length_map]
    exact h _ _
  · exact Nat.zero_le _

private theorem linear_of_kind (hk : m.kind = .deterministic) : m.Linear :=
  linear_of_length_actions_le_one (Definition.length_actions_le_one m.valid hk)

/-- Following a computation depends on the successors and verdicts of the steps alone. -/
theorem follow_congr (hs : ∀ c, (m'.step c).successors = (m.step c).successors)
    (hv : ∀ c, (m'.step c).verdict = (m.step c).verdict) (room recorded explored : Nat)
    (c : Configuration) (entries : List TraceEntry) :
    m'.follow room recorded explored c entries = m.follow room recorded explored c entries := by
  induction room generalizing recorded explored c entries with
  | zero =>
    cases hsucc : (m.step c).successors with
    | nil => rw [follow_of_nil hsucc, follow_of_nil ((hs c).trans hsucc), hv]
    | cons s rest => rw [follow_zero_of_cons hsucc, follow_zero_of_cons ((hs c).trans hsucc)]
  | succ room ih =>
    cases hsucc : (m.step c).successors with
    | nil => rw [follow_of_nil hsucc, follow_of_nil ((hs c).trans hsucc), hv]
    | cons s rest =>
      rw [follow_succ_of_cons hsucc, follow_succ_of_cons ((hs c).trans hsucc), ih]

/-- A deterministic run is the exploration of the machine with room for a whole trace. -/
theorem run_eq_explore_of_kind (hk : m.kind = .deterministic)
    (hcap : limits.depth ≤ limits.maxConfigurations) :
    m.run limits = (m.explore limits).run := by
  rw [run_explore_of_linear (linear_of_kind hk) hcap, run_of_deterministic hk]

/-- A deterministic run does not depend on the limit on the number of nodes. -/
theorem run_eq_explore_of_depth_le (hk : m.kind = .deterministic) {cap : Nat}
    (hcap : limits.depth ≤ cap) :
    m.run limits = (m.explore { limits with maxConfigurations := cap }).run := by
  have hrun : m.run limits = m.run { limits with maxConfigurations := cap } := by
    rw [run_of_deterministic hk, run_of_deterministic hk]
    rfl
  exact hrun.trans (run_eq_explore_of_kind hk hcap)

/-- Every run is that of an exploration with the same limit on the length of the trace. -/
theorem exists_run_eq_explore (m : Machine) (limits : Limits) :
    ∃ cap, m.run limits = (m.explore { limits with maxConfigurations := cap }).run := by
  cases hk : m.kind with
  | nondeterministic => exact ⟨limits.maxConfigurations, run_of_nondeterministic hk limits⟩
  | deterministic => exact ⟨limits.depth, run_eq_explore_of_depth_le hk (Nat.le_refl _)⟩

/-- The trace of a run records a computation, and its verdict is on where that ends. -/
theorem exists_records_run (m : Machine) (limits : Limits) :
    ∃ c, m.Records (m.run limits).trace.entries c ∧
      (m.step c).ending = (m.run limits).verdict := by
  obtain ⟨cap, hrun⟩ := m.exists_run_eq_explore limits
  obtain ⟨_, n, -, -, he, hrecords, -⟩ :=
    m.explore_recorded { limits with maxConfigurations := cap }
  rw [hrun]
  exact ⟨n.entry.configuration, hrecords, he⟩

end Machine

/-- The definition with its rules allowed to compete. -/
def Definition.competing (d : Definition) : Definition := { d with kind := .nondeterministic }

namespace Machine

variable {m m' : Machine} {limits : Limits}

/-- A definition that can be loaded can be loaded with its rules allowed to compete. -/
theorem load_competing {d : Definition} {w : String} (h : load d w = .ok m) :
    ∃ m', load d.competing w = .ok m' := by
  obtain ⟨rfl, rfl⟩ := load_eq_ok_iff.mp h
  obtain ⟨h1, h2, h3, h4, h5, -, h7⟩ := (Definition.validate_eq_ok_iff _).mp m.valid
  have hvalid : m.definition.competing.validate = .ok () :=
    (Definition.validate_eq_ok_iff _).mpr ⟨h1, h2, h3, h4, h5, rfl, h7⟩
  exact ⟨_, load_eq
    { definition := m.definition.competing
      input := m.input
      table := m.definition.competing.compile
      table_eq := rfl
      valid := hvalid
      fits := m.fits }⟩

private theorem runDirectly_competing (hd : m'.definition = m.definition.competing)
    (hi : m'.input = m.input) : m'.runDirectly limits = m.runDirectly limits := by
  have hhalt (q : State) : m'.haltingState? q = m.haltingState? q := by
    rw [haltingState?, haltingState?, hd]
    rfl
  have hsucc (c : Configuration) : (m'.step c).successors = (m.step c).successors := by
    rw [successors_step, successors_step, hhalt, hd]
    rfl
  have hverdict (c : Configuration) : (m'.step c).verdict = (m.step c).verdict := by
    rw [verdict_step, verdict_step, hhalt]
  have hstart : m'.start = m.start := by
    rw [start, start, hd, hi]
    rfl
  have hentry : m'.startEntry = m.startEntry := by rw [startEntry, startEntry, hstart]
  rw [runDirectly, runDirectly, follow_congr hsucc hverdict, hstart, hentry]

/-- Three ways of running a deterministic machine agree: stepping it on demand, exploring it, and
running it with its rules allowed to compete. The counter of the first is kept step by step, and the
others count the nodes of a tree. -/
theorem deterministic_runs_agree (limits : Limits) {d : Definition} {w : String}
    (h : load d w = .ok m) (hk : d.kind = .deterministic)
    (hcap : limits.depth ≤ limits.maxConfigurations) :
    (m.execute limits).Yields (m.run limits).trace.entries (m.run limits).verdict
        (m.run limits).explored ∧
      m.Executes limits (m.run limits) ∧
      (m.explore limits).run = m.run limits ∧
      ∃ m', load { d with kind := .nondeterministic } w = .ok m' ∧
        m'.run limits = m.run limits := by
  obtain ⟨m', hm'⟩ := load_competing h
  obtain ⟨rfl, rfl⟩ := load_eq_ok_iff.mp h
  obtain ⟨hd, hi⟩ := load_eq_ok_iff.mp hm'
  refine ⟨Execution.yields_execute m limits, m.executes_run limits,
    (run_eq_explore_of_kind hk hcap).symm, m', hm', ?_⟩
  have hkind : m'.kind = .nondeterministic := by
    rw [kind, hd]
    rfl
  have hlinear : m'.Linear := linear_of_length_actions_le_one fun q a => by
    rw [hd]
    exact Definition.length_actions_le_one m.valid hk q a
  calc m'.run limits
      = (m'.explore limits).run := by rw [run, hkind]
    _ = m'.runDirectly limits := run_explore_of_linear hlinear hcap
    _ = m.runDirectly limits := runDirectly_competing hd hi
    _ = m.run limits := by rw [run, show m.kind = .deterministic from hk]

end Machine

/-- Moves right over a unary numeral and accepts behind it. -/
def Definition.scanner : Definition where
  name := "scan"
  inputAlphabet := ['1']
  startState := "scan"
  acceptStates := ["end"]
  rules := ⟨[("scan", [⟨'1', '1', .right, "scan"⟩, ⟨'_', '_', .stay, "end"⟩])], by decide⟩

/-- The scanning machine on the numeral of two. -/
def Machine.scanning : Machine where
  definition := .scanner
  input := "11"
  table := Definition.scanner.compile
  table_eq := rfl
  valid := by decide +kernel
  fits := by decide +kernel

theorem Machine.deterministic_runs_agree_scanning :
    load .scanner "11" = .ok scanning ∧ Definition.scanner.kind = .deterministic ∧
      Limits.depth { maxSteps := 4, maxConfigurations := 4 } ≤ 4 ∧
      scanning.Executes { maxSteps := 4, maxConfigurations := 4 }
        (scanning.run { maxSteps := 4, maxConfigurations := 4 }) ∧
      (scanning.explore { maxSteps := 4, maxConfigurations := 4 }).run =
        scanning.run { maxSteps := 4, maxConfigurations := 4 } ∧
      ∃ m', load { Definition.scanner with kind := .nondeterministic } "11" = .ok m' ∧
        m'.run { maxSteps := 4, maxConfigurations := 4 } =
          scanning.run { maxSteps := 4, maxConfigurations := 4 } :=
  ⟨scanning.load_eq, rfl, by decide, (deterministic_runs_agree
    { maxSteps := 4, maxConfigurations := 4 } scanning.load_eq rfl (by decide)).2⟩

end TapeMachine
