import TapeMachine.Proofs.BoundedVerdict
import TapeMachine.Proofs.CapBoundary
import TapeMachine.Proofs.ShortestPath

/-!
# The order of rules does not matter

An exploration visits the branches of a computation in the order of the rules, and the order decides
which of several alike configurations becomes a node. What it reports in the end is characterised
without any order: the verdict and the length of the path belong to the ending that is decisive
within the depth of the limits, and unless the exploration accepts, the tree has a node for
everything that is reached within that depth. So definitions that differ only in the order and the
repetition of the rules of each state have runs with the same verdict and traces of the same length.
-/

namespace TapeMachine

/-- The definitions differ only in the order and the repetition of the rules of each state. -/
structure Definition.SameRules (d d' : Definition) : Prop where
  rest : d' = { d with rules := d'.rules }
  rules (q : State) (r : Rule) : r ∈ d'.rulesOf q ↔ r ∈ d.rulesOf q

private theorem Definition.SameRules.mem_actions {d d' : Definition} (h : d.SameRules d')
    {q : State} {x : Symbol} {a : Action} : a ∈ d'.actions q x ↔ a ∈ d.actions q x := by
  simp only [actions, List.mem_map, List.mem_filter, h.rules]

namespace Machine

/-- The machines have the same computations, and their endings are the same. -/
structure SameSteps (m m' : Machine) : Prop where
  start : m'.start = m.start
  successors (c : Configuration) (s : Successor) :
    s ∈ (m'.step c).successors ↔ s ∈ (m.step c).successors
  ending (c : Configuration) : (m'.step c).ending = (m.step c).ending

/-- Within a depth some computation of the given number of transitions ends with the verdict, where
a timeout stands for one that goes on below the depth. -/
def EndsAfter (m : Machine) (depth : Nat) (v : Verdict) (n : Nat) : Prop :=
  n < depth ∧ (v = .timeout → n + 1 = depth) ∧ ∃ c, m.Reaches n c ∧ (m.step c).ending = v

/-- Within a depth some computation ends in this way, and no ending decides before it: none has a
verdict that comes first, and none with the same verdict is shorter. -/
structure Decisive (m : Machine) (depth : Nat) (v : Verdict) (n : Nat) : Prop where
  ends : m.EndsAfter depth v n
  first {w : Verdict} {k : Nat} (h : m.EndsAfter depth w k) : v.rank < w.rank ∨ v = w ∧ n ≤ k

variable {m m' : Machine} {limits : Limits} {depth n k : Nat} {v w : Verdict} {c : Configuration}

theorem Decisive.unique (h : m.Decisive depth v n) (h' : m.Decisive depth w k) :
    v = w ∧ n = k := by
  rcases h.first h'.ends with hlt | ⟨rfl, hle⟩
  · rcases h'.first h.ends with hlt' | ⟨rfl, -⟩
    · omega
    · exact absurd hlt (Nat.lt_irrefl _)
  · rcases h'.first h.ends with hlt' | ⟨-, hle'⟩
    · exact absurd hlt' (Nat.lt_irrefl _)
    · exact ⟨rfl, Nat.le_antisymm hle hle'⟩

section Roomy

variable (h : (m.reached limits.depth).ncard < limits.maxConfigurations)

include h

/-- With room for everything that is reached within the depth an exploration finds the decisive
ending. -/
theorem decisive_explore : ∃ n, (m.explore limits).path.length = n + 1 ∧
    m.Decisive limits.depth (m.explore limits).verdict n := by
  obtain ⟨i, node, -, hn, he, -, hlen⟩ := m.explore_recorded limits
  have hsound := (m.explored_tree limits).sound
  have hmem := Array.mem_of_getElem? hn
  -- with room for everything only the depth cuts a branch off
  have hcut (hv : (m.explore limits).verdict = .timeout) : node.entry.step + 1 = limits.depth :=
    hlen ▸ length_path_of_timeout (explored_lt_maxConfigurations h) hv
  refine ⟨node.entry.step, hlen, ⟨hsound.step_lt hmem, hcut, _, hsound.grown.reaches hmem, he⟩, ?_⟩
  rintro w k ⟨hk, hcutw, c, hc, rfl⟩
  have hrank : (m.explore limits).verdict.rank ≤ (m.step c).ending.rank := by
    by_cases hv : (m.explore limits).verdict = .accepted
    · rw [hv]
      exact Nat.zero_le _
    · exact rank_le_ending (stop_eq_none_of_ne_accepted h hv) hc hk hcutw
  refine (Nat.lt_or_eq_of_le hrank).imp_right fun hr => ?_
  have hv := Verdict.rank_injective hr
  refine ⟨hv, ?_⟩
  by_cases ht : (m.explore limits).verdict = .timeout
  · have := hcut ht
    have := hcutw (hv.symm.trans ht)
    omega
  · have := length_path_le ht hc hv.symm
    omega

/-- Unless it accepts, it has exactly one node for each configuration that is reached. -/
theorem explored_eq_ncard (hv : (m.explore limits).verdict ≠ .accepted) :
    (m.explore limits).explored = (m.reached limits.depth).ncard :=
  Nat.le_antisymm (m.explored_le_ncard limits)
    (ncard_le_explored (stop_eq_none_of_ne_accepted h hv))

end Roomy

namespace SameSteps

theorem symm (h : m.SameSteps m') : m'.SameSteps m :=
  ⟨h.start.symm, fun c s => (h.successors c s).symm, fun c => (h.ending c).symm⟩

theorem reaches (h : m.SameSteps m') (hc : m.Reaches n c) : m'.Reaches n c := by
  induction hc with
  | start => exact h.start ▸ .start
  | next _ hs ih => exact ih.next ((h.successors _ _).mpr hs)

private theorem reached_eq (h : m.SameSteps m') (depth : Nat) :
    m'.reached depth = m.reached depth := by
  ext p
  exact and_congr_right fun _ => exists_congr fun c =>
    and_congr_left fun _ => ⟨h.symm.reaches, h.reaches⟩

private theorem endsAfter (h : m.SameSteps m') (he : m.EndsAfter depth v n) :
    m'.EndsAfter depth v n := by
  obtain ⟨hn, hcut, c, hc, rfl⟩ := he
  exact ⟨hn, hcut, c, h.reaches hc, h.ending c⟩

private theorem decisive (h : m.SameSteps m') (hd : m.Decisive depth v n) : m'.Decisive depth v n :=
  ⟨h.endsAfter hd.ends, fun he => hd.first (h.symm.endsAfter he)⟩

/-- Explorations of machines with the same computations agree in all that does not depend on an
order. -/
theorem explorations_agree (h : m.SameSteps m')
    (hroom : (m.reached limits.depth).ncard < limits.maxConfigurations) :
    (m'.explore limits).verdict = (m.explore limits).verdict ∧
      (m'.explore limits).path.length = (m.explore limits).path.length ∧
      ((m.explore limits).verdict ≠ .accepted →
        (m'.explore limits).explored = (m.explore limits).explored) := by
  have hroom' : (m'.reached limits.depth).ncard < limits.maxConfigurations := by
    rwa [h.reached_eq]
  obtain ⟨n, hlen, hd⟩ := decisive_explore hroom
  obtain ⟨n', hlen', hd'⟩ := decisive_explore hroom'
  obtain ⟨hv, rfl⟩ := hd'.unique (h.decisive hd)
  refine ⟨hv, hlen'.trans hlen.symm, fun hne => ?_⟩
  rw [explored_eq_ncard hroom hne, explored_eq_ncard hroom' (hv ▸ hne), h.reached_eq]

end SameSteps

/-- A step ends with the verdict on its state, unless something follows it. -/
theorem ending_congr (hs : (m'.step c).successors = [] ↔ (m.step c).successors = [])
    (hh : m'.haltingState? c.state = m.haltingState? c.state) :
    (m'.step c).ending = (m.step c).ending := by
  by_cases hnil : (m.step c).successors = []
  · rw [Step.ending_of_successors_eq_nil hnil, Step.ending_of_successors_eq_nil (hs.mpr hnil),
      verdict_step, verdict_step, hh]
  · rw [Step.ending_eq_timeout_iff.mpr hnil, Step.ending_eq_timeout_iff.mpr (mt hs.mp hnil)]

/-- Machines with the same rules and the same input have the same computations. -/
theorem sameSteps_of_sameRules (hr : m.definition.SameRules m'.definition)
    (hi : m'.input = m.input) : m.SameSteps m' := by
  have hhalt (q : State) : m'.haltingState? q = m.haltingState? q := by
    rw [haltingState?, haltingState?, hr.rest]
    rfl
  have hsucc (c : Configuration) (s : Successor) :
      s ∈ (m'.step c).successors ↔ s ∈ (m.step c).successors := by
    rw [successors_step, successors_step, hhalt]
    split_ifs
    · simp only [List.mem_map, hr.mem_actions]
    · rfl
  have hnil (c : Configuration) : (m'.step c).successors = [] ↔ (m.step c).successors = [] := by
    simp only [List.eq_nil_iff_forall_not_mem, hsucc]
  refine ⟨?_, hsucc, fun c => ending_congr (hnil c) (hhalt c.state)⟩
  rw [start, start, hi, hr.rest]

/-- Results combine independently of the order of rules. Two nondeterministic definitions that
differ only in the order and the repetition of the rules of each state have, on every input and with
room for more configurations than are reached within the depth, runs with the same verdict, traces
of the same length and, unless they accept, equally many explored configurations. -/
theorem run_of_sameRules (limits : Limits) {d d' : Definition} {input : String}
    (hk : d.kind = .nondeterministic) (hr : d.SameRules d') (h : load d input = .ok m)
    (h' : load d' input = .ok m')
    (hroom : (m.reached limits.depth).ncard < limits.maxConfigurations) :
    (m'.run limits).verdict = (m.run limits).verdict ∧
      (m'.run limits).trace.length = (m.run limits).trace.length ∧
      ((m.run limits).verdict ≠ .accepted →
        (m'.run limits).explored = (m.run limits).explored) := by
  obtain ⟨rfl, rfl⟩ := load_eq_ok_iff.mp h
  obtain ⟨rfl, hi⟩ := load_eq_ok_iff.mp h'
  have hk' : m'.kind = .nondeterministic := by
    rw [kind, hr.rest]
    exact hk
  rw [run_of_nondeterministic hk, run_of_nondeterministic hk']
  exact (sameSteps_of_sameRules hr hi).explorations_agree hroom

end Machine

/-- The guessing definition with its rules in another order, one of them listed twice. -/
def Definition.reguesser : Definition :=
  { Definition.guesser with
    rules := ⟨[("check", [⟨'_', '_', .stay, "no"⟩, ⟨'1', '1', .stay, "yes"⟩]),
      ("guess", [⟨'1', '1', .right, "check"⟩, ⟨'1', '1', .right, "guess"⟩,
        ⟨'1', '1', .right, "check"⟩])], by decide⟩ }

private theorem Definition.sameRules_reguesser : guesser.SameRules reguesser := by
  refine ⟨rfl, fun q r => ?_⟩
  by_cases hg : q = "guess"
  · subst hg
    change r ∈ [_, _, _] ↔ r ∈ [_, _]
    simp [or_comm]
  by_cases hc : q = "check"
  · subst hc
    change r ∈ [_, _] ↔ r ∈ [_, _]
    simp [or_comm]
  · have hg' : (q == "guess") = false := beq_eq_false_iff_ne.mpr hg
    have hc' : (q == "check") = false := beq_eq_false_iff_ne.mpr hc
    simp [rulesOf, Table.get?, guesser, reguesser, List.lookup_cons, hg', hc']

/-- The machine of that definition on the numeral of one. -/
def Machine.reguessing : Machine where
  definition := .reguesser
  input := "1"
  table := Definition.reguesser.compile
  table_eq := rfl
  valid := by decide +kernel
  fits := by decide +kernel

/-- One branch rejects just within the limits, whichever rule comes first. -/
theorem Machine.run_of_sameRules_guessing :
    Definition.guesser.kind = .nondeterministic ∧ Definition.guesser.SameRules .reguesser ∧
      load .guesser "1" = .ok guessing ∧ load .reguesser "1" = .ok reguessing ∧
      (guessing.reached 3).ncard < 5 ∧
      (guessing.run { maxSteps := 3, maxConfigurations := 5 }).verdict ≠ .accepted ∧
      (reguessing.run { maxSteps := 3, maxConfigurations := 5 }).verdict =
        (guessing.run { maxSteps := 3, maxConfigurations := 5 }).verdict ∧
      (reguessing.run { maxSteps := 3, maxConfigurations := 5 }).trace.length =
        (guessing.run { maxSteps := 3, maxConfigurations := 5 }).trace.length ∧
      (reguessing.run { maxSteps := 3, maxConfigurations := 5 }).explored =
        (guessing.run { maxSteps := 3, maxConfigurations := 5 }).explored := by
  have hroom : (guessing.reached 3).ncard < 5 :=
    Nat.lt_of_le_of_lt (guessing.ncard_reached_le 3) (by decide +kernel)
  have hstates : ∀ n < 3, ∀ c ∈ guessing.frontier n,
      guessing.definition.isAccepting c.state = false := by decide +kernel
  have haccepted : (guessing.explore { maxSteps := 3, maxConfigurations := 5 }).verdict =
      .accepted ↔ guessing.AcceptsWithin 3 := verdict_eq_accepted_iff hroom
  have hne : (guessing.run { maxSteps := 3, maxConfigurations := 5 }).verdict ≠ .accepted := by
    rw [run_of_nondeterministic rfl, Exploration.run, ne_eq, haccepted]
    rintro ⟨n, c, hn, hc, ha⟩
    rw [hstates n hn c (mem_frontier.mpr hc)] at ha
    cases ha
  obtain ⟨hverdict, hlength, hexplored⟩ :=
    run_of_sameRules { maxSteps := 3, maxConfigurations := 5 } rfl
      Definition.sameRules_reguesser guessing.load_eq reguessing.load_eq hroom
  exact ⟨rfl, Definition.sameRules_reguesser, guessing.load_eq, reguessing.load_eq, hroom, hne,
    hverdict, hlength, hexplored hne⟩

end TapeMachine
