import TapeMachine.Proofs.DecidedVerdict

/-!
# The verdict of a bounded exploration

Which verdict an exploration gives when its tree may have a node for everything that is reached
within the depth of the limits. It depends on the computations alone: on whether one of them accepts
within the depth, whether one goes on below it, and whether one rejects, in this order.
-/

namespace TapeMachine

namespace Machine

/-- Some computation of at most the given number of configurations ends in an accepting state. -/
def AcceptsWithin (m : Machine) (length : Nat) : Prop :=
  ∃ n c, n + 1 ≤ length ∧ m.Reaches n c ∧ m.definition.isAccepting c.state = true

/-- Some computation of exactly the given number of configurations goes on. -/
def Outlasts (m : Machine) (length : Nat) : Prop :=
  ∃ n c, n + 1 = length ∧ m.Reaches n c ∧ (m.step c).successors ≠ []

/-- Some computation ends in a rejecting state. -/
def Rejects (m : Machine) : Prop :=
  ∃ n c, m.Reaches n c ∧ m.definition.isRejecting c.state = true

variable {m : Machine} {limits : Limits}

/-- A tree has no more nodes than there are configurations within the depth of the limits. -/
theorem explored_le_ncard (m : Machine) (limits : Limits) :
    (m.explore limits).explored ≤ (m.reached limits.depth).ncard := by
  have hsound := (m.explored_tree limits).sound
  have hsub : ∀ k ∈ (Tree.keys (m.tree limits).nodes).toFinset, k ∈ m.reached limits.depth := by
    intro k hk
    obtain ⟨n, hn, rfl⟩ := Tree.mem_keys.mp (List.mem_toFinset.mp hk)
    exact ⟨hsound.step_lt hn, _, hsound.grown.reaches hn, rfl⟩
  calc (m.explore limits).explored
      = (Tree.keys (m.tree limits).nodes).length := by simp [explore, Tree.keys]
    _ = (Tree.keys (m.tree limits).nodes).toFinset.card :=
        (List.toFinset_card_of_nodup hsound.nodup).symm
    _ ≤ (m.reached limits.depth).ncard := by
        rw [← Set.ncard_coe_finset]
        exact Set.ncard_le_ncard hsub (m.finite_reached _)

/-- A tree that was not stopped has no fewer nodes either. -/
theorem ncard_le_explored (hs : (m.tree limits).stop = none) :
    (m.reached limits.depth).ncard ≤ (m.explore limits).explored := by
  have hsub : m.reached limits.depth ⊆ (Tree.keys (m.tree limits).nodes).toFinset := by
    rintro ⟨k, a⟩ ⟨hk, c, hc, rfl⟩
    obtain ⟨node, hn, rfl, hequiv⟩ := (m.explored_tree limits).covers hs hc hk
    exact List.mem_toFinset.mpr (Tree.mem_keys.mpr ⟨node, hn, Prod.ext rfl (Eq.symm hequiv)⟩)
  calc (m.reached limits.depth).ncard
      ≤ (Tree.keys (m.tree limits).nodes).toFinset.card := by
        rw [← Set.ncard_coe_finset]
        exact Set.ncard_le_ncard hsub (Finset.finite_toSet _)
    _ ≤ (Tree.keys (m.tree limits).nodes).length := List.toFinset_card_le _
    _ = (m.explore limits).explored := by simp [explore, Tree.keys]

section Roomy

variable (h : (m.reached limits.depth).ncard < limits.maxConfigurations)

include h

theorem explored_lt_maxConfigurations : (m.explore limits).explored < limits.maxConfigurations :=
  Nat.lt_of_le_of_lt (m.explored_le_ncard limits) h

/-- With room for every configuration only an accepting node stops the tree early. -/
theorem stop_eq_none_of_ne_accepted (hv : (m.explore limits).verdict ≠ .accepted) :
    (m.tree limits).stop = none :=
  stop_eq_none_of_capped (capped_eq_false_of_lt (explored_lt_maxConfigurations h)) hv

theorem verdict_eq_accepted_iff :
    (m.explore limits).verdict = .accepted ↔ m.AcceptsWithin limits.depth := by
  constructor
  · intro hv
    obtain ⟨n, c, hn, hc, he⟩ := m.exists_reaches_explore limits
    rw [hv] at he
    exact ⟨n, c, hn, hc, step_eq_accept_iff.mp (Step.ending_eq_accepted_iff.mp he)⟩
  · rintro ⟨n, c, hn, hc, ha⟩
    by_contra hv
    have hend : (m.step c).ending = .accepted :=
      Step.ending_eq_accepted_iff.mpr (step_eq_accept_iff.mpr ha)
    have hle := rank_le_ending (stop_eq_none_of_ne_accepted h hv) hc hn (by simp [hend])
    rw [hend] at hle
    exact hv (Verdict.rank_injective (Nat.le_zero.mp hle))

private theorem verdict_eq_timeout_iff : (m.explore limits).verdict = .timeout ↔
    ¬ m.AcceptsWithin limits.depth ∧ m.Outlasts limits.depth := by
  rw [← verdict_eq_accepted_iff h]
  constructor
  · intro hv
    obtain ⟨n, c, hc, hne, hcut⟩ := exists_cut_of_timeout hv
    have hn : n + 1 = limits.depth :=
      hcut.resolve_right (Nat.not_le_of_lt (explored_lt_maxConfigurations h))
    exact ⟨by simp [hv], n, c, hn, hc, hne⟩
  · rintro ⟨hv, n, c, hn, hc, hne⟩
    have hend : (m.step c).ending = .timeout := Step.ending_eq_timeout_iff.mpr hne
    have hle := rank_le_ending (stop_eq_none_of_ne_accepted h hv) hc (by omega) fun _ => hn
    rw [hend] at hle
    by_contra ht
    exact absurd (Verdict.one_lt_rank hv ht) (Nat.not_lt_of_le hle)

theorem verdict_eq_rejected_iff : (m.explore limits).verdict = .rejected ↔
    ¬ m.AcceptsWithin limits.depth ∧ ¬ m.Outlasts limits.depth ∧ m.Rejects := by
  constructor
  · intro hv
    have hna : ¬ m.AcceptsWithin limits.depth := fun ha => by
      simp [(verdict_eq_accepted_iff h).mpr ha] at hv
    refine ⟨hna, fun ho => ?_, ?_⟩
    · simp [(verdict_eq_timeout_iff h).mpr ⟨hna, ho⟩] at hv
    · obtain ⟨n, c, -, hc, he⟩ := m.exists_reaches_explore limits
      rw [hv] at he
      exact ⟨n, c, hc, (step_eq_reject_iff.mp (Step.ending_eq_rejected_iff.mp he)).2⟩
  · rintro ⟨hna, hno, n, c, hc, hr⟩
    have hrank : 1 < (m.explore limits).verdict.rank :=
      Verdict.one_lt_rank (fun hv => hna ((verdict_eq_accepted_iff h).mp hv))
        fun hv => hno ((verdict_eq_timeout_iff h).mp hv).2
    have hn : n < limits.depth := lt_depth_of_rank hrank hc
    have ha : m.definition.isAccepting c.state = false :=
      Bool.eq_false_iff.mpr fun ha => hna ⟨n, c, hn, hc, ha⟩
    have hstep : m.step c = .halt .reject := step_eq_reject_iff.mpr ⟨ha, hr⟩
    have hle : (m.explore limits).verdict.rank ≤ 2 := by
      have := rank_le_ending_of_rank hrank hc (by rw [hstep]; rfl)
      rwa [Step.ending_eq_rejected_iff.mpr hstep] at this
    exact Verdict.rank_injective (Nat.le_antisymm hle hrank)

end Roomy

/-- With room for more configurations than are reached within the depth, an exploration accepts if
and only if a computation accepts within the depth; otherwise it times out if and only if one goes
on below the depth; otherwise it rejects if and only if one rejects; otherwise it halts. -/
theorem explore_verdict_iff (m : Machine) (limits : Limits)
    (h : (m.reached limits.depth).ncard < limits.maxConfigurations) :
    ((m.explore limits).verdict = .accepted ↔ m.AcceptsWithin limits.depth) ∧
      ((m.explore limits).verdict = .timeout ↔
        ¬ m.AcceptsWithin limits.depth ∧ m.Outlasts limits.depth) ∧
      ((m.explore limits).verdict = .rejected ↔
        ¬ m.AcceptsWithin limits.depth ∧ ¬ m.Outlasts limits.depth ∧ m.Rejects) ∧
      ((m.explore limits).verdict = .haltedNonFinal ↔
        ¬ m.AcceptsWithin limits.depth ∧ ¬ m.Outlasts limits.depth ∧ ¬ m.Rejects) := by
  have ha := verdict_eq_accepted_iff h
  have ht := verdict_eq_timeout_iff h
  have hr := verdict_eq_rejected_iff h
  refine ⟨ha, ht, hr, ?_⟩
  cases hv : (m.explore limits).verdict <;> simp only [hv] at ha ht hr <;> tauto

end Machine

/-- Guesses where a unary numeral ends, and rejects where it does. -/
def Definition.guesser : Definition where
  name := "guess"
  kind := .nondeterministic
  inputAlphabet := ['1']
  startState := "guess"
  acceptStates := ["yes"]
  rejectStates := ["no"]
  rules := ⟨[("guess", [⟨'1', '1', .right, "guess"⟩, ⟨'1', '1', .right, "check"⟩]),
    ("check", [⟨'1', '1', .stay, "yes"⟩, ⟨'_', '_', .stay, "no"⟩])], by decide⟩

/-- The guessing machine on the numeral of one. -/
def Machine.guessing : Machine where
  definition := .guesser
  input := "1"
  table := Definition.guesser.compile
  table_eq := rfl
  valid := by decide +kernel
  fits := by decide +kernel

/-- One branch rejects just within the limits and the other one halts before. -/
theorem Machine.explore_verdict_iff_guessing : (guessing.reached 3).ncard < 5 ∧
    (guessing.explore { maxSteps := 3, maxConfigurations := 5 }).verdict = .rejected := by
  have hroom : (guessing.reached 3).ncard < 5 :=
    Nat.lt_of_le_of_lt (guessing.ncard_reached_le 3) (by decide +kernel)
  have haccept : ∀ n < 3, ∀ c ∈ guessing.frontier n,
      guessing.definition.isAccepting c.state = false := by decide +kernel
  have hstuck : ∀ c ∈ guessing.frontier 2, (guessing.definition.step c).successors = [] := by
    decide +kernel
  have hreject : ∃ c ∈ guessing.frontier 2, guessing.definition.isRejecting c.state = true := by
    decide +kernel
  refine ⟨hroom, (explore_verdict_iff guessing { maxSteps := 3, maxConfigurations := 5 }
    hroom).2.2.1.mpr ⟨?_, ?_, ?_⟩⟩
  · rintro ⟨n, c, hn, hc, ha⟩
    rw [haccept n hn c (mem_frontier.mpr hc)] at ha
    cases ha
  · rintro ⟨n, c, hn, hc, hne⟩
    obtain rfl : n = 2 := Nat.succ.inj hn
    rw [step_eq] at hne
    exact hne (hstuck c (mem_frontier.mpr hc))
  · obtain ⟨c, hc, hr⟩ := hreject
    exact ⟨2, c, mem_frontier.mp hc, hr⟩

end TapeMachine
