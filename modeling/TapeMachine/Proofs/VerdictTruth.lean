import TapeMachine.Proofs.DeterministicRun

/-!
# Verdicts are true of the unbounded machine

A verdict is found by looking at a bounded part of the computations, but what it says is about all
of them, however long they are. Only a timeout says nothing: a branch that was cut off beats
rejecting and halting, so these two are given only when every computation has been followed to its
end.
-/

namespace TapeMachine

/-- What a verdict says about the computations of a machine. -/
def Verdict.TrueOf (m : Machine) : Verdict → Prop
  | .accepted => ∃ n c, m.Reaches n c ∧ m.definition.isAccepting c.state = true
  | .timeout => True
  | .rejected => ¬ m.Endless ∧
      (∀ n c, m.Reaches n c → m.definition.isAccepting c.state = false) ∧
      ∃ n c, m.Reaches n c ∧ m.definition.isRejecting c.state = true
  | .haltedNonFinal => ¬ m.Endless ∧
      ∀ n c, m.Reaches n c → (m.step c).successors = [] →
        m.definition.isAccepting c.state = false ∧ m.definition.isRejecting c.state = false

namespace Machine

variable {m : Machine} {limits : Limits} {n : Nat} {c : Configuration}

/-- The ending of a computation in an accepting state comes before all others. -/
theorem ending_of_isAccepting (h : m.definition.isAccepting c.state = true) :
    (m.step c).successors = [] ∧ (m.step c).ending = .accepted := by
  rw [step_eq_accept_iff.mpr h]
  exact ⟨rfl, rfl⟩

/-- Whoever halts without a verdict is in a state that neither accepts nor rejects. -/
theorem not_isFinal_of_ending (h : (m.step c).ending = .haltedNonFinal) :
    m.definition.isAccepting c.state = false ∧ m.definition.isRejecting c.state = false := by
  have ha : m.definition.isAccepting c.state = false := by
    refine Bool.eq_false_iff.mpr fun ha => ?_
    rw [(ending_of_isAccepting ha).2] at h
    cases h
  refine ⟨ha, Bool.eq_false_iff.mpr fun hr => ?_⟩
  rw [step_eq_reject_iff.mpr ⟨ha, hr⟩] at h
  cases h

/-- The verdict of an exploration is true of the machine. -/
theorem trueOf_explore (m : Machine) (limits : Limits) : (m.explore limits).verdict.TrueOf m := by
  obtain ⟨n, c, -, hc, he⟩ := m.exists_reaches_explore limits
  generalize hv : (m.explore limits).verdict = v at he
  have hrank (h : 1 < v.rank) : 1 < (m.explore limits).verdict.rank := by rwa [hv]
  cases v with
  | accepted => exact ⟨n, c, hc, step_eq_accept_iff.mp (Step.ending_eq_accepted_iff.mp he)⟩
  | timeout => exact trivial
  | rejected =>
    have hr := hrank Nat.one_lt_two
    refine ⟨not_endless_of_lt fun _ _ => lt_depth_of_rank hr, ?_,
      n, c, hc, (step_eq_reject_iff.mp (Step.ending_eq_rejected_iff.mp he)).2⟩
    intro k d hd
    refine Bool.eq_false_iff.mpr fun ha => ?_
    obtain ⟨hnil, hend⟩ := ending_of_isAccepting ha
    have hle := rank_le_ending_of_rank hr hd hnil
    rw [hv, hend] at hle
    exact absurd hle (by decide)
  | haltedNonFinal =>
    have hr := hrank (by decide)
    refine ⟨not_endless_of_lt fun _ _ => lt_depth_of_rank hr, ?_⟩
    intro k d hd hnil
    apply not_isFinal_of_ending
    have hle := rank_le_ending_of_rank hr hd hnil
    rw [hv] at hle
    exact Verdict.rank_injective (Nat.le_antisymm (Verdict.rank_le_three _) hle)

/-- Whatever the limits, the verdicts of runs and explorations are true of the machine. -/
theorem verdict_trueOf (m : Machine) (limits : Limits) :
    (m.run limits).verdict.TrueOf m ∧ (m.explore limits).verdict.TrueOf m := by
  refine ⟨?_, m.trueOf_explore limits⟩
  obtain ⟨cap, hrun⟩ := m.exists_run_eq_explore limits
  rw [hrun]
  exact m.trueOf_explore { limits with maxConfigurations := cap }

end Machine

end TapeMachine
