import TapeMachine.Proofs.CreationOrder
import TapeMachine.Proofs.VerdictTruth

/-!
# The path of an exploration is a shortest one

The path records a computation that ends as the verdict says, and no shorter one does. A shorter one
would have left a node with the same ending on a level above, and the node that decides is the first
of its ending, also where the tree was full and the accepting node was never expanded.
-/

namespace TapeMachine.Machine

variable {m : Machine} {limits : Limits} {n : Nat} {c : Configuration}

/-- A computation halts without a verdict exactly where nothing follows and the state neither
accepts nor rejects. -/
theorem ending_eq_haltedNonFinal_iff : (m.step c).ending = .haltedNonFinal ↔
    (m.step c).successors = [] ∧ m.definition.isAccepting c.state = false ∧
      m.definition.isRejecting c.state = false := by
  constructor
  · intro h
    refine ⟨?_, not_isFinal_of_ending h⟩
    by_contra hne
    rw [Step.ending_eq_timeout_iff.mpr hne] at h
    cases h
  · rintro ⟨hnil, ha, hr⟩
    cases he : (m.step c).ending with
    | accepted =>
      rw [step_eq_accept_iff.mp (Step.ending_eq_accepted_iff.mp he)] at ha
      cases ha
    | rejected =>
      rw [(step_eq_reject_iff.mp (Step.ending_eq_rejected_iff.mp he)).2] at hr
      cases hr
    | timeout => exact absurd hnil (Step.ending_eq_timeout_iff.mp he)
    | haltedNonFinal => rfl

/-- No computation with the ending of a verdict is shorter than the path that comes with it, unless
it was cut off. -/
theorem length_path_le (hv : (m.explore limits).verdict ≠ .timeout) (hc : m.Reaches n c)
    (he : (m.step c).ending = (m.explore limits).verdict) :
    (m.explore limits).path.length ≤ n + 1 := by
  obtain ⟨i, k, hd, hk, -, -, hlen⟩ := m.explore_recorded limits
  by_contra hlt
  have hshorter : n < k.entry.step := by omega
  obtain ⟨k', hmem, hstep, halike⟩ := exists_alike_of_lt (Array.mem_of_getElem? hk) hc hshorter
  obtain ⟨j, hj⟩ := Array.mem_iff_getElem?.mp hmem
  have hbefore : j < i := by
    by_contra hge
    have := (m.arranged_tree limits).byDepth i j k k' (Nat.le_of_not_lt hge) hk hj
    omega
  have hfirst := noneBefore_of_settle hv (Outcomes.decide_eq_some_iff.mp hd).1
  exact hfirst j k' hbefore hj ((m.step_congr halike).ending_eq ▸ he)

/-- The path of an exploration is a shortest one: it records a computation with the ending of the
verdict, and no computation of fewer configurations accepts, rejects or halts, whichever of these
the verdict is. -/
theorem explore_path_shortest (m : Machine) (limits : Limits) :
    (∃ c, m.Records (m.explore limits).path c ∧
      (m.step c).ending = (m.explore limits).verdict) ∧
    ((m.explore limits).verdict = .accepted → ∀ n c, m.Reaches n c →
      m.definition.isAccepting c.state = true → (m.explore limits).path.length ≤ n + 1) ∧
    ((m.explore limits).verdict = .rejected → ∀ n c, m.Reaches n c →
      m.definition.isRejecting c.state = true → (m.explore limits).path.length ≤ n + 1) ∧
    ((m.explore limits).verdict = .haltedNonFinal → ∀ n c, m.Reaches n c →
      (m.step c).successors = [] → m.definition.isAccepting c.state = false →
      m.definition.isRejecting c.state = false →
      (m.explore limits).path.length ≤ n + 1) := by
  refine ⟨?_, fun hv n c hc ha => ?_, fun hv n c hc hr => ?_, fun hv n c hc hnil ha hr => ?_⟩
  · obtain ⟨i, k, -, -, he, hrecords, -⟩ := m.explore_recorded limits
    exact ⟨_, hrecords, he⟩
  · refine length_path_le (by simp [hv]) hc ?_
    rw [hv, (ending_of_isAccepting ha).2]
  · -- where a rejection decides, nothing accepts
    have htrue := m.trueOf_explore limits
    rw [hv] at htrue
    refine length_path_le (by simp [hv]) hc ?_
    rw [hv, Step.ending_eq_rejected_iff, step_eq_reject_iff]
    exact ⟨htrue.2.1 n c hc, hr⟩
  · refine length_path_le (by simp [hv]) hc ?_
    rw [hv, ending_eq_haltedNonFinal_iff]
    exact ⟨hnil, ha, hr⟩

end TapeMachine.Machine
