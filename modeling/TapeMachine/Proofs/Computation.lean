import Mathlib.Data.Set.Finite.Lattice
import Mathlib.Data.Finite.Prod
import Mathlib.Data.Set.Card
import TapeMachine.Proofs.AlikeFutures
import TapeMachine.Proofs.CompiledRules

/-!
# Computations

The computations of a machine, independent of every search: `Reaches n c` says that one of exactly
`n` transitions, and so of `n + 1` configurations, ends in `c`, and `Endless` that one never ends.
`reached` is the set of everything that computations below a given depth show.
-/

namespace TapeMachine.Machine

/-- Some computation of the given number of transitions ends in the configuration. -/
inductive Reaches (m : Machine) : Nat → Configuration → Prop where
  | start : Reaches m 0 m.start
  | next {n c s} (h : Reaches m n c) (hs : s ∈ (m.step c).successors) :
      Reaches m (n + 1) s.configuration

/-- The transitions, made one after the other, lead from one configuration to another. -/
inductive Leads (m : Machine) (c : Configuration) : List Transition → Configuration → Prop where
  | refl : Leads m c [] c
  | next {ts d s} (h : Leads m c ts d) (hs : s ∈ (m.step d).successors) :
      Leads m c (ts ++ [s.transition]) s.configuration

/-- Some computation goes on forever. -/
def Endless (m : Machine) : Prop :=
  ∃ f : Nat → Configuration, f 0 = m.start ∧
    ∀ n, ∃ s ∈ (m.step (f n)).successors, s.configuration = f (n + 1)

/-- The pairs of a depth below the given one and what a configuration reached there shows. -/
def reached (m : Machine) (depth : Nat) : Set (Nat × Appearance) :=
  {p | p.1 < depth ∧ ∃ c, m.Reaches p.1 c ∧ c.appearance = p.2}

variable {m : Machine} {c : Configuration}

/-- Exactly the accepting states accept. -/
theorem step_eq_accept_iff :
    m.step c = .halt .accept ↔ m.definition.isAccepting c.state = true := by
  rw [step_eq, Definition.step]
  split_ifs with ha
  · simp [ha]
  · simp [ha]
  · cases m.definition.kind <;>
      cases (m.definition.actions c.state c.symbol).map (successor c) <;> simp [ha]

/-- Exactly the rejecting states that do not accept reject. -/
theorem step_eq_reject_iff : m.step c = .halt .reject ↔
    m.definition.isAccepting c.state = false ∧ m.definition.isRejecting c.state = true := by
  rw [step_eq, Definition.step]
  split_ifs with ha hr
  · simp [ha]
  · simp [ha, hr]
  · cases m.definition.kind <;>
      cases (m.definition.actions c.state c.symbol).map (successor c) <;> simp [hr]

/-- In a state that does not halt every matching rule leads to a successor, whatever the kind. -/
theorem successors_step (m : Machine) (c : Configuration) :
    (m.step c).successors = if m.haltingState? c.state = none
      then (m.definition.actions c.state c.symbol).map (successor c) else [] := by
  rw [step_eq, Definition.step, haltingState?]
  by_cases ha : m.definition.isAccepting c.state = true
  · simp [ha, Step.successors]
  by_cases hr : m.definition.isRejecting c.state = true
  · simp [ha, hr, Step.successors]
  · simp only [ha, hr, if_neg, if_true, Bool.false_eq_true, not_false_iff]
    cases hk : m.definition.kind with
    | nondeterministic => rfl
    | deterministic =>
      have hl := Definition.length_actions_le_one m.valid hk c.state c.symbol
      generalize m.definition.actions c.state c.symbol = actions at hl
      cases actions with
      | nil => rfl
      | cons a rest =>
        obtain rfl : rest = [] := List.length_eq_zero_iff.mp (by simpa using hl)
        rfl

private theorem eq_successor_of_mem {s : Successor} (hs : s ∈ (m.step c).successors) :
    ∃ a, s = successor c a := by
  rw [successors_step] at hs
  split_ifs at hs
  · obtain ⟨a, -, rfl⟩ := List.mem_map.mp hs
    exact ⟨a, rfl⟩
  · simp at hs

theorem configuration_eq_apply {s : Successor} (hs : s ∈ (m.step c).successors) :
    s.configuration = c.apply s.transition.action := by
  obtain ⟨a, rfl⟩ := eq_successor_of_mem hs
  rfl

/-- An endless computation has a configuration at every depth. -/
theorem Endless.reaches (h : m.Endless) (n : Nat) : ∃ c, m.Reaches n c := by
  obtain ⟨f, h0, hf⟩ := h
  refine ⟨f n, ?_⟩
  induction n with
  | zero => exact h0 ▸ .start
  | succ n ih =>
    obtain ⟨s, hs, he⟩ := hf n
    exact he ▸ ih.next hs

theorem not_endless_of_lt {bound : Nat} (h : ∀ n c, m.Reaches n c → n < bound) : ¬ m.Endless := by
  intro hendless
  obtain ⟨c, hc⟩ := hendless.reaches bound
  exact Nat.lt_irrefl bound (h bound c hc)

/-- Where nothing follows the last configurations below a depth, no computation goes deeper. -/
theorem Reaches.lt_of_stuck {depth n : Nat} (hc : m.Reaches n c) (hpos : 0 < depth)
    (h : ∀ k d, m.Reaches k d → k + 1 = depth → (m.step d).successors = []) : n < depth := by
  induction hc with
  | start => exact hpos
  | next hd hs ih =>
    refine Nat.lt_of_le_of_ne ih fun heq => ?_
    rw [h _ _ hd heq] at hs
    exact List.not_mem_nil hs

/-- Every configuration that a computation ends in, by its number of transitions. -/
def frontier (m : Machine) : Nat → List Configuration
  | 0 => [m.start]
  | n + 1 => (m.frontier n).flatMap fun c =>
      (m.definition.step c).successors.map (·.configuration)

theorem mem_frontier {n : Nat} : c ∈ m.frontier n ↔ m.Reaches n c := by
  induction n generalizing c with
  | zero =>
    simp only [frontier, List.mem_singleton]
    exact ⟨fun h => h ▸ .start, fun h => by cases h; rfl⟩
  | succ n ih =>
    simp only [frontier, List.mem_flatMap, List.mem_map, ← step_eq]
    constructor
    · rintro ⟨d, hd, s, hs, rfl⟩
      exact (ih.mp hd).next hs
    · intro h
      cases h with
      | next h hs => exact ⟨_, ih.mpr h, _, hs, rfl⟩

/-- What computations below a depth show, one after the other. -/
def reachedList (m : Machine) (depth : Nat) : List (Nat × Appearance) :=
  (List.range depth).flatMap fun n => (m.frontier n).map fun c => (n, c.appearance)

private theorem mem_reachedList {depth : Nat} {p : Nat × Appearance} :
    p ∈ m.reachedList depth ↔ p ∈ m.reached depth := by
  obtain ⟨n, a⟩ := p
  simp only [reachedList, reached, List.mem_flatMap, List.mem_range, List.mem_map, Prod.mk.injEq,
    mem_frontier, Set.mem_ofPred_eq]
  constructor
  · rintro ⟨k, hk, c, hc, rfl, rfl⟩
    exact ⟨hk, c, hc, rfl⟩
  · rintro ⟨hn, c, hc, rfl⟩
    exact ⟨n, hn, c, hc, rfl, rfl⟩

/-- Only finitely many configurations are reached below a depth. -/
theorem finite_reached (m : Machine) (depth : Nat) : (m.reached depth).Finite :=
  (m.reachedList depth).finite_toSet.subset fun _ hp => mem_reachedList.mpr hp

/-- There are no more of them than there are computations. -/
theorem ncard_reached_le (m : Machine) (depth : Nat) :
    (m.reached depth).ncard ≤ (m.reachedList depth).length := by
  have h : m.reached depth = ↑(m.reachedList depth).toFinset := by
    ext p
    simp [mem_reachedList]
  rw [h, Set.ncard_coe_finset]
  exact List.toFinset_card_le _

end TapeMachine.Machine
