import Mathlib.Data.List.Forall2
import TapeMachine.Machine
import TapeMachine.Proofs.AlikeTapes

/-!
# Alike futures

What follows a configuration depends on what it shows and not on how its tape is stored: alike
configurations halt for the same reason or have the same transitions to alike configurations, in
the same order. This is why a search may keep one of several alike configurations. Positions are
unbounded here; what a machine reaches from its input within `2 ^ 62` transitions is on words.
-/

namespace TapeMachine

namespace Configuration

theorem symbol_congr {c d : Configuration} (h : c ≈ d) : c.symbol = d.symbol := by
  obtain ⟨-, hh, ht⟩ := equiv_iff.mp h
  rw [symbol, symbol, hh]
  exact (Tape.equiv_iff_read.mp ht).2 _

theorem apply_congr {c d : Configuration} (h : c ≈ d) (a : Action) : c.apply a ≈ d.apply a := by
  obtain ⟨-, hh, ht⟩ := equiv_iff.mp h
  refine equiv_iff.mpr ⟨rfl, by simp [hh], ?_⟩
  simpa only [apply, hh] using Tape.write_congr ht d.head a.write

end Configuration

/-- In lists that are related item by item every item has one that it is related to. -/
theorem exists_of_forall₂ {α β : Type} {R : α → β → Prop} {xs : List α} {ys : List β}
    (h : List.Forall₂ R xs ys) {x : α} (hx : x ∈ xs) : ∃ y ∈ ys, R x y := by
  induction h with
  | nil => cases hx
  | cons hxy _ ih =>
    rcases List.mem_cons.mp hx with rfl | hx
    · exact ⟨_, List.mem_cons_self, hxy⟩
    · obtain ⟨y, hy, hxy⟩ := ih hx
      exact ⟨y, List.mem_cons_of_mem _ hy, hxy⟩

/-- The same transition to alike configurations. -/
def Successor.Alike (s t : Successor) : Prop :=
  s.transition = t.transition ∧ s.configuration ≈ t.configuration

/-- The same kind of step, with alike successors in the same order. -/
inductive Step.Alike : Step → Step → Prop where
  | next {s t} (h : Successor.Alike s t) : Alike (.next s) (.next t)
  | branch {ss ts} (h : List.Forall₂ Successor.Alike ss ts) : Alike (.branch ss) (.branch ts)
  | halt (reason : Halt) : Alike (.halt reason) (.halt reason)

namespace Step

/-- The verdict on a computation that is ended after this step was looked at: a computation that
could go on was cut off. -/
def ending : Step → Verdict
  | .halt reason => reason.verdict
  | .branch [] => .haltedNonFinal
  | .branch (_ :: _) => .timeout
  | .next _ => .timeout

theorem ending_eq_accepted_iff {s : Step} : s.ending = .accepted ↔ s = .halt .accept := by
  rcases s with _ | (_ | _) | (_ | _ | _) <;> simp [ending, Halt.verdict]

theorem ending_eq_rejected_iff {s : Step} : s.ending = .rejected ↔ s = .halt .reject := by
  rcases s with _ | (_ | _) | (_ | _ | _) <;> simp [ending, Halt.verdict]

theorem ending_eq_haltedNonFinal_iff {s : Step} :
    s.ending = .haltedNonFinal ↔ s = .halt .noTransition ∨ s = .branch [] := by
  rcases s with _ | (_ | _) | (_ | _ | _) <;> simp [ending, Halt.verdict]

theorem ending_eq_timeout_iff {s : Step} : s.ending = .timeout ↔ s.successors ≠ [] := by
  rcases s with _ | (_ | _) | (_ | _ | _) <;> simp [ending, Halt.verdict, successors]

/-- Where nothing follows, the verdict is that of the step. -/
theorem ending_of_successors_eq_nil {s : Step} (h : s.successors = []) : s.ending = s.verdict := by
  rcases s with _ | (_ | _) | (_ | _ | _) <;> simp_all [ending, verdict, successors]

namespace Alike

variable {s t : Step}

theorem ending_eq (h : Alike s t) : s.ending = t.ending := by
  cases h with
  | next h => rfl
  | halt reason => rfl
  | branch h => cases h <;> rfl

private theorem forall₂_successors (h : Alike s t) :
    List.Forall₂ Successor.Alike s.successors t.successors := by
  cases h with
  | next h => exact .cons h .nil
  | branch h => exact h
  | halt reason => exact .nil

theorem exists_successor (h : Alike s t) {x : Successor} (hx : x ∈ s.successors) :
    ∃ y ∈ t.successors, Successor.Alike x y :=
  exists_of_forall₂ h.forall₂_successors hx

end Alike

end Step

namespace Machine

private theorem successor_congr {c d : Configuration} (h : c ≈ d) (a : Action) :
    Successor.Alike (successor c a) (successor d a) := by
  refine ⟨?_, Configuration.apply_congr h a⟩
  simp only [successor, (Configuration.equiv_iff.mp h).1, Configuration.symbol_congr h]

/-- Alike configurations have alike futures. -/
theorem step_congr (m : Machine) {c d : Configuration} (h : c ≈ d) :
    (m.step c).Alike (m.step d) := by
  have hs : c.state = d.state := (Configuration.equiv_iff.mp h).1
  have ha : c.symbol = d.symbol := Configuration.symbol_congr h
  unfold step
  rw [hs, ha]
  cases m.haltingState? d.state with
  | some reason => exact .halt reason
  | none =>
    cases m.table with
    | single table =>
      cases hl : table[(d.state, d.symbol)]? with
      | none => simpa only [hl] using .halt .noTransition
      | some a => simpa only [hl] using .next (successor_congr h a)
    | several table =>
      refine .branch ?_
      generalize table[(d.state, d.symbol)]?.getD [] = actions
      induction actions with
      | nil => exact .nil
      | cons a rest ih => exact .cons (successor_congr h a) ih

end Machine

end TapeMachine
