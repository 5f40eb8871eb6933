import TapeMachine.Exploration
import TapeMachine.Proofs.Computation

/-!
# Recorded computations

`Records entries c` says that the entries of a trace write down, one after the other, a computation
of the machine that ends in `c`. Every entry can then be checked against the one before it, and the
recorded transitions lead from the first configuration to the last one again.
-/

namespace TapeMachine

def Successor.entry (s : Successor) (step : Nat) : TraceEntry :=
  { step, transition := some s.transition, configuration := s.configuration }

namespace Machine

/-- The entries write down a computation that ends in the configuration. -/
inductive Records (m : Machine) : List TraceEntry → Configuration → Prop where
  | start : Records m [m.startEntry] m.start
  | next {entries c s} (h : Records m entries c) (hs : s ∈ (m.step c).successors) :
      Records m (entries ++ [s.entry entries.length]) s.configuration

namespace Records

variable {m : Machine} {entries : List TraceEntry} {c : Configuration}

private theorem length_pos (h : m.Records entries c) : 0 < entries.length := by
  cases h <;> simp

theorem getElem?_zero (h : m.Records entries c) : entries[0]? = some m.startEntry := by
  induction h with
  | start => rfl
  | next h hs ih => rw [List.getElem?_append_left h.length_pos, ih]

theorem step_of_getElem? (h : m.Records entries c) {i : Nat} {e : TraceEntry}
    (he : entries[i]? = some e) : e.step = i := by
  induction h with
  | start =>
    obtain ⟨rfl, rfl⟩ : i = 0 ∧ e = m.startEntry := by
      cases i <;> simp_all
    rfl
  | @next entries c s h hs ih =>
    rcases Nat.lt_or_ge i entries.length with hi | hi
    · exact ih (by rwa [List.getElem?_append_left hi] at he)
    · rw [List.getElem?_append_right hi, List.getElem?_singleton] at he
      split_ifs at he with h0
      cases he
      change entries.length = i
      omega

theorem last (h : m.Records entries c) : (Trace.mk entries).last? = some c := by
  cases h <;> simp [Trace.last?, startEntry, Successor.entry]

/-- Every entry but the first is a successor of the one before it. -/
theorem follows (h : m.Records entries c) {i : Nat} {e e' : TraceEntry}
    (he : entries[i]? = some e) (he' : entries[i + 1]? = some e') :
    ∃ s ∈ (m.step e.configuration).successors,
      e'.transition = some s.transition ∧ e'.configuration = s.configuration := by
  induction h with
  | start => simp at he'
  | @next entries c s h hs ih =>
    rcases Nat.lt_or_ge (i + 1) entries.length with hi | hi
    · rw [List.getElem?_append_left hi] at he'
      rw [List.getElem?_append_left (by omega)] at he
      exact ih he he'
    · rw [List.getElem?_append_right hi, List.getElem?_singleton] at he'
      split_ifs at he' with h0
      cases he'
      -- the entry before the new one is the last of those recorded so far
      have hlast : entries[i]? = entries.getLast? := by
        rw [List.getLast?_eq_getElem?]
        congr 1
        omega
      have hc := h.last
      rw [List.getElem?_append_left (by have := h.length_pos; omega), hlast] at he
      simp only [Trace.last?, he, Option.map_some, Option.some.injEq] at hc
      exact ⟨s, hc ▸ hs, rfl, rfl⟩

/-- The entry with index `i` holds what `i` transitions lead to. -/
theorem reaches_of_getElem? (h : m.Records entries c) {i : Nat} {e : TraceEntry}
    (he : entries[i]? = some e) : m.Reaches i e.configuration := by
  induction i generalizing e with
  | zero =>
    obtain rfl : m.startEntry = e := Option.some.inj (h.getElem?_zero.symm.trans he)
    exact .start
  | succ i ih =>
    obtain ⟨hi, -⟩ := List.getElem?_eq_some_iff.mp he
    have hbefore := List.getElem?_eq_getElem (Nat.lt_of_succ_lt hi)
    obtain ⟨s, hs, -, hc⟩ := h.follows hbefore he
    exact hc ▸ (ih hbefore).next hs

/-- The recorded transitions lead to the last configuration. -/
theorem replay (h : m.Records entries c) : (Trace.mk entries).replay = some c := by
  induction h with
  | start => rfl
  | @next entries c s h hs ih =>
    have hhead := h.getElem?_zero
    rw [← List.head?_eq_getElem?] at hhead
    simp only [Trace.replay, Trace.first?, Trace.transitions, hhead, List.head?_append,
      Option.some_or, Option.map_some, List.filterMap_append, List.foldl_append] at ih ⊢
    rw [Option.some.inj ih]
    simp [Successor.entry, configuration_eq_apply hs]

end Records

end Machine

end TapeMachine
