import TapeMachine.Automaton

/-!
# Paths in state diagrams

A path is a sequence of edges, each of which starts where the one before it ends; its word is what
the edges are labelled with. Keeping all states that the diagram may be in finds exactly the states
that some path for the word leads to, and so a word is accepted when a path for it leads from the
start state to an accepting one.
-/

namespace TapeMachine.Automaton

/-- Edges labelled with the symbols of a word, in order, lead from one state to another. -/
inductive Path (a : Automaton) : State → List Symbol → State → Prop where
  | nil {p} : Path a p [] p
  | cons {p q r s u} (he : ⟨p, s, q⟩ ∈ a.edges) (h : Path a q u r) : Path a p (s :: u) r

variable {a : Automaton} {p q r : State} {s : Symbol} {u v : List Symbol}

@[simp] theorem path_nil_iff : a.Path p [] q ↔ p = q := by
  constructor
  · intro h
    cases h
    rfl
  · rintro rfl
    exact .nil

theorem path_cons_iff : a.Path p (s :: u) r ↔ ∃ q, ⟨p, s, q⟩ ∈ a.edges ∧ a.Path q u r := by
  constructor
  · intro h
    cases h with
    | cons he h => exact ⟨_, he, h⟩
  · rintro ⟨q, he, h⟩
    exact .cons he h

private theorem path_append_iff : a.Path p (u ++ v) r ↔ ∃ q, a.Path p u q ∧ a.Path q v r := by
  induction u generalizing p with
  | nil => simp
  | cons s u ih =>
    simp only [List.cons_append, path_cons_iff, ih]
    constructor
    · rintro ⟨q, he, t, hu, hv⟩
      exact ⟨t, ⟨q, he, hu⟩, hv⟩
    · rintro ⟨t, ⟨q, he, hu⟩, hv⟩
      exact ⟨q, he, t, hu, hv⟩

/-- The last edge of a path may be split off. -/
theorem path_concat_iff : a.Path p (u ++ [s]) r ↔ ∃ q, a.Path p u q ∧ ⟨q, s, r⟩ ∈ a.edges := by
  simp [path_append_iff, path_cons_iff]

/-- A path between different states has a last edge. -/
theorem path_iff_of_ne (h : p ≠ r) :
    a.Path p u r ↔ ∃ v s q, u = v ++ [s] ∧ a.Path p v q ∧ ⟨q, s, r⟩ ∈ a.edges := by
  constructor
  · intro hpath
    rcases List.eq_nil_or_concat u with rfl | ⟨v, s, rfl⟩
    · exact absurd (path_nil_iff.mp hpath) h
    · rw [List.concat_eq_append] at hpath ⊢
      obtain ⟨q, hv, he⟩ := path_concat_iff.mp hpath
      exact ⟨v, s, q, rfl, hv, he⟩
  · rintro ⟨v, s, q, rfl, hv, he⟩
    exact path_concat_iff.mpr ⟨q, hv, he⟩

theorem mem_advance {current : List State} :
    q ∈ a.advance current s ↔ ∃ p ∈ current, ⟨p, s, q⟩ ∈ a.edges := by
  simp only [advance, mem_sortedSet, List.mem_map, List.mem_filter, Bool.and_eq_true,
    decide_eq_true_eq, List.contains_iff_mem]
  constructor
  · rintro ⟨⟨p, t, r⟩, ⟨he, rfl, hp⟩, rfl⟩
    exact ⟨p, hp, he⟩
  · rintro ⟨p, hp, he⟩
    exact ⟨_, ⟨he, rfl, hp⟩, rfl⟩

/-- The states that are kept are those that a path leads to. That nothing is looked up any more once
none are left makes no difference. -/
theorem mem_statesAfter {current : List State} :
    q ∈ a.statesAfter current u ↔ ∃ p ∈ current, a.Path p u q := by
  induction u generalizing current with
  | nil => simp [statesAfter]
  | cons s u ih =>
    cases current with
    | nil => simp [statesAfter]
    | cons p rest =>
      rw [statesAfter, ih]
      · simp only [mem_advance, path_cons_iff]
        constructor
        · rintro ⟨r, ⟨p, hp, he⟩, h⟩
          exact ⟨p, hp, r, he, h⟩
        · rintro ⟨p, hp, r, he, h⟩
          exact ⟨r, ⟨p, hp, he⟩, h⟩
      · exact List.cons_ne_nil p rest

/-- A word is accepted when a path for it leads to an accepting state. -/
theorem accepts_iff {word : String} :
    a.accepts word = true ↔ ∃ q ∈ a.accept, a.Path a.start word.toList q := by
  simp [accepts, List.any_eq_true, mem_statesAfter]

end TapeMachine.Automaton
