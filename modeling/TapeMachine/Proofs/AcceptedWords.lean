import Mathlib.Data.List.Nodup
import TapeMachine.Proofs.DiagramPaths
import TapeMachine.Proofs.PassedChecks

/-!
# The words that a diagram accepts

Whatever its edges, a diagram accepts a word when some path for it leads from the start state to an
accepting one. In a consistent diagram that is deterministic there is at most one path: its edges
are a partial function of state and symbol, the states that are kept after a word are those that
the function leads to, none or one, and the word is accepted when that one is accepting.
-/

namespace TapeMachine.Automaton

variable {a : Automaton} {p q : State} {s : Symbol} {u : List Symbol}

/-- Once no state is left, none will be: keeping on makes no difference. -/
theorem statesAfter_eq_foldl (a : Automaton) (current : List State) (u : List Symbol) :
    a.statesAfter current u = u.foldl a.advance current := by
  induction u generalizing current with
  | nil => rw [statesAfter, List.foldl_nil]
  | cons s u ih =>
    rw [List.foldl_cons, ← ih]
    cases current with
    | nil =>
      have hnone : a.advance [] s = [] :=
        List.eq_nil_iff_forall_not_mem.mpr fun q hq => by simp [mem_advance] at hq
      rw [hnone]
      cases u <;> rfl
    | cons p rest => rfl

private theorem pairwise_statesAfter {current : List State} (h : current.Pairwise (· < ·)) :
    (a.statesAfter current u).Pairwise (· < ·) := by
  rw [statesAfter_eq_foldl]
  induction u generalizing current with
  | nil => exact h
  | cons s u ih => exact ih (pairwise_sortedSet _)

/-- The state and the symbol with which an edge leaves it. -/
def exit (e : Edge) : State × Symbol := (e.source, e.symbol)

/-- What the check of a diagram asks for. -/
structure Consistent (a : Automaton) : Prop where
  start : a.start ∈ a.states
  states (q : State) (hq : q ∈ a.referencedStates) : q ∈ a.states
  symbols (e : Edge) (he : e ∈ a.edges) : e.symbol ∈ a.alphabet
  deterministic (hk : a.kind = .dfa) : (a.edges.map exit).Nodup

private theorem firstRepeatedEdge?_eq_none_iff {seen : List (State × Symbol)} {edges : List Edge} :
    firstRepeatedEdge? seen edges = none ↔
      (edges.map exit).Nodup ∧ ∀ e ∈ edges, exit e ∉ seen := by
  induction edges generalizing seen with
  | nil => simp [firstRepeatedEdge?]
  | cons e rest ih =>
    rw [List.map_cons, List.nodup_cons, List.forall_mem_cons]
    have hcontains : seen.contains (e.source, e.symbol) = true ↔ exit e ∈ seen :=
      List.contains_iff_mem
    by_cases he : exit e ∈ seen
    · have hrepeated : firstRepeatedEdge? seen (e :: rest) ≠ none := by
        rw [firstRepeatedEdge?, if_pos (hcontains.mpr he)]
        exact Option.some_ne_none _
      exact iff_of_false hrepeated fun h => h.2.1 he
    · have hnext :
          firstRepeatedEdge? seen (e :: rest) = firstRepeatedEdge? (exit e :: seen) rest := by
        rw [firstRepeatedEdge?, if_neg (mt hcontains.mp he)]
        rfl
      simp only [hnext, ih, List.mem_cons, not_or, forall_and, List.mem_map, not_exists, not_and]
      constructor
      · rintro ⟨hrest, hne, hseen⟩
        exact ⟨⟨hne, hrest⟩, he, hseen⟩
      · rintro ⟨⟨hne, hrest⟩, -, hseen⟩
        exact ⟨hrest, hne, hseen⟩

theorem fault?_eq_none_iff : a.fault? = none ↔ a.Consistent := by
  have hsplit : a.fault? = none ↔ a.start ∈ a.states ∧
      a.referencedStates.filter (fun q => !a.states.contains q) = [] ∧
      (a.edges.map (·.symbol)).filter (fun s => !a.alphabet.contains s) = [] ∧
      (a.kind = .dfa → firstRepeatedEdge? [] a.edges = none) := by
    rw [← @sortedSet_eq_nil_iff State, ← @sortedSet_eq_nil_iff Symbol, fault?]
    by_cases hs : a.start ∈ a.states
    · cases sortedSet (a.referencedStates.filter fun q => !a.states.contains q) with
      | cons q rest => simp [hs]
      | nil =>
        cases sortedSet ((a.edges.map (·.symbol)).filter fun s => !a.alphabet.contains s) with
        | cons s rest => simp [hs]
        | nil => cases a.kind <;> simp [hs]
    · simp [hs]
  simp only [hsplit, List.filter_eq_nil_iff, firstRepeatedEdge?_eq_none_iff, Bool.not_eq_true',
    Bool.not_eq_false, List.contains_iff_mem, List.mem_map, forall_exists_index, and_imp]
  constructor
  · rintro ⟨hstart, hstates, hsymbols, hedges⟩
    exact ⟨hstart, hstates, fun e he => hsymbols _ e he rfl, fun hk => (hedges hk).1⟩
  · rintro ⟨hstart, hstates, hsymbols, hedges⟩
    refine ⟨hstart, hstates, ?_, fun hk => ⟨hedges hk, fun _ _ => List.not_mem_nil⟩⟩
    rintro _ e he rfl
    exact hsymbols e he

theorem validate_eq_ok_iff : a.validate = .ok () ↔ a.Consistent := by
  rw [validate, ← fault?_eq_none_iff]
  cases a.fault? <;> simp

/-- The state that the first edge with a symbol leads to from a state, if there is one. -/
def target? (a : Automaton) (p : State) (s : Symbol) : Option State :=
  (a.edges.find? fun e => exit e = (p, s)).map (·.target)

section Deterministic

variable (h : (a.edges.map exit).Nodup)

include h

/-- Where no two edges leave a state with one symbol, the first one is the only one. -/
theorem target?_eq_some_iff : a.target? p s = some q ↔ ⟨p, s, q⟩ ∈ a.edges := by
  simp only [target?, Option.map_eq_some_iff]
  constructor
  · rintro ⟨e, he, rfl⟩
    have hexit : exit e = (p, s) := by simpa using List.find?_some he
    obtain ⟨rfl, rfl⟩ := Prod.mk.inj hexit
    exact List.mem_of_find?_eq_some he
  · intro he
    have hfound : (a.edges.find? fun e => exit e = (p, s)).isSome :=
      List.find?_isSome.mpr ⟨_, he, decide_eq_true rfl⟩
    obtain ⟨e, hfind⟩ := Option.isSome_iff_exists.mp hfound
    have hexit : exit e = (p, s) := by simpa using List.find?_some hfind
    refine ⟨e, hfind, ?_⟩
    rw [List.inj_on_of_nodup_map h (List.mem_of_find?_eq_some hfind) he hexit]

/-- Paths follow the function that the edges define. -/
theorem path_iff_foldlM : a.Path p u q ↔ u.foldlM a.target? p = some q := by
  induction u generalizing p with
  | nil => simp
  | cons s u ih =>
    rw [path_cons_iff, List.foldlM_cons]
    simp only [bind, Option.bind_eq_some_iff, target?_eq_some_iff h, ih]

/-- The states that are kept are the one that the function leads to, if it leads to one. -/
theorem statesAfter_eq_toList :
    a.statesAfter [p] u = (u.foldlM a.target? p).toList := by
  refine eq_of_pairwise_lt (pairwise_statesAfter (List.pairwise_singleton _ _)) ?_ fun q => ?_
  · cases u.foldlM a.target? p <;> simp
  · simp [mem_statesAfter, path_iff_foldlM h]

end Deterministic

/-- A diagram, consistent or not, accepts a word when some path for it leads from the start state to
an accepting one; that it stops looking once no state is left never changes the answer. If it is
deterministic and passes the check, its edges are a partial function of state and symbol. Then of
the states after any part of the word from its beginning only the one is kept that the function
leads to, and the word is accepted when the function leads to an accepting state. -/
theorem accepts_existentially (a : Automaton) (w : String) :
    (a.accepts w = true ↔ ∃ q ∈ a.accept, a.Path a.start w.toList q) ∧
    a.accepts w = a.accept.any (w.toList.foldl a.advance [a.start]).contains ∧
    (a.kind = .dfa → a.validate = .ok () →
      (∀ p s q, a.target? p s = some q ↔ ⟨p, s, q⟩ ∈ a.edges) ∧
      (∀ u, u <+: w.toList → (a.statesAfter [a.start] u).length ≤ 1 ∧
        a.statesAfter [a.start] u = (u.foldlM a.target? a.start).toList) ∧
      (a.accepts w = true ↔ ∃ q ∈ a.accept, w.toList.foldlM a.target? a.start = some q)) := by
  refine ⟨accepts_iff, ?_, ?_⟩
  · rw [accepts, statesAfter_eq_foldl]
  · intro hk hv
    have h := (validate_eq_ok_iff.mp hv).deterministic hk
    refine ⟨fun p s q => target?_eq_some_iff h, ?_, ?_⟩
    · intro u _
      have hkept := statesAfter_eq_toList (p := a.start) (u := u) h
      refine ⟨?_, hkept⟩
      rw [hkept]
      cases u.foldlM a.target? a.start <;> simp
    · simp only [accepts_iff, path_iff_foldlM h]

/-- Words of pairs, each of two different symbols in one order; with the first symbol that does not
fit no state is left. -/
def pairs : Automaton where
  kind := .dfa
  states := ["done", "half"]
  alphabet := ['a', 'b']
  start := "done"
  accept := ["done"]
  edges := [⟨"done", 'a', "half"⟩, ⟨"half", 'b', "done"⟩]

/-- The function that the edges define leads to the accepting state, and nowhere. -/
theorem accepts_existentially_pairs : pairs.kind = .dfa ∧ pairs.validate = .ok () ∧
    pairs.accepts "abab" = true ∧ pairs.accepts "abba" = false ∧
      (pairs.statesAfter [pairs.start] ['a', 'b', 'a']).length ≤ 1 := by
  have hv : pairs.validate = .ok () := by decide
  obtain ⟨-, -, haccepted⟩ := pairs.accepts_existentially "abab"
  obtain ⟨-, -, hrefused⟩ := pairs.accepts_existentially "abba"
  obtain ⟨-, hkept, haccepts⟩ := haccepted rfl hv
  obtain ⟨-, -, hrefuses⟩ := hrefused rfl hv
  refine ⟨rfl, hv, haccepts.mpr ⟨"done", List.mem_singleton_self _, by decide⟩, ?_, ?_⟩
  · have hnone : "abba".toList.foldlM pairs.target? pairs.start = none := by decide
    rw [Bool.eq_false_iff, Ne, hrefuses, hnone]
    rintro ⟨q, -, hq⟩
    cases hq
  · exact (hkept ['a', 'b', 'a'] (by decide)).1

end TapeMachine.Automaton
