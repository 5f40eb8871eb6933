import TapeMachine.Proofs.HeadView

/-!
# Machines that read their input once

The rules of a one-way machine write what they read and move the head on; only where they read a
blank they keep it in place, and then the computation halts. Such a machine is a finite automaton
that reads its input and one blank behind it: after so many transitions the tape is what it was, the
head has passed as many symbols, and the state is one that a path of the derived diagram leads to.
So there are only as many configurations as there are positions and states, no computation makes
more transitions than the input has symbols and one, and the verdict of an exploration with room for
all that is on paths in the diagram.
-/

namespace TapeMachine

/-- Some beginning of the word is the word of a path to the state. -/
def Automaton.Visits (a : Automaton) (word : List Symbol) (q : State) : Prop :=
  ∃ u, u <+: word ∧ a.Path a.start u q

namespace Definition

/-- The rules pass over the tape without changing it, and a blank ends the computation. -/
structure OneWay (d : Definition) : Prop where
  keeps : ∀ r ∈ d.allRules, r.write = r.read
  moves : ∀ r ∈ d.allRules, r.direction = if r.read = d.blank then .stay else .right
  ends : ∀ r ∈ d.allRules, r.read = d.blank →
    r.nextState ∈ d.acceptStates ∨ r.nextState ∈ d.rejectStates
  last : ∀ q, q ∈ d.acceptStates ∨ q ∈ d.rejectStates → d.rulesOf q = []

end Definition

namespace Machine

variable {m : Machine} {c : Configuration} {k : Nat} {q : State} {r : Rule}

/-- What a one-way machine reads: its input and the blank behind it. -/
def tapeWord (m : Machine) : List Symbol := m.input.toList ++ [m.definition.blank]

/-- The tape is as in the beginning and the head has passed so many symbols of the input. -/
def passed (m : Machine) (k : Nat) (q : State) : Configuration :=
  { state := q, tape := m.start.tape, head := min k m.input.toList.length }

/-- What a computation of a one-way machine comes to: it is no longer than the word, the
configuration is the one of its state, and the state is one that the diagram may be in. -/
structure Scanned (m : Machine) (k : Nat) (c : Configuration) : Prop where
  le : k ≤ m.input.toList.length + 1
  alike : c ≈ m.passed k c.state
  path : (Automaton.ofDefinition m.definition).Path m.definition.startState
    (m.tapeWord.take k) c.state

private theorem blank_not_mem_input (m : Machine) : m.definition.blank ∉ m.input.toList := by
  intro h
  have hinput := Definition.checkInput_eq_ok_iff.mp m.fits _ h
  exact (Definition.alphabetFault?_eq_none_iff.mp
    ((Definition.validate_eq_ok_iff _).mp m.valid).2.2.1).1 hinput

private theorem getElem?_tapeWord (hk : k ≤ m.input.toList.length) :
    m.tapeWord[k]? = some (m.passed k q).symbol := by
  have hread := m.shows_start.right k
  change m.start.tape.read (0 + k) = m.input.toList.getD k m.definition.blank at hread
  have hhead : min (k : Int) m.input.toList.length = 0 + k := by omega
  rw [Configuration.symbol, passed, hhead, hread, tapeWord]
  rcases Nat.lt_or_eq_of_le hk with hlt | rfl
  · simp [List.getElem?_append_left hlt, List.getElem?_eq_getElem hlt]
  · simp

/-- A blank is read exactly behind the input. -/
theorem symbol_passed_eq_blank_iff (hk : k ≤ m.input.toList.length) :
    (m.passed k q).symbol = m.definition.blank ↔ k = m.input.toList.length := by
  have hword := getElem?_tapeWord (q := q) hk
  constructor
  · intro hblank
    by_contra hne
    have hlt : k < m.input.toList.length := Nat.lt_of_le_of_ne hk hne
    rw [hblank, tapeWord, List.getElem?_append_left hlt] at hword
    exact m.blank_not_mem_input (List.mem_of_getElem? hword)
  · rintro rfl
    rw [tapeWord, List.getElem?_concat_length] at hword
    exact (Option.some.inj hword).symm

private theorem take_succ_tapeWord (hk : k ≤ m.input.toList.length) :
    m.tapeWord.take (k + 1) = m.tapeWord.take k ++ [(m.passed k q).symbol] := by
  rw [List.take_add_one, getElem?_tapeWord hk]
  rfl

private theorem scanned_start (m : Machine) : m.Scanned 0 m.start where
  le := Nat.zero_le _
  alike := by
    have hhead : (0 : Int) = min ((0 : Nat) : Int) m.input.toList.length := by omega
    have htape : m.start.tape ≈ m.start.tape := Tape.equiv_iff_read.mpr ⟨rfl, fun _ => rfl⟩
    exact Configuration.equiv_iff.mpr ⟨rfl, hhead, htape⟩
  path := .nil

section OneWay

variable (h : m.definition.OneWay)

include h

/-- A state with a rule does not halt. -/
theorem haltingState?_eq_none_of_rule (hr : r ∈ m.definition.rulesOf q) :
    m.haltingState? q = none := by
  have hlast : ¬ (q ∈ m.definition.acceptStates ∨ q ∈ m.definition.rejectStates) := by
    intro hq
    rw [h.last q hq] at hr
    cases hr
  obtain ⟨haccept, hreject⟩ := not_or.mp hlast
  simp [haltingState?, Definition.isAccepting, Definition.isRejecting, haccept, hreject]

/-- A rule takes the head over one more symbol and leaves the tape as it is. -/
theorem apply_passed (hk : k ≤ m.input.toList.length) (hr : r ∈ m.definition.rulesOf q)
    (hread : r.read = (m.passed k q).symbol) :
    (m.passed k q).apply r.action ≈ m.passed (k + 1) r.nextState := by
  have hrule := Definition.mem_allRules_of_mem_rulesOf hr
  refine Configuration.equiv_iff.mpr ⟨rfl, ?_, Tape.equiv_iff_read.mpr ⟨Tape.blank_write .., ?_⟩⟩
  · change min (k : Int) m.input.toList.length + r.direction.offset =
      min ((k + 1 : Nat) : Int) m.input.toList.length
    by_cases hend : k = m.input.toList.length
    · have hblank := hread.trans ((symbol_passed_eq_blank_iff hk).mpr hend)
      rw [h.moves r hrule, if_pos hblank, Direction.offset]
      omega
    · have hblank : r.read ≠ m.definition.blank := fun hb =>
        hend ((symbol_passed_eq_blank_iff hk).mp (hread.symm.trans hb))
      rw [h.moves r hrule, if_neg hblank, Direction.offset]
      omega
  · intro p
    rw [Configuration.read_tape_apply]
    split
    · next hp =>
      rw [hp]
      exact (h.keeps r hrule).trans hread
    · rfl

/-- A path that has read the blank leads to a state without rules. -/
theorem rulesOf_eq_nil_of_path
    (hpath : (Automaton.ofDefinition m.definition).Path m.definition.startState m.tapeWord q) :
    m.definition.rulesOf q = [] := by
  obtain ⟨p, -, he⟩ := Automaton.path_concat_iff.mp hpath
  obtain ⟨r, hr, hread, rfl⟩ := Automaton.mem_edges_ofDefinition.mp he
  exact h.last _ (h.ends r (Definition.mem_allRules_of_mem_rulesOf hr) hread)

/-- Behind the blank there are no transitions any more. -/
theorem Scanned.le_of_mem_successors {s : Successor} (hc : m.Scanned k c)
    (hs : s ∈ (m.step c).successors) : k ≤ m.input.toList.length := by
  by_contra hlt
  have hle := hc.le
  have hpath := hc.path
  rw [List.take_of_length_le (by rw [tapeWord, List.length_append, List.length_singleton]; omega)]
    at hpath
  obtain ⟨r, hr, -⟩ := Automaton.mem_edges_ofDefinition.mp (edge_of_mem_successors hs)
  rw [rulesOf_eq_nil_of_path h hpath] at hr
  cases hr

theorem Scanned.next {s : Successor} (hc : m.Scanned k c) (hs : s ∈ (m.step c).successors) :
    m.Scanned (k + 1) s.configuration := by
  have hk := hc.le_of_mem_successors h hs
  have hsymbol : c.symbol = (m.passed k c.state).symbol := Configuration.symbol_congr hc.alike
  have hedge := edge_of_mem_successors hs
  rw [successors_step] at hs
  split_ifs at hs
  · obtain ⟨a, ha, rfl⟩ := List.mem_map.mp hs
    obtain ⟨r, hr, hread, rfl⟩ := Definition.exists_rule_of_mem_actions ha
    refine ⟨Nat.succ_le_succ hk, ?_, ?_⟩
    · exact (Configuration.apply_congr hc.alike r.action).trans
        (apply_passed h hk hr (hread.trans hsymbol))
    · rw [take_succ_tapeWord hk, ← hsymbol]
      exact Automaton.path_concat_iff.mpr ⟨_, hc.path, hedge⟩
  · cases hs

private theorem Reaches.scanned (hc : m.Reaches k c) : m.Scanned k c := by
  induction hc with
  | start => exact m.scanned_start
  | next _ hs ih => exact ih.next h hs

/-- Every path for a beginning of the word is one of a computation. -/
theorem exists_reaches_of_path (hk : k ≤ m.input.toList.length + 1)
    (hpath : (Automaton.ofDefinition m.definition).Path m.definition.startState
      (m.tapeWord.take k) q) : ∃ c, m.Reaches k c ∧ c.state = q := by
  induction k generalizing q with
  | zero =>
    obtain rfl := Automaton.path_nil_iff.mp hpath
    exact ⟨m.start, .start, rfl⟩
  | succ k ih =>
    have hle : k ≤ m.input.toList.length := Nat.le_of_succ_le_succ hk
    rw [take_succ_tapeWord (q := q) hle] at hpath
    obtain ⟨p, hp, he⟩ := Automaton.path_concat_iff.mp hpath
    obtain ⟨c, hc, rfl⟩ := ih (Nat.le_of_succ_le hk) hp
    obtain ⟨r, hr, hread, rfl⟩ := Automaton.mem_edges_ofDefinition.mp he
    have hsymbol : c.symbol = r.read := by
      rw [Configuration.symbol_congr (hc.scanned h).alike, hread]
      rfl
    have haction : r.action ∈ m.definition.actions c.state c.symbol :=
      List.mem_map.mpr ⟨r, List.mem_filter.mpr ⟨hr, by simp [hsymbol]⟩, rfl⟩
    have hs : successor c r.action ∈ (m.step c).successors := by
      rw [successors_step, if_pos (haltingState?_eq_none_of_rule h hr)]
      exact List.mem_map_of_mem haction
    exact ⟨_, hc.next hs, rfl⟩

/-- The states of computations are those that the diagram visits on the word. -/
theorem exists_reaches_iff : (∃ k c, m.Reaches k c ∧ c.state = q) ↔
    (Automaton.ofDefinition m.definition).Visits m.tapeWord q := by
  constructor
  · rintro ⟨k, c, hc, rfl⟩
    exact ⟨_, List.take_prefix k _, (hc.scanned h).path⟩
  · rintro ⟨u, hu, hpath⟩
    have hlength : u.length ≤ m.input.toList.length + 1 := by
      simpa [tapeWord] using hu.length_le
    rw [List.prefix_iff_eq_take.mp hu] at hpath
    obtain ⟨c, hc, hq⟩ := exists_reaches_of_path h hlength hpath
    exact ⟨_, c, hc, hq⟩

/-- There is no more than one configuration for each position and state. -/
theorem ncard_reached_le_of_oneWay (depth : Nat) : (m.reached depth).ncard ≤
    (m.input.toList.length + 2) * m.definition.stateSet.length := by
  let shown (p : Nat × State) : Nat × Appearance := (p.1, (m.passed p.1 p.2).appearance)
  let places := Finset.range (m.input.toList.length + 2) ×ˢ m.definition.stateSet.toFinset
  have hsub : m.reached depth ⊆ shown '' places := by
    rintro ⟨k, a⟩ ⟨-, c, hc, rfl⟩
    have hscanned := hc.scanned h
    have hplace : (k, c.state) ∈ places :=
      Finset.mem_product.mpr ⟨Finset.mem_range.mpr (Nat.lt_succ_of_le hscanned.le),
        List.mem_toFinset.mpr hc.within.state⟩
    exact ⟨(k, c.state), hplace, Prod.ext rfl hscanned.alike.symm⟩
  calc (m.reached depth).ncard
      ≤ (shown '' places).ncard := Set.ncard_le_ncard hsub
    _ ≤ (places : Set (Nat × State)).ncard := Set.ncard_image_le
    _ = (m.input.toList.length + 2) * m.definition.stateSet.toFinset.card := by
        rw [Set.ncard_coe_finset, Finset.card_product, Finset.card_range]
    _ ≤ (m.input.toList.length + 2) * m.definition.stateSet.length :=
        Nat.mul_le_mul_left _ (List.toFinset_card_le _)

section Room

variable {limits : Limits} (hsteps : m.input.toList.length + 2 ≤ limits.maxSteps)
  (hroom : (m.input.toList.length + 2) * m.definition.stateSet.length < limits.maxConfigurations)

include hsteps

private theorem Reaches.succ_le_depth (hc : m.Reaches k c) : k + 1 ≤ limits.depth := by
  have hdepth : limits.maxSteps ≤ limits.depth := Nat.le_max_right ..
  have hk := (hc.scanned h).le
  omega

private theorem not_outlasts_of_oneWay : ¬ m.Outlasts limits.depth := by
  rintro ⟨k, c, hk, hc, hne⟩
  obtain ⟨s, hs⟩ := List.exists_mem_of_ne_nil _ hne
  have hle := (hc.next hs).succ_le_depth h hsteps
  omega

include hroom

/-- An exploration accepts when the diagram visits an accepting state on the word. -/
theorem explore_eq_accepted_iff_visits : (m.explore limits).verdict = .accepted ↔
    ∃ q ∈ m.definition.acceptStates,
      (Automaton.ofDefinition m.definition).Visits m.tapeWord q := by
  rw [verdict_eq_accepted_iff (Nat.lt_of_le_of_lt (ncard_reached_le_of_oneWay h _) hroom)]
  constructor
  · rintro ⟨k, c, -, hc, ha⟩
    exact ⟨c.state, List.contains_iff_mem.mp ha, (exists_reaches_iff h).mp ⟨k, c, hc, rfl⟩⟩
  · rintro ⟨q, ha, hq⟩
    obtain ⟨k, c, hc, rfl⟩ := (exists_reaches_iff h).mpr hq
    exact ⟨k, c, hc.succ_le_depth h hsteps, hc, List.contains_iff_mem.mpr ha⟩

/-- If it visits none, the exploration rejects when the diagram visits a rejecting state. -/
theorem explore_eq_rejected_iff_visits : (m.explore limits).verdict = .rejected ↔
    (m.explore limits).verdict ≠ .accepted ∧ ∃ q ∈ m.definition.rejectStates,
      (Automaton.ofDefinition m.definition).Visits m.tapeWord q := by
  have hcap := Nat.lt_of_le_of_lt (ncard_reached_le_of_oneWay h limits.depth) hroom
  rw [verdict_eq_rejected_iff hcap, Ne, verdict_eq_accepted_iff hcap]
  have hend := not_outlasts_of_oneWay h hsteps
  constructor
  · rintro ⟨ha, -, k, c, hc, hr⟩
    exact ⟨ha, c.state, List.contains_iff_mem.mp hr, (exists_reaches_iff h).mp ⟨k, c, hc, rfl⟩⟩
  · rintro ⟨ha, q, hr, hq⟩
    obtain ⟨k, c, hc, rfl⟩ := (exists_reaches_iff h).mpr hq
    exact ⟨ha, hend, k, c, hc, List.contains_iff_mem.mpr hr⟩

end Room

end OneWay

end Machine

end TapeMachine
