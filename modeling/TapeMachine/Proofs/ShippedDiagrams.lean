import Mathlib.Algebra.Group.Nat.Even
import TapeMachine.Proofs.BuiltInMachines
import TapeMachine.Proofs.OneWayMachines

/-!
# The diagrams that come with built-in machines

Two machines of the catalog come with a diagram of their own, which was drawn apart from the rules
and has other states. It accepts exactly the words that the machine accepts. The machine that looks
for `101` guesses where it begins and halts behind it, while its diagram reads the rest of the word
in a state that it does not leave; up to the guess both are in the same states. The machine for an
even number of ones and its diagram change between the same two states, and the machine then reads a
blank to tell them apart.
-/

namespace TapeMachine

namespace Automaton

variable {a : Automaton} {u : List Symbol}

/-- When a single edge leads to a state, the words of its paths are those of the state before it and
the symbol of the edge. -/
theorem path_iff_of_last_edge {p q r : State} {s : Symbol} {y : List Symbol} (hne : p ≠ r)
    (hedge : ∀ q' s', ⟨q', s', r⟩ ∈ a.edges ↔ q' = q ∧ s' = s)
    (hq : ∀ v, a.Path p v q ↔ ∃ x, IsBinary x ∧ v = x ++ y) :
    a.Path p u r ↔ ∃ x, IsBinary x ∧ u = x ++ (y ++ [s]) := by
  rw [path_iff_of_ne hne]
  constructor
  · rintro ⟨v, s', q', rfl, hv, he⟩
    obtain ⟨rfl, rfl⟩ := (hedge q' s').mp he
    obtain ⟨x, hx, rfl⟩ := (hq v).mp hv
    exact ⟨x, hx, List.append_assoc ..⟩
  · rintro ⟨x, hx, rfl⟩
    have hv := (hq (x ++ y)).mpr ⟨x, hx, rfl⟩
    exact ⟨x ++ y, s, q, (List.append_assoc ..).symm, hv, (hedge q s).mpr ⟨rfl, rfl⟩⟩

/-- Up to the last one of `101` the diagram guesses where it begins. -/
structure Guesses (a : Automaton) : Prop where
  start : a.start = "scan"
  scan {p s} : ⟨p, s, "scan"⟩ ∈ a.edges ↔ p = "scan" ∧ (s = '0' ∨ s = '1')
  one {p s} : ⟨p, s, "one"⟩ ∈ a.edges ↔ p = "scan" ∧ s = '1'
  zero {p s} : ⟨p, s, "zero"⟩ ∈ a.edges ↔ p = "one" ∧ s = '0'

namespace Guesses

variable (h : a.Guesses)

include h

private theorem path_scan : a.Path "scan" u "scan" ↔ IsBinary u := by
  induction u using List.reverseRecOn with
  | nil => simp [isBinary_nil]
  | append_singleton u s ih =>
    simp only [path_concat_iff, h.scan, isBinary_append, isBinary_cons, isBinary_nil, and_true]
    constructor
    · rintro ⟨q, hu, rfl, hs⟩
      exact ⟨ih.mp hu, hs⟩
    · rintro ⟨hu, hs⟩
      exact ⟨"scan", ih.mpr hu, rfl, hs⟩

private theorem path_one : a.Path "scan" u "one" ↔ ∃ x, IsBinary x ∧ u = x ++ ['1'] := by
  apply path_iff_of_last_edge (y := []) (by decide) fun _ _ => h.one
  intro v
  simpa using h.path_scan

private theorem path_zero : a.Path "scan" u "zero" ↔ ∃ x, IsBinary x ∧ u = x ++ ['1', '0'] :=
  path_iff_of_last_edge (by decide) (fun _ _ => h.zero) fun _ => h.path_one

/-- A state that `101` leads to for the first time. -/
theorem path_goal {goal : State} (hne : goal ≠ "scan")
    (hgoal : ∀ p s, ⟨p, s, goal⟩ ∈ a.edges ↔ p = "zero" ∧ s = '1') :
    a.Path "scan" u goal ↔ ∃ x, IsBinary x ∧ u = x ++ ['1', '0', '1'] :=
  path_iff_of_last_edge hne.symm hgoal fun _ => h.path_zero

/-- A state that `101` leads to and that is not left any more. -/
theorem path_sink {goal : State} (hne : goal ≠ "scan")
    (hgoal : ∀ p s, ⟨p, s, goal⟩ ∈ a.edges ↔
      p = "zero" ∧ s = '1' ∨ p = goal ∧ (s = '0' ∨ s = '1')) :
    a.Path "scan" u goal ↔
      ∃ x y, IsBinary x ∧ IsBinary y ∧ u = x ++ ['1', '0', '1'] ++ y := by
  constructor
  · intro hpath
    induction u using List.reverseRecOn with
    | nil => exact absurd (path_nil_iff.mp hpath) hne.symm
    | append_singleton u s ih =>
      obtain ⟨p, hu, he⟩ := path_concat_iff.mp hpath
      rcases (hgoal p s).mp he with ⟨rfl, rfl⟩ | ⟨rfl, hs⟩
      · obtain ⟨x, hx, rfl⟩ := h.path_zero.mp hu
        exact ⟨x, [], hx, isBinary_nil, by simp⟩
      · obtain ⟨x, y, hx, hy, rfl⟩ := ih hu
        have hys : IsBinary (y ++ [s]) :=
          isBinary_append.mpr ⟨hy, isBinary_cons.mpr ⟨hs, isBinary_nil⟩⟩
        exact ⟨x, y ++ [s], hx, hys, by simp⟩
  · rintro ⟨x, y, hx, hy, rfl⟩
    induction y using List.reverseRecOn with
    | nil =>
      have hzero := h.path_zero.mpr ⟨x, hx, rfl⟩
      have he := (hgoal "zero" '1').mpr (.inl ⟨rfl, rfl⟩)
      simpa using path_concat_iff.mpr ⟨_, hzero, he⟩
    | append_singleton y s ih =>
      obtain ⟨hy, hs⟩ := isBinary_append.mp hy
      have he := (hgoal goal s).mpr (.inr ⟨rfl, (isBinary_cons.mp hs).1⟩)
      rw [← List.append_assoc]
      exact path_concat_iff.mpr ⟨_, ih hy, he⟩

end Guesses

private theorem edges_ofDefinition_contains101 : (ofDefinition .contains101).edges =
    [⟨"one", '0', "zero"⟩, ⟨"scan", '0', "scan"⟩, ⟨"scan", '1', "scan"⟩, ⟨"scan", '1', "one"⟩,
      ⟨"scan", '_', "reject"⟩, ⟨"zero", '1', "accept"⟩] := by
  decide

private theorem guesses_contains101 : contains101.Guesses where
  start := rfl
  scan := by
    intro p s
    simp [contains101, and_or_left]
  one := by simp [contains101]
  zero := by simp [contains101]

private theorem guesses_ofDefinition_contains101 : (ofDefinition .contains101).Guesses where
  start := rfl
  scan := by
    intro p s
    simp [edges_ofDefinition_contains101, and_or_left]
  one := by simp [edges_ofDefinition_contains101]
  zero := by simp [edges_ofDefinition_contains101]

/-- The diagram finds `101` wherever it stands. -/
theorem accepts_contains101_iff {w : String} (hw : IsBinary w.toList) :
    contains101.accepts w = true ↔ ['1', '0', '1'] <:+: w.toList := by
  have hgoal (p : State) (s : Symbol) : ⟨p, s, "found"⟩ ∈ contains101.edges ↔
      p = "zero" ∧ s = '1' ∨ p = "found" ∧ (s = '0' ∨ s = '1') := by
    simp [contains101, and_or_left]
  have hfound := guesses_contains101.path_sink (u := w.toList) (by decide) hgoal
  rw [accepts_iff]
  constructor
  · rintro ⟨q, hq, hpath⟩
    obtain rfl := List.mem_singleton.mp hq
    obtain ⟨x, y, -, -, he⟩ := hfound.mp hpath
    exact ⟨x, y, he.symm⟩
  · rintro ⟨x, y, he⟩
    rw [← he] at hw
    obtain ⟨hxs, hy⟩ := isBinary_append.mp hw
    exact ⟨"found", List.mem_singleton_self _,
      hfound.mpr ⟨x, y, (isBinary_append.mp hxs).1, hy, he.symm⟩⟩

end Automaton

private theorem Definition.oneWay_contains101 : Definition.contains101.OneWay where
  keeps := by decide
  moves := by decide
  ends := by decide
  last := by
    rintro q (hq | hq)
    · obtain rfl := List.mem_singleton.mp hq
      rfl
    · obtain rfl := List.mem_singleton.mp hq
      rfl

namespace Machine

variable {m : Machine}

/-- A beginning of a word and a blank that ends in `101` is one of the word. -/
theorem visits_accept_contains101 (hd : m.definition = .contains101)
    (hw : IsBinary m.input.toList) :
    (Automaton.ofDefinition m.definition).Visits m.tapeWord "accept" ↔
      ['1', '0', '1'] <:+: m.input.toList := by
  have hgoal (p : State) (s : Symbol) :
      ⟨p, s, "accept"⟩ ∈ (Automaton.ofDefinition .contains101).edges ↔ p = "zero" ∧ s = '1' := by
    simp [Automaton.edges_ofDefinition_contains101]
  have haccept (u : List Symbol) :=
    Automaton.guesses_ofDefinition_contains101.path_goal (u := u) (by decide) hgoal
  rw [hd, tapeWord, hd]
  constructor
  · rintro ⟨u, hu, hpath⟩
    obtain ⟨x, -, rfl⟩ := (haccept u).mp hpath
    rcases List.prefix_concat_iff.mp hu with heq | hu
    · have hlast : '1' = Definition.contains101.blank := by
        simpa using congrArg List.getLast? heq
      exact absurd hlast (by decide)
    · exact (List.suffix_append x _).isInfix.trans hu.isInfix
  · rintro ⟨x, y, he⟩
    rw [← he] at hw ⊢
    have hx := (isBinary_append.mp (isBinary_append.mp hw).1).1
    refine ⟨x ++ ['1', '0', '1'], ?_, (haccept _).mpr ⟨x, hx, rfl⟩⟩
    rw [List.append_assoc]
    exact List.prefix_append ..

/-- When nothing is guessed, the machine gets to the blank and rejects. -/
theorem visits_reject_contains101 (hd : m.definition = .contains101)
    (hw : IsBinary m.input.toList) :
    (Automaton.ofDefinition m.definition).Visits m.tapeWord "reject" := by
  rw [hd, tapeWord, hd]
  have hscan := Automaton.guesses_ofDefinition_contains101.path_scan.mpr hw
  have he : ⟨"scan", '_', "reject"⟩ ∈ (Automaton.ofDefinition .contains101).edges := by
    simp [Automaton.edges_ofDefinition_contains101]
  exact ⟨_, List.prefix_rfl, Automaton.path_concat_iff.mpr ⟨_, hscan, he⟩⟩

private theorem run_contains101 (hd : m.definition = .contains101) (hw : IsBinary m.input.toList)
    {limits : Limits} (hsteps : m.input.length + 2 ≤ limits.maxSteps)
    (hroom : 5 * (m.input.length + 3) ≤ limits.maxConfigurations) :
    ((m.run limits).verdict = .accepted ↔ ['1', '0', '1'] <:+: m.input.toList) ∧
      ((m.run limits).verdict ≠ .accepted → (m.run limits).verdict = .rejected) := by
  have hkind : m.kind = .nondeterministic := by
    rw [kind, hd]
    rfl
  have honeway : m.definition.OneWay := hd ▸ Definition.oneWay_contains101
  have hstates : m.definition.stateSet.length = 5 := by
    rw [hd]
    decide
  rw [← String.length_toList] at hsteps hroom
  have hcap : (m.input.toList.length + 2) * m.definition.stateSet.length <
      limits.maxConfigurations := by
    rw [hstates]
    omega
  have hrun : (m.run limits).verdict = (m.explore limits).verdict := by
    rw [run_of_nondeterministic hkind]
    rfl
  rw [hrun]
  constructor
  · rw [explore_eq_accepted_iff_visits honeway hsteps hcap, ← visits_accept_contains101 hd hw]
    simp [hd, Definition.contains101]
  · intro hne
    refine (explore_eq_rejected_iff_visits honeway hsteps hcap).mpr ⟨hne, "reject", ?_, ?_⟩
    · simp [hd, Definition.contains101]
    · exact visits_reject_contains101 hd hw

end Machine

/-- The state of the machine and of its diagram after so many ones. -/
def parityState (n : Nat) : State := if Even n then "even" else "odd"

private theorem parityState_cases (n : Nat) :
    Even n ∧ parityState n = "even" ∧ parityState (n + 1) = "odd" ∨
      ¬ Even n ∧ parityState n = "odd" ∧ parityState (n + 1) = "even" := by
  by_cases hn : Even n
  · exact .inl ⟨hn, if_pos hn, if_neg (by simpa [Nat.even_add_one] using hn)⟩
  · exact .inr ⟨hn, if_neg hn, if_pos (Nat.even_add_one.mpr hn)⟩

namespace Definition.evenOnes

private theorem scan_one {l r : List Symbol} (k : Nat) :
    Moves evenOnes 1 ⟨parityState k, l, '1' :: r⟩ ⟨parityState (k + 1), '1' :: l, r⟩ := by
  have h : Prescribes evenOnes (parityState k) '1' ⟨parityState (k + 1), '1', .right⟩ := by
    rcases parityState_cases k with ⟨-, hk, hnext⟩ | ⟨-, hk, hnext⟩
    · rw [hk, hnext]
      decide
    · rw [hk, hnext]
      decide
  exact .single h rfl

private theorem scan_run {l r : List Symbol} (k n : Nat) :
    Moves evenOnes n ⟨parityState k, l, List.replicate n '1' ++ r⟩
      ⟨parityState (k + n), List.replicate n '1' ++ l, r⟩ := by
  induction n generalizing k l with
  | zero => exact .refl _
  | succ n ih =>
    have h := (scan_one (l := l) (r := List.replicate n '1' ++ r) k).trans (ih (k + 1))
    have hsum : k + 1 + n = k + (n + 1) := by omega
    have hleft : List.replicate (n + 1) '1' ++ l = List.replicate n '1' ++ '1' :: l := by
      rw [List.replicate_succ', List.append_assoc]
      rfl
    rw [Nat.add_comm 1 n, hsum] at h
    rw [hleft]
    exact h

/-- The blank behind the ones tells the states apart. -/
theorem exists_moves (n : Nat) :
    ∃ v, Moves evenOnes (n + 1) ⟨"even", [], List.replicate n '1'⟩ v ∧
      v.state = if Even n then "accept" else "reject" := by
  have hrun := scan_run (l := []) (r := []) 0 n
  rw [Nat.zero_add, List.append_nil] at hrun
  rcases parityState_cases n with ⟨hn, hstate, -⟩ | ⟨hn, hstate, -⟩
  · have hend : Prescribes evenOnes (parityState n) '_' ⟨"accept", '_', .stay⟩ := by
      rw [hstate]
      decide
    exact ⟨_, hrun.trans (.single hend rfl), (if_pos hn).symm⟩
  · have hend : Prescribes evenOnes (parityState n) '_' ⟨"reject", '_', .stay⟩ := by
      rw [hstate]
      decide
    exact ⟨_, hrun.trans (.single hend rfl), (if_neg hn).symm⟩

end Definition.evenOnes

namespace Automaton

private theorem statesAfter_evenOnes (k n : Nat) :
    evenOnes.statesAfter [parityState k] (List.replicate n '1') = [parityState (k + n)] := by
  induction n generalizing k with
  | zero => rfl
  | succ n ih =>
    have hadvance : evenOnes.advance [parityState k] '1' = [parityState (k + 1)] := by
      rcases parityState_cases k with ⟨-, hk, hnext⟩ | ⟨-, hk, hnext⟩
      · rw [hk, hnext]
        decide
      · rw [hk, hnext]
        decide
    have hsum : k + 1 + n = k + (n + 1) := by omega
    rw [List.replicate_succ, statesAfter, hadvance, ih, hsum]
    exact List.cons_ne_nil _ _

private theorem accepts_evenOnes_iff (n : Nat) :
    evenOnes.accepts (String.ofList (List.replicate n '1')) = true ↔ Even n := by
  have hfinal : evenOnes.statesAfter [evenOnes.start] (List.replicate n '1') =
      [parityState n] := by
    have h := statesAfter_evenOnes 0 n
    rwa [Nat.zero_add] at h
  rw [accepts, String.toList_ofList, hfinal]
  rcases parityState_cases n with ⟨hn, hstate, -⟩ | ⟨hn, hstate, -⟩
  · rw [hstate]
    exact iff_of_true (by decide) hn
  · rw [hstate]
    exact iff_of_false (by decide) hn

end Automaton

namespace Catalog

/-- A run decides a property of its word, and the diagram of the entry accepts the words with this
property. -/
structure Agrees (e : CatalogEntry) (w : String) (r : Run) (p : Prop) : Prop where
  accepts : r.verdict = .accepted ↔ p
  diagram : p ↔ e.automaton.accepts w = true
  rejects : r.verdict ≠ .accepted → r.verdict = .rejected

/-- The diagrams that come with the two machines agree with them. On every binary word a run of the
first one with room for `n + 2` steps and `5 * (n + 3)` configurations, where the word has `n`
symbols, decides whether the word contains `101`. On every block of ones a run of the second one
with room for `n + 2` steps decides whether their number is even. -/
theorem shipped_diagrams_agree :
    (∃ e, byName? "Contains 101" = some e ∧ ∀ w : String, IsBinary w.toList →
      ∃ m, e.load w = .ok m ∧ ∀ limits : Limits, w.length + 2 ≤ limits.maxSteps →
        5 * (w.length + 3) ≤ limits.maxConfigurations →
          Agrees e w (m.run limits) (['1', '0', '1'] <:+: w.toList)) ∧
    ∃ e, byName? "Even number of 1s" = some e ∧ ∀ n : Nat,
      ∃ m, e.load (String.ofList (List.replicate n '1')) = .ok m ∧
        ∀ limits : Limits, n + 2 ≤ limits.maxSteps →
          Agrees e (String.ofList (List.replicate n '1')) (m.run limits) (Even n) := by
  constructor
  · have he : BuiltIn.contains101.entry ∈ entries := entry_mem (by simp [builtIns])
    refine ⟨_, byName?_of_mem he rfl, ?_⟩
    intro w hw
    have hinput : ∀ s ∈ w.toList, s ∈ Definition.contains101.inputSymbols := by
      intro s hs
      rcases hw s hs with rfl | rfl <;> decide
    obtain ⟨m, hload, hdefinition, rfl⟩ := exists_load_of_mem he hinput
    refine ⟨m, hload, ?_⟩
    intro limits hsteps hroom
    obtain ⟨haccept, hreject⟩ := Machine.run_contains101 hdefinition hw hsteps hroom
    exact ⟨haccept, (Automaton.accepts_contains101_iff hw).symm, hreject⟩
  · have he : BuiltIn.evenOnes.entry ∈ entries := entry_mem (by simp [builtIns])
    refine ⟨_, byName?_of_mem he rfl, ?_⟩
    intro n
    have hinput : ∀ s ∈ (String.ofList (List.replicate n '1')).toList,
        s ∈ Definition.evenOnes.inputSymbols := by
      intro s hs
      rw [String.toList_ofList] at hs
      rw [List.eq_of_mem_replicate hs]
      decide
    obtain ⟨v, hmoves, hv⟩ := Definition.evenOnes.exists_moves n
    rw [← String.toList_ofList (l := List.replicate n '1')] at hmoves
    obtain ⟨m, hload, hrun⟩ := exists_load_of_moves he rfl hinput hmoves hv rfl rfl rfl
    refine ⟨m, hload, ?_⟩
    intro limits hsteps
    obtain ⟨hverdict, -⟩ := hrun limits hsteps
    refine ⟨?_, (Automaton.accepts_evenOnes_iff n).symm, ?_⟩
    · rw [hverdict]
      split_ifs with hn <;> simp [hn]
    · rw [hverdict]
      split_ifs <;> simp

theorem shipped_diagrams_agree_short :
    (∃ e, byName? "Contains 101" = some e ∧
      (∃ m, e.load "1101" = .ok m ∧ (m.run ⟨6, 35⟩).verdict = .accepted) ∧
      e.automaton.accepts "1101" = true ∧
      ∃ m, e.load "1001" = .ok m ∧ (m.run ⟨6, 35⟩).verdict = .rejected) ∧
    ∃ e, byName? "Even number of 1s" = some e ∧
      ∃ m, e.load (String.ofList (List.replicate 3 '1')) = .ok m ∧
        (m.run ⟨5, 1⟩).verdict = .rejected := by
  obtain ⟨⟨e, he, hall⟩, e', he', hall'⟩ := shipped_diagrams_agree
  obtain ⟨m, hload, hrun⟩ := hall "1101" (by simp [IsBinary])
  obtain ⟨m', hload', hrun'⟩ := hall "1001" (by simp [IsBinary])
  obtain ⟨m'', hload'', hrun''⟩ := hall' 3
  have hfound : ['1', '0', '1'] <:+: "1101".toList := ⟨['1'], [], by simp⟩
  have hmissing : ¬ ['1', '0', '1'] <:+: "1001".toList := by
    rw [String.toList_ofList]
    decide
  have h := hrun ⟨6, 35⟩ (by decide) (by decide)
  have h' := hrun' ⟨6, 35⟩ (by decide) (by decide)
  have h'' := hrun'' ⟨5, 1⟩ (by decide)
  refine ⟨⟨e, he, ⟨m, hload, h.accepts.mpr hfound⟩, h.diagram.mp hfound, m', hload', ?_⟩,
    e', he', m'', hload'', ?_⟩
  · exact h'.rejects (mt h'.accepts.mp hmissing)
  · exact h''.rejects (mt h''.accepts.mp (by decide))

end Catalog

end TapeMachine
