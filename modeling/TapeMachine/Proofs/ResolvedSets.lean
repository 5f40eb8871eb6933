import TapeMachine.Proofs.BoundedVerdict
import TapeMachine.Proofs.DeterministicRun
import TapeMachine.Proofs.FirstFault
import TapeMachine.Proofs.ReachableStates

/-!
# Only the sets that a definition means matter

The lists of a definition stand for sets, and its rules for a map. `Definition.SameMeaning` says
that two definitions mean the same: whichever lists they spell out, leave out, reorder or repeat,
their sets are the same, and each state has the same rules. Nothing that is computed from a
definition tells two such definitions apart: the checks find the same fault or none, the same inputs
fit, the same states are unreachable, and the machines step in the same way, so their runs are
equal.
-/

namespace TapeMachine

section SortedSet

variable {α : Type} [LT α] [DecidableLT α] [DecidableEq α] [LE α] [Std.IsLinearOrder α]
  [Std.LawfulOrderLT α] {xs ys : List α}

/-- The sorted set of a list depends on its members alone. -/
theorem sortedSet_congr (h : ∀ x, x ∈ xs ↔ x ∈ ys) : sortedSet xs = sortedSet ys := by
  refine eq_of_pairwise_lt (pairwise_sortedSet xs) (pairwise_sortedSet ys) fun x => ?_
  rw [mem_sortedSet, mem_sortedSet, h]

/-- A list that increases is its own sorted set. -/
theorem sortedSet_of_pairwise (h : xs.Pairwise (· < ·)) : sortedSet xs = xs :=
  eq_of_pairwise_lt (pairwise_sortedSet xs) h fun _ => mem_sortedSet

end SortedSet

namespace Table

variable {α : Type} {s t : Table α}

/-- Tables that answer alike have the same entries, in some order. -/
theorem perm_entries (h : ∀ key, s.get? key = t.get? key) : s.entries.Perm t.entries := by
  refine (List.perm_ext_iff_of_nodup s.nodup.of_map t.nodup.of_map).mpr ?_
  rintro ⟨key, value⟩
  rw [mem_entries_iff, mem_entries_iff, h]

theorem get?_of_perm (h : s.entries.Perm t.entries) (key : String) : s.get? key = t.get? key := by
  ext value
  rw [← mem_entries_iff, ← mem_entries_iff, h.mem_iff]

end Table

namespace Definition

/-- The definitions mean the same sets and have the same rules for each state. -/
structure SameMeaning (d d' : Definition) : Prop where
  kind : d'.kind = d.kind
  blank : d'.blank = d.blank
  startState : d'.startState = d.startState
  rules (q : State) : d'.rules.get? q = d.rules.get? q
  acceptStates (q : State) : q ∈ d'.acceptStates ↔ q ∈ d.acceptStates
  rejectStates (q : State) : q ∈ d'.rejectStates ↔ q ∈ d.rejectStates
  stateSet : d'.stateSet = d.stateSet
  tapeSymbols : d'.tapeSymbols = d.tapeSymbols
  inputSymbols : d'.inputSymbols = d.inputSymbols

/-- The definitions differ at most in that some lists of the second one spell out the sets that
those of the first one stand for, whether they were left out or not. -/
structure SpelledOut (d d' : Definition) : Prop where
  rest : d' = { d with
    states := d'.states, inputAlphabet := d'.inputAlphabet, tapeAlphabet := d'.tapeAlphabet }
  states : d'.states = d.states ∨ d'.states = d.stateSet
  inputAlphabet : d'.inputAlphabet = d.inputAlphabet ∨ d'.inputAlphabet = d.inputSymbols
  tapeAlphabet : d'.tapeAlphabet = d.tapeAlphabet ∨ d'.tapeAlphabet = d.tapeSymbols

variable {d d' : Definition}

private theorem stateSet_of_states (h : d.states ≠ []) : d.stateSet = sortedSet d.states := by
  rw [stateSet, if_neg (by simpa using h)]

private theorem mem_tapeSymbols {x : Symbol} : x ∈ d.tapeSymbols ↔
    x = d.blank ∨ x ∈ if d.tapeAlphabet = [] then d.inputAlphabet else d.tapeAlphabet := by
  simp [tapeSymbols]

private theorem inputSymbols_of_inputAlphabet (h : d.inputAlphabet ≠ []) :
    d.inputSymbols = sortedSet d.inputAlphabet := by
  rw [inputSymbols, if_neg (by simpa using h)]

private theorem inputSymbols_of_eq_nil (h : d.inputAlphabet = []) :
    d.inputSymbols = d.tapeSymbols.filter (· ≠ d.blank) := by
  rw [inputSymbols, if_pos (by simpa using h)]

namespace SpelledOut

variable (h : d.SpelledOut d')

include h

private theorem blank_eq : d'.blank = d.blank := by rw [h.rest]

private theorem stateSet_eq : d'.stateSet = d.stateSet := by
  have hinferred (he : d'.states = d.states) : d'.stateSet = d.stateSet := by
    rw [h.rest, stateSet, stateSet, he]
  rcases h.states with he | he
  · exact hinferred he
  · by_cases hnil : d.stateSet = []
    · refine hinferred ?_
      by_cases hstates : d.states = []
      · rw [he, hnil, hstates]
      · rw [stateSet_of_states hstates, sortedSet_eq_nil_iff] at hnil
        exact absurd hnil hstates
    · rw [stateSet_of_states (he ▸ hnil), he, sortedSet_of_pairwise (pairwise_stateSet d)]

/-- Where the tape alphabet is left out, the blank and the input alphabet give the same symbols when
the latter is spelled out. -/
theorem mem_inputAlphabet (ht : d.tapeAlphabet = []) {x : Symbol} :
    x = d.blank ∨ x ∈ d'.inputAlphabet ↔ x = d.blank ∨ x ∈ d.inputAlphabet := by
  rcases h.inputAlphabet with he | he
  · rw [he]
  · by_cases hi : d.inputAlphabet = []
    · have hmem : x ∈ d'.inputAlphabet ↔ (x = d.blank ∨ x ∈ d.inputAlphabet) ∧ x ≠ d.blank := by
        rw [he, inputSymbols_of_eq_nil hi, List.mem_filter, mem_tapeSymbols, if_pos ht]
        simp
      rw [hmem, hi]
      simp
    · rw [he, inputSymbols_of_inputAlphabet hi, mem_sortedSet]

private theorem tapeSymbols_eq : d'.tapeSymbols = d.tapeSymbols := by
  refine eq_of_pairwise_lt (pairwise_sortedSet _) (pairwise_sortedSet _) fun x => ?_
  rw [mem_tapeSymbols, h.blank_eq]
  rcases h.tapeAlphabet with he | he
  · rw [mem_tapeSymbols, he]
    by_cases ht : d.tapeAlphabet = []
    · rw [if_pos ht, if_pos ht, h.mem_inputAlphabet ht]
    · rw [if_neg ht, if_neg ht]
  · have hne : d'.tapeAlphabet ≠ [] := by
      rw [he]
      exact List.ne_nil_of_mem (blank_mem_tapeSymbols d)
    rw [if_neg hne, he]
    constructor
    · rintro (rfl | hx)
      · exact blank_mem_tapeSymbols d
      · exact hx
    · exact .inr

private theorem inputSymbols_eq : d'.inputSymbols = d.inputSymbols := by
  have hkept (he : d'.inputAlphabet = d.inputAlphabet) : d'.inputSymbols = d.inputSymbols := by
    rw [inputSymbols, inputSymbols, he, h.tapeSymbols_eq, h.blank_eq]
  rcases h.inputAlphabet with he | he
  · exact hkept he
  · by_cases hnil : d.inputSymbols = []
    · refine hkept ?_
      by_cases hi : d.inputAlphabet = []
      · rw [he, hnil, hi]
      · rw [inputSymbols_of_inputAlphabet hi, sortedSet_eq_nil_iff] at hnil
        exact absurd hnil hi
    · rw [inputSymbols_of_inputAlphabet (he ▸ hnil), he,
        sortedSet_of_pairwise (Condition.pairwise_inputSymbols d)]

/-- Spelling lists out does not change what a definition means. -/
theorem sameMeaning : d.SameMeaning d' where
  kind := by rw [h.rest]
  blank := h.blank_eq
  startState := by rw [h.rest]
  rules q := by rw [h.rest]
  acceptStates q := by rw [h.rest]
  rejectStates q := by rw [h.rest]
  stateSet := h.stateSet_eq
  tapeSymbols := h.tapeSymbols_eq
  inputSymbols := h.inputSymbols_eq

end SpelledOut

namespace SameMeaning

variable (h : d.SameMeaning d')

include h

theorem rulesOf (q : State) : d'.rulesOf q = d.rulesOf q := by
  rw [Definition.rulesOf, Definition.rulesOf, h.rules]

theorem isAccepting (q : State) : d'.isAccepting q = d.isAccepting q := by
  rw [Definition.isAccepting, Definition.isAccepting, Bool.eq_iff_iff]
  simpa using h.acceptStates q

theorem isRejecting (q : State) : d'.isRejecting q = d.isRejecting q := by
  rw [Definition.isRejecting, Definition.isRejecting, Bool.eq_iff_iff]
  simpa using h.rejectStates q

private theorem perm_keys : d'.rules.keys.Perm d.rules.keys := (Table.perm_entries h.rules).map _

private theorem perm_allRules : d'.allRules.Perm d.allRules :=
  (Table.perm_entries h.rules).flatMap_right _

theorem sources : d'.sources = d.sources := sortedSet_congr fun _ => h.perm_keys.mem_iff

theorem undeclaredStates? {referenced referenced' : List State}
    (hr : ∀ q, q ∈ referenced' ↔ q ∈ referenced) :
    d'.undeclaredStates? referenced' = d.undeclaredStates? referenced := by
  rw [undeclaredStates?_eq, undeclaredStates?_eq, h.stateSet]
  refine congrArg _ (sortedSet_congr fun q => ?_)
  rw [List.mem_filter, List.mem_filter, hr]

theorem startFault? : d'.startFault? = d.startFault? := by
  rw [Definition.startFault?, Definition.startFault?, h.startState, h.stateSet]

theorem haltStatesFault? : d'.haltStatesFault? = d.haltStatesFault? := by
  refine h.undeclaredStates? fun q => ?_
  rw [List.mem_append, List.mem_append, h.acceptStates, h.rejectStates]

theorem alphabetFault? : d'.alphabetFault? = d.alphabetFault? := by
  rw [Definition.alphabetFault?, Definition.alphabetFault?, h.inputSymbols, h.tapeSymbols, h.blank]

theorem ruleStatesFault? : d'.ruleStatesFault? = d.ruleStatesFault? :=
  h.undeclaredStates? fun _ => (h.perm_keys.append (h.perm_allRules.map _)).mem_iff

theorem ruleSymbolsFault? : d'.ruleSymbolsFault? = d.ruleSymbolsFault? := by
  rw [ruleSymbolsFault?_eq, ruleSymbolsFault?_eq, h.tapeSymbols]
  refine congrArg _ (sortedSet_congr fun x => ?_)
  rw [List.mem_filter, List.mem_filter, (h.perm_allRules.flatMap_right _).mem_iff]

theorem determinismFault? : d'.determinismFault? = d.determinismFault? := by
  rw [Definition.determinismFault?, Definition.determinismFault?, h.kind, h.sources]
  simp only [h.rulesOf]

theorem haltConflictFault? : d'.haltConflictFault? = d.haltConflictFault? := by
  rw [haltConflictFault?_eq, haltConflictFault?_eq]
  refine congrArg _ (sortedSet_congr fun q => ?_)
  rw [List.mem_filter, List.mem_filter, h.rejectStates, h.isAccepting]

/-- Every check finds the same fault. -/
theorem validate : d'.validate = d.validate := by
  have hfault : d'.fault? = d.fault? := by
    rw [fault?, fault?, h.startFault?, h.haltStatesFault?, h.alphabetFault?, h.ruleStatesFault?,
      h.ruleSymbolsFault?, h.determinismFault?, h.haltConflictFault?]
  rw [Definition.validate, Definition.validate, hfault]

theorem checkInput (w : String) : d'.checkInput w = d.checkInput w := by
  rw [Definition.checkInput, Definition.checkInput, h.inputSymbols]

theorem reachable (s : State) : d'.Reachable s ↔ d.Reachable s := by
  constructor
  · intro hs
    induction hs with
    | start => exact h.startState ▸ .start
    | next _ hr ih => exact ih.next (h.rulesOf _ ▸ hr)
  · intro hs
    induction hs with
    | start => exact h.startState ▸ .start
    | next _ hr ih => exact ih.next ((h.rulesOf _).symm ▸ hr)

theorem unreachableStates : d'.unreachableStates = d.unreachableStates := by
  refine eq_of_pairwise_lt d'.pairwise_unreachableStates d.pairwise_unreachableStates fun s => ?_
  rw [mem_unreachableStates, mem_unreachableStates, h.stateSet, h.reachable]

theorem actions (q : State) (x : Symbol) : d'.actions q x = d.actions q x := by
  rw [Definition.actions, Definition.actions, h.rulesOf]

theorem step (c : Configuration) : d'.step c = d.step c := by
  rw [Definition.step, Definition.step, h.isAccepting, h.isRejecting, h.kind, h.actions]

end SameMeaning

end Definition

namespace Machine

variable {m m' : Machine}

section SameSteps

variable (hs : ∀ c, m'.step c = m.step c)

include hs

private theorem expandLevel_congr (cap depth : Nat) (last : Bool)
    (nodes : List (Nat × Configuration)) (l : Level) :
    m'.expandLevel cap depth last nodes l = m.expandLevel cap depth last nodes l := by
  induction nodes generalizing l with
  | nil => rfl
  | cons node rest ih =>
    obtain ⟨index, c⟩ := node
    simp only [expandLevel, hs, ih]

private theorem expandLevels_congr (cap room depth : Nat) (frontier : List (Nat × Configuration))
    (nodes : Array Node) (outcomes : Outcomes) :
    m'.expandLevels cap room depth frontier nodes outcomes =
      m.expandLevels cap room depth frontier nodes outcomes := by
  induction room generalizing depth frontier nodes outcomes with
  | zero => rfl
  | succ room ih =>
    cases frontier with
    | nil => rfl
    | cons node rest => simp only [expandLevels, expandLevel_congr hs, ih]

/-- Machines that start and step alike and halt in the same states have the same runs. -/
theorem run_congr (hk : m'.kind = m.kind) (hstart : m'.start = m.start)
    (hhalt : ∀ q, m'.haltingState? q = m.haltingState? q) (limits : Limits) :
    m'.run limits = m.run limits := by
  have hentry : m'.startEntry = m.startEntry := by rw [startEntry, startEntry, hstart]
  have htree : m'.tree limits = m.tree limits := by
    rw [tree, tree, expandLevels_congr hs, hstart, hentry]
  have hsettle (t : Tree) : m'.settle t = m.settle t := by
    simp only [settle, firstAccepting?, hhalt]
  have hexplore : m'.explore limits = m.explore limits := by
    simp only [explore, htree, hsettle]
  have hfollow : m'.follow = m.follow := by
    funext room recorded explored c entries
    exact follow_congr (fun c => by rw [hs]) (fun c => by rw [hs]) room recorded explored c entries
  have hdirect : m'.runDirectly limits = m.runDirectly limits := by
    rw [runDirectly, runDirectly, hstart, hentry, hfollow]
  rw [run, run, hk, hexplore, hdirect]

end SameSteps

/-- Loading gave machines with the same runs, or the same fault. -/
inductive LoadAlike : Except Fault Machine → Except Fault Machine → Prop where
  | loaded {m m' : Machine} (h : ∀ limits, m'.run limits = m.run limits) :
      LoadAlike (.ok m) (.ok m')
  | refused (f : Fault) : LoadAlike (.error f) (.error f)

/-- Machines of definitions with the same meaning have the same runs on an input. -/
theorem run_of_sameMeaning (h : m.definition.SameMeaning m'.definition) (hi : m'.input = m.input)
    (limits : Limits) : m'.run limits = m.run limits := by
  have hhalt (q : State) : m'.haltingState? q = m.haltingState? q := by
    rw [haltingState?, haltingState?, h.isAccepting, h.isRejecting]
  refine run_congr (fun c => ?_) h.kind ?_ hhalt limits
  · rw [m'.step_eq, m.step_eq, h.step]
  · rw [start, start, h.startState, hi, h.blank]

end Machine

namespace Definition

variable {d d' : Definition}

private theorem SameMeaning.loadAlike (h : d.SameMeaning d') (w : String) :
    Machine.LoadAlike (Machine.load d w) (Machine.load d' w) := by
  have herror (f : Fault) : Machine.load d' w = .error f ↔ Machine.load d w = .error f := by
    rw [Machine.load_eq_error_iff_validate, Machine.load_eq_error_iff_validate, h.validate,
      h.checkInput]
  cases hm : Machine.load d w with
  | error f =>
    rw [(herror f).mpr hm]
    exact .refused f
  | ok m =>
    cases hm' : Machine.load d' w with
    | error f => exact absurd ((herror f).mp hm') (by rw [hm]; nofun)
    | ok m' =>
      obtain ⟨rfl, rfl⟩ := Machine.load_eq_ok_iff.mp hm
      obtain ⟨rfl, hi⟩ := Machine.load_eq_ok_iff.mp hm'
      exact .loaded (Machine.run_of_sameMeaning h hi)

/-- Nothing that is computed from the definitions tells them apart. -/
structure Interchangeable (d d' : Definition) : Prop where
  validate : d'.validate = d.validate
  checkInput (w : String) : d'.checkInput w = d.checkInput w
  unreachableStates : d'.unreachableStates = d.unreachableStates
  load (w : String) : Machine.LoadAlike (Machine.load d w) (Machine.load d' w)

/-- Only the sets that a definition means matter. Definitions with the same kind, blank, start state
and rules that mean the same sets are interchangeable, and so is a definition with one in which
lists that it leaves out are spelled out. -/
theorem interchangeable_of_meaning (h : d.SameMeaning d' ∨ d.SpelledOut d') :
    d.Interchangeable d' := by
  have hmeaning : d.SameMeaning d' := h.elim id SpelledOut.sameMeaning
  exact ⟨hmeaning.validate, hmeaning.checkInput, hmeaning.unreachableStates, hmeaning.loadAlike⟩

end Definition

/-- The guessing definition under another name, with its sets spelled out, in another order and with
repetitions, and with the entries of its rules the other way round. -/
def Definition.spelledGuesser : Definition where
  name := "guess again"
  kind := .nondeterministic
  states := ["yes", "no", "guess", "check", "yes"]
  inputAlphabet := ['1', '1']
  tapeAlphabet := ['1', '_', '1']
  startState := "guess"
  acceptStates := ["yes", "yes"]
  rejectStates := ["no"]
  rules := ⟨[("check", [⟨'1', '1', .stay, "yes"⟩, ⟨'_', '_', .stay, "no"⟩]),
    ("guess", [⟨'1', '1', .right, "guess"⟩, ⟨'1', '1', .right, "check"⟩])], by decide⟩

private theorem Definition.sameMeaning_spelledGuesser : guesser.SameMeaning spelledGuesser where
  kind := rfl
  blank := rfl
  startState := rfl
  rules q := by
    by_cases hg : q = "guess"
    · subst hg
      rfl
    by_cases hc : q = "check"
    · subst hc
      rfl
    · have hg' : (q == "guess") = false := beq_eq_false_iff_ne.mpr hg
      have hc' : (q == "check") = false := beq_eq_false_iff_ne.mpr hc
      simp [Table.get?, guesser, spelledGuesser, List.lookup_cons, hg', hc']
  acceptStates q := by simp [guesser, spelledGuesser]
  rejectStates _ := .rfl
  stateSet := by decide +kernel
  tapeSymbols := by decide +kernel
  inputSymbols := by decide +kernel

/-- The two cannot be told apart, nor can the first one and its copy with a declared tape. -/
theorem Definition.interchangeable_of_meaning_guessing :
    (guesser.SameMeaning spelledGuesser ∧ guesser.Interchangeable spelledGuesser) ∧
      guesser.SpelledOut { guesser with tapeAlphabet := ['1', '_'] } ∧
      guesser.Interchangeable { guesser with tapeAlphabet := ['1', '_'] } := by
  have hspelled : guesser.SpelledOut { guesser with tapeAlphabet := ['1', '_'] } :=
    ⟨rfl, .inl rfl, .inl rfl, .inr (by decide +kernel)⟩
  exact ⟨⟨sameMeaning_spelledGuesser, interchangeable_of_meaning (.inl sameMeaning_spelledGuesser)⟩,
    hspelled, interchangeable_of_meaning (.inr hspelled)⟩

end TapeMachine
