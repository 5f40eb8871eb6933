import TapeMachine.Proofs.CompiledRules

/-!
# Passed checks

What each check of a definition asks for, in terms of the sets that the definition means: no fault
is found exactly when the condition holds. A machine was loaded through all of them, so its rules
lead to states of the definition and write symbols of its tape, and its input consists of symbols
of the tape.
-/

namespace TapeMachine

@[simp] theorem sortedSet_eq_nil_iff {α : Type} [LT α] [DecidableLT α] [DecidableEq α]
    {xs : List α} : sortedSet xs = [] ↔ xs = [] := by
  simp only [List.eq_nil_iff_forall_not_mem, mem_sortedSet]

/-- The fault of having offenders, none where there are none. -/
def faultOf? {α : Type} (fault : List α → Fault) : List α → Option Fault
  | [] => none
  | offenders => some (fault offenders)

@[simp] theorem faultOf?_eq_none_iff {α : Type} {fault : List α → Fault} {offenders : List α} :
    faultOf? fault offenders = none ↔ offenders = [] := by
  cases offenders <;> simp [faultOf?]

theorem eq_of_faultOf?_eq_some {α : Type} {fault : List α → Fault} {offenders : List α} {f : Fault}
    (h : faultOf? fault offenders = some f) : f = fault offenders := by
  cases offenders with
  | nil => cases h
  | cons x rest => exact (Option.some.inj h).symm

namespace Definition

variable {d : Definition}

theorem undeclaredStates?_eq (d : Definition) (referenced : List State) :
    d.undeclaredStates? referenced = faultOf? .undeclaredStates
      (sortedSet (referenced.filter fun q => !d.stateSet.contains q)) := by
  simp only [undeclaredStates?]
  cases sortedSet (referenced.filter fun q => !d.stateSet.contains q) <;> rfl

theorem alphabetFault?_of_not_mem (h : d.blank ∉ d.inputSymbols) :
    d.alphabetFault? = faultOf? .inputOutsideTape
      (d.inputSymbols.filter fun x => !d.tapeSymbols.contains x) := by
  simp only [alphabetFault?, List.contains_iff_mem, if_neg h]
  cases d.inputSymbols.filter fun x => !d.tapeSymbols.contains x <;> rfl

theorem ruleSymbolsFault?_eq (d : Definition) : d.ruleSymbolsFault? = faultOf? .undeclaredSymbols
    (sortedSet ((d.allRules.flatMap fun r => [r.read, r.write]).filter
      fun x => !d.tapeSymbols.contains x)) := by
  simp only [ruleSymbolsFault?]
  cases sortedSet ((d.allRules.flatMap fun r => [r.read, r.write]).filter
    fun x => !d.tapeSymbols.contains x) <;> rfl

theorem haltConflictFault?_eq (d : Definition) : d.haltConflictFault? =
    faultOf? .conflictingHalts (sortedSet (d.rejectStates.filter d.isAccepting)) := by
  rw [haltConflictFault?]
  cases sortedSet (d.rejectStates.filter d.isAccepting) <;> rfl

/-- Nothing undeclared is referred to. -/
theorem undeclaredStates?_eq_none_iff {referenced : List State} :
    d.undeclaredStates? referenced = none ↔ ∀ q ∈ referenced, q ∈ d.stateSet := by
  simp [undeclaredStates?_eq, List.filter_eq_nil_iff]

theorem startFault?_eq_none_iff : d.startFault? = none ↔
    Text.trim d.startState.toList ≠ [] ∧ d.startState ∈ d.stateSet := by
  by_cases ht : Text.trim d.startState.toList = []
  · simp [startFault?, ht]
  · by_cases hs : d.startState ∈ d.stateSet <;> simp [startFault?, ht, hs]

theorem haltStatesFault?_eq_none_iff : d.haltStatesFault? = none ↔
    ∀ q, q ∈ d.acceptStates ∨ q ∈ d.rejectStates → q ∈ d.stateSet := by
  simp only [haltStatesFault?, undeclaredStates?_eq_none_iff, List.mem_append]

theorem alphabetFault?_eq_none_iff : d.alphabetFault? = none ↔
    d.blank ∉ d.inputSymbols ∧ ∀ x ∈ d.inputSymbols, x ∈ d.tapeSymbols := by
  by_cases hb : d.blank ∈ d.inputSymbols
  · simp [alphabetFault?, hb]
  · simp [alphabetFault?_of_not_mem hb, hb, List.filter_eq_nil_iff]

theorem ruleStatesFault?_eq_none_iff : d.ruleStatesFault? = none ↔
    (∀ q ∈ d.rules.keys, q ∈ d.stateSet) ∧ ∀ r ∈ d.allRules, r.nextState ∈ d.stateSet := by
  rw [ruleStatesFault?, undeclaredStates?_eq_none_iff]
  simp [or_imp, forall_and]

theorem ruleSymbolsFault?_eq_none_iff : d.ruleSymbolsFault? = none ↔
    ∀ r ∈ d.allRules, r.read ∈ d.tapeSymbols ∧ r.write ∈ d.tapeSymbols := by
  simp only [ruleSymbolsFault?_eq, faultOf?_eq_none_iff, sortedSet_eq_nil_iff,
    List.filter_eq_nil_iff, List.mem_flatMap]
  constructor
  · intro h r hr
    exact ⟨by simpa using h r.read ⟨r, hr, by simp⟩, by simpa using h r.write ⟨r, hr, by simp⟩⟩
  · rintro h x ⟨r, hr, hx⟩
    obtain ⟨hread, hwrite⟩ := h r hr
    obtain rfl | rfl : x = r.read ∨ x = r.write := by simpa using hx
    · simpa using hread
    · simpa using hwrite

/-- No rules of a deterministic machine compete. -/
theorem determinismFault?_eq_none_iff : d.determinismFault? = none ↔
    (d.kind = .deterministic → ∀ q ∈ d.rules.keys, ((d.rulesOf q).map (·.read)).Nodup) := by
  cases hk : d.kind with
  | nondeterministic => simp [determinismFault?, hk]
  | deterministic =>
    simp [determinismFault?, hk, sources, firstRepeated?_eq_none_iff]

theorem haltConflictFault?_eq_none_iff : d.haltConflictFault? = none ↔
    ∀ q ∈ d.acceptStates, q ∉ d.rejectStates := by
  simp only [haltConflictFault?_eq, faultOf?_eq_none_iff, sortedSet_eq_nil_iff,
    List.filter_eq_nil_iff, isAccepting, List.contains_iff_mem]
  exact ⟨fun h q ha hr => h q hr ha, fun h q hr ha => h q ha hr⟩

theorem firstForeign?_eq_none_iff {alphabet : List Symbol} {position : Nat} {text : List Symbol} :
    firstForeign? alphabet position text = none ↔ ∀ x ∈ text, x ∈ alphabet := by
  induction text generalizing position with
  | nil => simp [firstForeign?]
  | cons x rest ih =>
    by_cases hx : x ∈ alphabet
    · simp [firstForeign?, hx, ih]
    · simp [firstForeign?, hx]

theorem checkInput_eq_error_iff {w : String} {f : Fault} :
    d.checkInput w = .error f ↔ firstForeign? d.inputSymbols 0 w.toList = some f := by
  rw [checkInput]
  cases firstForeign? d.inputSymbols 0 w.toList <;> simp

theorem checkInput_eq_ok_iff {w : String} :
    d.checkInput w = .ok () ↔ ∀ x ∈ w.toList, x ∈ d.inputSymbols := by
  have h : firstForeign? d.inputSymbols 0 w.toList = none ↔ _ := firstForeign?_eq_none_iff
  rw [← h, checkInput]
  cases firstForeign? d.inputSymbols 0 w.toList <;> simp

theorem blank_mem_tapeSymbols (d : Definition) : d.blank ∈ d.tapeSymbols := by
  simp [tapeSymbols]

/-- The rules of a state are rules of the definition. -/
theorem mem_allRules_of_mem_rulesOf {q : State} {r : Rule} (h : r ∈ d.rulesOf q) :
    r ∈ d.allRules := by
  cases hq : d.rules.get? q with
  | none => simp [rulesOf, hq] at h
  | some rules =>
    have hr : r ∈ rules := by simpa [rulesOf, hq] using h
    exact List.mem_flatMap.mpr ⟨(q, rules), Table.mem_entries_iff.mpr hq, hr⟩

/-- An action is that of a rule for the state and the symbol. -/
theorem exists_rule_of_mem_actions {q : State} {x : Symbol} {a : Action}
    (h : a ∈ d.actions q x) : ∃ r ∈ d.rulesOf q, r.read = x ∧ r.action = a := by
  obtain ⟨r, hr, rfl⟩ := List.mem_map.mp h
  obtain ⟨hr, hx⟩ := List.mem_filter.mp hr
  exact ⟨r, hr, by simpa using hx, rfl⟩

end Definition

/-- The action leads to a state of the definition and writes a symbol of its tape. -/
structure Action.Within (d : Definition) (a : Action) : Prop where
  nextState : a.nextState ∈ d.stateSet
  write : a.write ∈ d.tapeSymbols

namespace Machine

variable (m : Machine)

theorem startState_mem : m.definition.startState ∈ m.definition.stateSet :=
  (Definition.startFault?_eq_none_iff.mp
    ((Definition.validate_eq_ok_iff _).mp m.valid).1).2

/-- Every symbol of the input is a symbol of the tape. -/
theorem input_mem_tapeSymbols {x : Symbol} (hx : x ∈ m.input.toList) :
    x ∈ m.definition.tapeSymbols := by
  have hinput := Definition.checkInput_eq_ok_iff.mp m.fits x hx
  exact (Definition.alphabetFault?_eq_none_iff.mp
    ((Definition.validate_eq_ok_iff _).mp m.valid).2.2.1).2 x hinput

/-- The actions of a machine stay within its definition. -/
theorem within_of_mem_actions {q : State} {x : Symbol} {a : Action}
    (ha : a ∈ m.definition.actions q x) : a.Within m.definition := by
  obtain ⟨-, -, -, hstates, hsymbols, -⟩ := (Definition.validate_eq_ok_iff _).mp m.valid
  obtain ⟨r, hr, -, rfl⟩ := Definition.exists_rule_of_mem_actions ha
  have hall := Definition.mem_allRules_of_mem_rulesOf hr
  exact ⟨(Definition.ruleStatesFault?_eq_none_iff.mp hstates).2 r hall,
    (Definition.ruleSymbolsFault?_eq_none_iff.mp hsymbols r hall).2⟩

end Machine

end TapeMachine
