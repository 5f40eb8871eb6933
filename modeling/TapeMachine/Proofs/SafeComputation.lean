import TapeMachine.Proofs.Computation
import TapeMachine.Proofs.PassedChecks

/-!
# Loaded machines cannot go wrong

A configuration is within a definition when its state is one of the definition's states and every
cell of its unbounded tape holds a symbol of the definition's tape. The start configuration of a
loaded machine is, and every transition keeps it so. The check that a step makes before it writes
holds of every action of the machine, whatever the configuration.
-/

namespace TapeMachine

/-- A tape that holds a text shows its symbols and the blank. -/
theorem Tape.read_ofString (text : String) (blank : Symbol) (p : Int) :
    (ofString text blank).read p = blank ∨ (ofString text blank).read p ∈ text.toList := by
  rw [read]
  split
  · exact .inl rfl
  · cases h : (ofString text blank).cells[(p - (ofString text blank).offset).toNat]? with
    | none => exact .inl rfl
    | some x => exact .inr (by simpa [ofString] using Array.mem_of_getElem? h)

/-- The state is one of the definition's, and every cell of the tape holds a symbol of its tape. -/
structure Configuration.Within (d : Definition) (c : Configuration) : Prop where
  state : c.state ∈ d.stateSet
  read (p : Int) : c.tape.read p ∈ d.tapeSymbols

theorem Configuration.Within.apply {d : Definition} {c : Configuration} {a : Action}
    (h : c.Within d) (ha : a.Within d) : (c.apply a).Within d := by
  refine ⟨ha.nextState, fun p => ?_⟩
  rw [read_tape_apply]
  split
  · exact ha.write
  · exact h.read p

namespace Machine

variable {m : Machine} {c : Configuration}

private theorem within_start (m : Machine) : m.start.Within m.definition := by
  refine ⟨m.startState_mem, fun p => ?_⟩
  rcases Tape.read_ofString m.input m.definition.blank p with h | h
  · exact h ▸ m.definition.blank_mem_tapeSymbols
  · exact m.input_mem_tapeSymbols h

/-- A transition stays within the definition. -/
theorem within_of_mem_successors (h : c.Within m.definition) {s : Successor}
    (hs : s ∈ (m.step c).successors) : s.configuration.Within m.definition := by
  rw [successors_step] at hs
  split at hs
  · obtain ⟨a, ha, rfl⟩ := List.mem_map.mp hs
    exact h.apply (m.within_of_mem_actions ha)
  · exact absurd hs List.not_mem_nil

/-- Computations of any length stay within the definition. -/
theorem Reaches.within {n : Nat} (h : m.Reaches n c) : c.Within m.definition := by
  induction h with
  | start => exact m.within_start
  | next _ hs ih => exact within_of_mem_successors ih hs

/-- The check of a symbol holds of every action that the table has. -/
theorem checkedSuccessor_eq (m : Machine) (c : Configuration) {q : State} {x : Symbol} {a : Action}
    (ha : a ∈ m.table.actions q x) : m.checkedSuccessor c a = .ok (successor c a) := by
  rw [actions_table] at ha
  rw [checkedSuccessor, if_pos]
  simpa using (m.within_of_mem_actions ha).write

private theorem mapM_checkedSuccessor (m : Machine) (c : Configuration) {actions : List Action}
    (h : ∀ a ∈ actions, m.checkedSuccessor c a = .ok (successor c a)) :
    actions.mapM (m.checkedSuccessor c) = .ok (actions.map (successor c)) := by
  induction actions with
  | nil => rfl
  | cons a rest ih =>
    obtain ⟨ha, hrest⟩ := List.forall_mem_cons.mp h
    rw [List.mapM_cons, ha, ih hrest]
    rfl

/-- In no configuration whatsoever is a symbol refused that a step writes. -/
theorem checkedStep_eq (m : Machine) (c : Configuration) : m.checkedStep c = .ok (m.step c) := by
  unfold checkedStep step
  cases m.haltingState? c.state with
  | some reason => rfl
  | none =>
    have hchecked {a : Action} (ha : a ∈ m.table.actions c.state c.symbol) :=
      m.checkedSuccessor_eq c ha
    cases ht : m.table with
    | single table =>
      cases hl : table[(c.state, c.symbol)]? with
      | none => simp only [hl]
      | some a =>
        have ha : a ∈ m.table.actions c.state c.symbol := by
          simp [ht, ActionTable.actions, hl]
        simp only [hl, hchecked ha]
        rfl
    | several table =>
      have hall : ∀ a ∈ table[(c.state, c.symbol)]?.getD [],
          m.checkedSuccessor c a = .ok (successor c a) := fun a ha =>
        hchecked (by simpa [ht, ActionTable.actions] using ha)
      simp only [m.mapM_checkedSuccessor c hall]
      rfl

/-- A deterministic machine never branches. -/
theorem step_ne_branch (hk : m.kind = .deterministic) (c : Configuration)
    (successors : List Successor) : m.step c ≠ .branch successors := by
  intro hb
  rw [step_eq, Definition.step, show m.definition.kind = .deterministic from hk] at hb
  split_ifs at hb
  cases hs : (m.definition.actions c.state c.symbol).map (successor c) <;> simp [hs] at hb

/-- A loaded machine cannot go wrong: no step of it is refused for the symbol that it writes, it
branches only if it is nondeterministic, and no computation, along whatever branches, leaves the
states and the tape symbols of the definition. -/
theorem loaded_machine_safe {d : Definition} {w : String} (h : load d w = .ok m) :
    (∀ c, m.checkedStep c = .ok (m.step c)) ∧
      (d.kind = .deterministic → ∀ c successors, m.step c ≠ .branch successors) ∧
      ∀ n c, m.Reaches n c → c.state ∈ d.stateSet ∧ ∀ p, c.tape.read p ∈ d.tapeSymbols := by
  obtain ⟨rfl, -⟩ := load_eq_ok_iff.mp h
  exact ⟨m.checkedStep_eq, step_ne_branch, fun n c hc => ⟨hc.within.state, hc.within.read⟩⟩

end Machine

/-- Erases a unary numeral from the left and steps back from the blank behind it. States and tape
symbols follow from the rest of the definition. -/
def Definition.eraser : Definition where
  name := "erase"
  inputAlphabet := ['1']
  startState := "erase"
  rules := ⟨[("erase", [⟨'1', '_', .right, "erase"⟩, ⟨'_', '_', .left, "back"⟩]), ("back", [])],
    by decide⟩

/-- The erasing machine on the numeral of one. -/
def Machine.erasing : Machine where
  definition := .eraser
  input := "1"
  table := Definition.eraser.compile
  table_eq := rfl
  valid := by decide +kernel
  fits := by decide +kernel

/-- After two transitions the machine is back on the erased cell. -/
theorem Machine.loaded_machine_safe_erasing :
    load .eraser "1" = .ok erasing ∧ Definition.eraser.kind = .deterministic ∧
      (∀ c, erasing.checkedStep c = .ok (erasing.step c)) ∧
      (∀ c successors, erasing.step c ≠ .branch successors) ∧
      ∃ c, erasing.Reaches 2 c ∧ c.state = "back" ∧ c.symbol = '_' ∧
        c.state ∈ Definition.eraser.stateSet ∧
          ∀ p, c.tape.read p ∈ Definition.eraser.tapeSymbols := by
  obtain ⟨hchecked, hbranch, hwithin⟩ := loaded_machine_safe erasing.load_eq
  have hreached : ∃ c ∈ erasing.frontier 2, c.state = "back" ∧ c.symbol = '_' := by decide +kernel
  obtain ⟨c, hc, hstate, hsymbol⟩ := hreached
  have hc := mem_frontier.mp hc
  exact ⟨erasing.load_eq, rfl, hchecked, hbranch rfl, c, hc, hstate, hsymbol, hwithin 2 c hc⟩

end TapeMachine
