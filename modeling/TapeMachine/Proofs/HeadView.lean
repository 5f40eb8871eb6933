import TapeMachine.Proofs.DiagramSimulation
import TapeMachine.Proofs.StepBound

/-!
# The tape as the head sees it

A view has the symbols before the head, the nearest one first, and the symbols from the head on;
beyond both lists there are blanks. It does not say where on the tape the head is, and so a phase of
a program is described by the symbols that it works on alone. `Moves` makes a number of steps from
one view to another, by rules that leave no choice. A sweep over a block of symbols takes as many
steps as the block has symbols, and what moves lead to is where the computation of a deterministic
machine gets to: if that is a halting state, the run ends there.
-/

namespace TapeMachine

structure View where
  state : State
  /-- The symbols before the head, the nearest one first. -/
  left : List Symbol
  /-- The symbols from the head on. -/
  right : List Symbol

namespace View

variable (blank : Symbol)

def symbol (v : View) : Symbol := v.right.headD blank

/-- The view after the head has gone back by one cell. -/
def back (q : State) (left right : List Symbol) : View := ⟨q, left.tail, left.headD blank :: right⟩

/-- The view after an action. -/
def apply (v : View) (a : Action) : View :=
  match a.direction with
  | .left => back blank a.nextState v.left (a.write :: v.right.tail)
  | .right => ⟨a.nextState, a.write :: v.left, v.right.tail⟩
  | .stay => ⟨a.nextState, v.left, a.write :: v.right.tail⟩

end View

/-- The view is what the configuration shows around its head. -/
structure Configuration.Shows (blank : Symbol) (c : Configuration) (v : View) : Prop where
  state : c.state = v.state
  left (i : Nat) : c.tape.read (c.head - 1 - i) = v.left.getD i blank
  right (i : Nat) : c.tape.read (c.head + i) = v.right.getD i blank

namespace Configuration.Shows

variable {blank : Symbol} {c : Configuration} {v : View}

theorem symbol (h : c.Shows blank v) : c.symbol = v.symbol blank := by
  have h0 := h.right 0
  rw [Int.natCast_zero, Int.add_zero] at h0
  rw [Configuration.symbol, h0, View.symbol]
  cases v.right <;> rfl

/-- The written symbol stands where the head was, and all around it is what was there. -/
theorem read_write_right (h : c.Shows blank v) (x : Symbol) (i : Nat) :
    (c.tape.write c.head x).read (c.head + i) = (x :: v.right.tail).getD i blank := by
  rw [Tape.read_write]
  cases i with
  | zero => simp
  | succ i =>
    rw [if_neg (by omega), h.right, List.getD_cons_succ]
    simp only [List.getD_eq_getElem?_getD, List.getElem?_tail]

private theorem read_write_left (h : c.Shows blank v) (x : Symbol) (i : Nat) :
    (c.tape.write c.head x).read (c.head - 1 - i) = v.left.getD i blank := by
  rw [Tape.read_write, if_neg (by omega), h.left]

/-- What a configuration shows after an action. -/
theorem apply (h : c.Shows blank v) (a : Action) : (c.apply a).Shows blank (v.apply blank a) := by
  obtain ⟨q, x, d⟩ := a
  have hright := h.read_write_right x
  have hleft := h.read_write_left x
  cases d with
  | stay =>
    refine ⟨rfl, fun i => ?_, fun i => ?_⟩
    · change (c.tape.write c.head x).read (c.head + 0 - 1 - i) = v.left.getD i blank
      rw [Int.add_zero, hleft]
    · change (c.tape.write c.head x).read (c.head + 0 + i) = (x :: v.right.tail).getD i blank
      rw [Int.add_zero, hright]
  | right =>
    refine ⟨rfl, fun i => ?_, fun i => ?_⟩
    · change (c.tape.write c.head x).read (c.head + 1 - 1 - i) = (x :: v.left).getD i blank
      cases i with
      | zero => simpa using hright 0
      | succ i =>
        rw [List.getD_cons_succ, ← hleft]
        congr 1
        omega
    · change (c.tape.write c.head x).read (c.head + 1 + i) = v.right.tail.getD i blank
      have hnext := hright (i + 1)
      rw [List.getD_cons_succ] at hnext
      rw [← hnext]
      congr 1
      omega
  | left =>
    refine ⟨rfl, fun i => ?_, fun i => ?_⟩
    · change (c.tape.write c.head x).read (c.head + -1 - 1 - i) = v.left.tail.getD i blank
      have hnext := hleft (i + 1)
      rw [List.getD_eq_getElem?_getD, ← List.getElem?_tail, ← List.getD_eq_getElem?_getD] at hnext
      rw [← hnext]
      congr 1
      omega
    · change (c.tape.write c.head x).read (c.head + -1 + i) =
        (v.left.headD blank :: x :: v.right.tail).getD i blank
      cases i with
      | zero =>
        have hhead := hleft 0
        rw [Int.natCast_zero, Int.sub_zero] at hhead
        rw [Int.natCast_zero, Int.add_zero, ← Int.sub_eq_add_neg]
        cases hl : v.left <;> simpa [hl] using hhead
      | succ i =>
        rw [List.getD_cons_succ, ← hright]
        congr 1
        omega

end Configuration.Shows

namespace Definition

/-- The state does not halt and the rules have this action alone for the symbol. -/
def Prescribes (d : Definition) (q : State) (s : Symbol) (a : Action) : Prop :=
  d.isAccepting q = false ∧ d.isRejecting q = false ∧ d.actions q s = [a]

instance (d : Definition) (q : State) (s : Symbol) (a : Action) : Decidable (d.Prescribes q s a) :=
  inferInstanceAs (Decidable (_ ∧ _ ∧ _))

/-- So many prescribed actions lead from one view to another. -/
inductive Moves (d : Definition) : Nat → View → View → Prop where
  | refl (v : View) : Moves d 0 v v
  | next {n v w a} (ha : d.Prescribes v.state (v.symbol d.blank) a)
      (h : Moves d n (v.apply d.blank a) w) : Moves d (n + 1) v w

variable {d : Definition} {n k : Nat} {u v w : View} {q : State} {s : Symbol} {a : Action}
  {l r x : List Symbol}

theorem Moves.single (ha : d.Prescribes q s a) (hs : r.headD d.blank = s) :
    d.Moves 1 ⟨q, l, r⟩ (View.apply d.blank ⟨q, l, r⟩ a) :=
  .next (by rwa [View.symbol, hs]) (.refl _)

theorem Moves.trans (h : d.Moves n u v) (h' : d.Moves k v w) : d.Moves (n + k) u w := by
  induction h with
  | refl => rwa [Nat.zero_add]
  | next ha _ ih =>
    rw [Nat.add_right_comm]
    exact .next ha (ih h')

/-- The head moves right over a block, which is left as it is. -/
theorem moves_right (h : ∀ s ∈ x, d.Prescribes q s ⟨q, s, .right⟩) :
    d.Moves x.length ⟨q, l, x ++ r⟩ ⟨q, x.reverse ++ l, r⟩ := by
  induction x generalizing l with
  | nil => exact .refl _
  | cons s x ih =>
    obtain ⟨hs, hx⟩ := List.forall_mem_cons.mp h
    rw [List.reverse_cons, List.append_assoc]
    exact .next hs (ih hx)

/-- The head moves back over a block, which is left as it is. -/
theorem moves_back (h : ∀ s ∈ x, d.Prescribes q s ⟨q, s, .left⟩) :
    d.Moves x.length (View.back d.blank q (x ++ l) r)
      (View.back d.blank q l (x.reverse ++ r)) := by
  induction x generalizing r with
  | nil => exact .refl _
  | cons s x ih =>
    obtain ⟨hs, hx⟩ := List.forall_mem_cons.mp h
    rw [List.reverse_cons, List.append_assoc]
    exact .next hs (ih hx)

end Definition

/-- From position 0 on a text is read symbol by symbol, and blanks behind it. -/
theorem Tape.read_ofString_natCast (text : String) (blank : Symbol) (i : Nat) :
    (ofString text blank).read i = text.toList.getD i blank := by
  simp [read, ofString, List.getD_eq_getElem?_getD]

namespace Machine

variable {m : Machine} {limits : Limits} {c : Configuration} {v w : View} {a : Action}
  {n k : Nat} {reason : Halt}

/-- What the machine starts with: the input from the head on. -/
def view (m : Machine) : View := ⟨m.definition.startState, [], m.input.toList⟩

theorem shows_start (m : Machine) : m.start.Shows m.definition.blank m.view where
  state := rfl
  left i := by
    have hlt : (0 : Int) - 1 - i < 0 := by omega
    change (if (0 : Int) - 1 - i < 0 then m.definition.blank else _) = _
    rw [if_pos hlt]
    rfl
  right i := by
    change (Tape.ofString m.input m.definition.blank).read (0 + i) = _
    rw [Int.zero_add, Tape.read_ofString_natCast]
    rfl

private theorem successors_of_prescribes (ha : m.definition.Prescribes c.state c.symbol a) :
    (m.step c).successors = [successor c a] := by
  obtain ⟨haccept, hreject, hactions⟩ := ha
  have hhalt : m.haltingState? c.state = none := by simp [haltingState?, haccept, hreject]
  rw [successors_step, if_pos hhalt, hactions]
  rfl

/-- Every trace records a transition for each entry but the first. -/
theorem Records.length_transitions {entries : List TraceEntry} (h : m.Records entries c) :
    (Trace.mk entries).transitions.length + 1 = entries.length := by
  induction h with
  | start => rfl
  | @next entries c s _ _ ih =>
    simpa [Trace.transitions, Successor.entry] using ih

section Deterministic

variable (hk : m.kind = .deterministic)

include hk

theorem entryAfter?_succ_of_prescribes {e : TraceEntry} (he : m.entryAfter? k = some e)
    (ha : m.definition.Prescribes e.configuration.state e.configuration.symbol a) :
    m.entryAfter? (k + 1) = some ((successor e.configuration a).entry (k + 1)) :=
  entryAfter?_succ_of_next he (step_eq_next_of_mem hk (by simp [successors_of_prescribes ha]))

/-- The computation makes the moves that its view allows. -/
theorem exists_entryAfter_of_moves (h : m.definition.Moves n v w) {e : TraceEntry}
    (he : m.entryAfter? k = some e) (hv : e.configuration.Shows m.definition.blank v) :
    ∃ e', m.entryAfter? (k + n) = some e' ∧ e'.configuration.Shows m.definition.blank w := by
  induction h generalizing k e with
  | refl => exact ⟨e, he, hv⟩
  | @next n v w a ha _ ih =>
    rw [← hv.state, ← hv.symbol] at ha
    obtain ⟨e', he', hw⟩ := ih (entryAfter?_succ_of_prescribes hk he ha) (hv.apply a)
    exact ⟨e', by rwa [← Nat.add_assoc, Nat.add_right_comm], hw⟩

/-- Moves to a halting state are the whole computation. -/
theorem haltsAfter_of_moves (h : m.definition.Moves n m.view w)
    (hw : m.haltingState? w.state = some reason) : m.HaltsAfter n reason := by
  obtain ⟨e, he, hshows⟩ := exists_entryAfter_of_moves hk h (k := 0) rfl m.shows_start
  rw [Nat.zero_add] at he
  refine ⟨e, he, ?_⟩
  rw [step, hshows.state, hw]

/-- A run with room for all moves to a halting state makes them and has the verdict of the state. -/
theorem run_of_moves (h : m.definition.Moves n m.view w)
    (hw : m.haltingState? w.state = some reason) (hle : n < limits.maxSteps) :
    (m.run limits).verdict = reason.verdict ∧ (m.run limits).steps = n := by
  have hroom : n + 1 ≤ limits.depth := Nat.le_trans hle (Nat.le_max_right ..)
  obtain ⟨hfirst, hv⟩ := run_of_haltsAfter hk (haltsAfter_of_moves hk h hw) hroom
  obtain ⟨c, hrecords, -⟩ := m.exists_records_run limits
  have hsteps : (m.run limits).steps + 1 = n + 1 := hfirst.length_eq ▸ hrecords.length_transitions
  exact ⟨hv, Nat.succ.inj hsteps⟩

end Deterministic

end Machine

end TapeMachine
