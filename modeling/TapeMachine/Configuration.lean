import TapeMachine.Tape

/-!
# Configurations

A configuration is a complete snapshot of a machine: state, tape and head. Two configurations are
alike (`≈`) when they have the same state and head and their tapes are alike; `appearance` is what
alike configurations have in common, in a form that can be compared and hashed.
-/

namespace TapeMachine

/-- A complete snapshot of a machine. -/
structure Configuration where
  state : State
  tape : Tape
  head : Int
  deriving DecidableEq, Inhabited

/-- What a configuration shows, whatever part of its tape is stored. -/
structure Appearance where
  state : State
  head : Int
  blank : Symbol
  /-- The part of the tape between its outermost symbols that are not blank. -/
  span : Int × List Symbol
  deriving DecidableEq, Hashable

namespace Configuration

/-- The configuration that a computation starts from: the input from position 0 on, the head on
position 0. -/
def initial (state : State) (input : String) (blank : Symbol) : Configuration :=
  { state, tape := Tape.ofString input blank, head := 0 }

def symbol (c : Configuration) : Symbol := c.tape.read c.head

/-- The configuration after an action: write, then move, then enter the next state. -/
def apply (c : Configuration) (a : Action) : Configuration :=
  { state := a.nextState
    tape := c.tape.write c.head a.write
    head := c.head + a.direction.offset }

def appearance (c : Configuration) : Appearance :=
  { state := c.state, head := c.head, blank := c.tape.blank, span := c.tape.span }

instance : HasEquiv Configuration := ⟨fun c d => c.appearance = d.appearance⟩

instance (c d : Configuration) : Decidable (c ≈ d) :=
  inferInstanceAs (Decidable (c.appearance = d.appearance))

theorem equiv_iff {c d : Configuration} :
    c ≈ d ↔ c.state = d.state ∧ c.head = d.head ∧ c.tape ≈ d.tape := by
  change c.appearance = d.appearance ↔ c.state = d.state ∧ c.head = d.head ∧
    (c.tape.blank = d.tape.blank ∧ c.tape.span = d.tape.span)
  simp [appearance]

@[simp] theorem state_apply (c : Configuration) (a : Action) : (c.apply a).state = a.nextState :=
  rfl

@[simp] theorem head_apply (c : Configuration) (a : Action) :
    (c.apply a).head = c.head + a.direction.offset := rfl

theorem read_tape_apply (c : Configuration) (a : Action) (position : Int) :
    (c.apply a).tape.read position = if position = c.head then a.write else c.tape.read position :=
  Tape.read_write ..

end Configuration

end TapeMachine
