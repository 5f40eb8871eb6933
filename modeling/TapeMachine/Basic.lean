/-!
# Symbols, states, rules and verdicts

The words every other module speaks: what a machine reads and writes, what a rule does, how a
computation ends, and the limits of a run.
-/

namespace TapeMachine

abbrev Symbol := Char

instance : Hashable Symbol := instHashableChar

abbrev State := String

/-- How many actions a machine may have for one state and one symbol. -/
inductive Kind where
  | deterministic
  | nondeterministic
  deriving DecidableEq, Inhabited

def Kind.label : Kind → String
  | .deterministic => "deterministic"
  | .nondeterministic => "nondeterministic"

inductive Direction where
  | left
  | right
  | stay
  deriving DecidableEq, Inhabited, Hashable

namespace Direction

def offset : Direction → Int
  | left => -1
  | right => 1
  | stay => 0

def letter : Direction → Char
  | left => 'L'
  | right => 'R'
  | stay => 'S'

theorem natAbs_offset_le (d : Direction) : d.offset.natAbs ≤ 1 := by
  cases d <;> decide

end Direction

structure Action where
  nextState : State
  write : Symbol
  direction : Direction
  deriving DecidableEq, Inhabited, Hashable

/-- A rule of a source state: an action and the symbol that enables it. -/
structure Rule where
  read : Symbol
  write : Symbol
  direction : Direction
  nextState : State
  deriving DecidableEq, Inhabited

/-- The effect of a rule, without the symbol that enables it. -/
def Rule.action (r : Rule) : Action :=
  { nextState := r.nextState, write := r.write, direction := r.direction }

inductive Halt where
  | accept
  | reject
  | noTransition
  deriving DecidableEq, Inhabited

inductive Verdict where
  | accepted
  | rejected
  | haltedNonFinal
  | timeout
  deriving DecidableEq, Inhabited

/-- The verdict on a computation that ends with the given halt. -/
def Halt.verdict : Halt → Verdict
  | accept => .accepted
  | reject => .rejected
  | noTransition => .haltedNonFinal

def Verdict.label : Verdict → String
  | accepted => "Accepted"
  | rejected => "Rejected"
  | haltedNonFinal => "Halted"
  | timeout => "Timeout"

structure Limits where
  /-- The number of configurations a trace may hold, the start configuration included. -/
  maxSteps : Nat := 1000
  /-- The number of configurations an exploration may create. -/
  maxConfigurations : Nat := 100000
  deriving DecidableEq, Inhabited

/-- The length of the longest trace within the limits: the start configuration is always in it. -/
def Limits.depth (limits : Limits) : Nat := max 1 limits.maxSteps

theorem Limits.depth_pos (limits : Limits) : 0 < limits.depth :=
  Nat.lt_of_lt_of_le Nat.zero_lt_one (Nat.le_max_left ..)

end TapeMachine
