import TapeMachine.Basic
import TapeMachine.SortedSet
import TapeMachine.Table

/-!
# Machine definitions

A definition is what an author writes down. Lists that are left empty stand for sets that follow
from the rest: `stateSet`, `tapeSymbols` and `inputSymbols` are the sets that are meant.
-/

namespace TapeMachine

/-- A machine as its author defines it. -/
structure Definition where
  name : String
  kind : Kind := .deterministic
  states : List State := []
  inputAlphabet : List Symbol := []
  tapeAlphabet : List Symbol := []
  blank : Symbol := '_'
  startState : State
  acceptStates : List State := []
  rejectStates : List State := []
  rules : Table (List Rule) := Table.empty
  deriving DecidableEq, Inhabited

namespace Definition

/-- The states of the machine: the declared ones or, when none are declared, those that have
rules, start, accept or reject and whose label is not empty. -/
def stateSet (d : Definition) : List State :=
  if d.states.isEmpty then
    sortedSet ((d.rules.keys ++ d.startState :: d.acceptStates ++ d.rejectStates).filter (· ≠ ""))
  else sortedSet d.states

theorem pairwise_stateSet (d : Definition) : d.stateSet.Pairwise (· < ·) := by
  rw [stateSet]
  split <;> exact pairwise_sortedSet _

/-- The symbols of the tape, always with the blank. Without a declared tape alphabet they are those
of the input alphabet. -/
def tapeSymbols (d : Definition) : List Symbol :=
  sortedSet (d.blank :: if d.tapeAlphabet.isEmpty then d.inputAlphabet else d.tapeAlphabet)

/-- The symbols of inputs. Without a declared input alphabet they are those of the tape other than
the blank. -/
def inputSymbols (d : Definition) : List Symbol :=
  if d.inputAlphabet.isEmpty then d.tapeSymbols.filter (· ≠ d.blank)
  else sortedSet d.inputAlphabet

def isAccepting (d : Definition) (s : State) : Bool := d.acceptStates.contains s

def isRejecting (d : Definition) (s : State) : Bool := d.rejectStates.contains s

/-- The rules of a source state, none when the state has no entry. -/
def rulesOf (d : Definition) (s : State) : List Rule := (d.rules.get? s).getD []

/-- The states that have an entry in the rules, in increasing order. -/
def sources (d : Definition) : List State := sortedSet d.rules.keys

theorem mem_sources_of_mem_rulesOf {d : Definition} {q : State} {r : Rule} (h : r ∈ d.rulesOf q) :
    q ∈ d.sources := by
  refine mem_sortedSet.mpr (Table.isSome_get?.mp ?_)
  cases hl : d.rules.get? q with
  | none => simp [rulesOf, hl] at h
  | some rules => rfl

def allRules (d : Definition) : List Rule := d.rules.entries.flatMap Prod.snd

def transitionCount (d : Definition) : Nat := d.allRules.length

end Definition

end TapeMachine
