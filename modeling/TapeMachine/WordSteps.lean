import TapeMachine.Report
import TapeMachine.Tape.Words

/-!
# Steps in words

What a machine does, and what is displayed of a configuration, where positions are computed in words
of 64 bits. An operation on words that gives nothing ends the step or the display that needs it.
-/

namespace TapeMachine

variable (o : Overflow)

namespace Machine

def successorBy? (c : Configuration) (read : Symbol) (a : Action) : Option Successor :=
  (c.applyBy? o a).map fun d =>
    { transition := { state := c.state, read, action := a }, configuration := d }

/-- What follows a configuration. Nothing is read in a state that halts, and otherwise every
successor is made. -/
def stepBy? (m : Machine) (c : Configuration) : Option Step :=
  match m.haltingState? c.state with
  | some reason => some (.halt reason)
  | none =>
    (c.tape.readBy? o c.head).bind fun read =>
      match m.table with
      | .single table =>
        match table[(c.state, read)]? with
        | some a => (successorBy? o c read a).map .next
        | none => some (.halt .noTransition)
      | .several table =>
        ((table[(c.state, read)]?.getD []).mapM (successorBy? o c read)).map .branch

end Machine

namespace Configuration

/-- The line that shows a configuration after a number of steps. -/
def lineBy? (c : Configuration) (step : Nat) : Option String :=
  (c.tape.contentsBy? o).map fun contents =>
    s!"Step {step}: State={c.state}, Head={c.head}, Tape={contents}"

def windowBy? (c : Configuration) (radius : Nat) : Option (List Cell) :=
  (c.tape.windowBy? o c.head radius).map fun cells =>
    cells.map fun (position, symbol) => { position, symbol, head := position = c.head }

end Configuration

end TapeMachine
