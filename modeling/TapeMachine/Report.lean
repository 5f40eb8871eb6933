import TapeMachine.Machine
import TapeMachine.Trace.Codec

/-!
# Reports

How runs are shown: lines for configurations and transitions, a window of the tape around the head,
a summary, and a document with all of it.
-/

namespace TapeMachine

/-- The line that shows a configuration after a number of steps. -/
def Configuration.line (c : Configuration) (step : Nat) : String :=
  s!"Step {step}: State={c.state}, Head={c.head}, Tape={c.tape.contents}"

namespace Trace

def stepLines (t : Trace) : List String := t.entries.map fun e => e.configuration.line e.step

def transitionLines (t : Trace) : List String := t.transitions.map Transition.line

end Trace

structure Cell where
  position : Int
  symbol : Symbol
  head : Bool
  deriving DecidableEq

/-- The number of cells that are shown on each side of the head. -/
def windowRadius : Nat := 10

def Configuration.window (c : Configuration) (radius : Nat) : List Cell :=
  (c.tape.window c.head radius).map fun (position, symbol) =>
    { position, symbol, head := position = c.head }

/-- A window on one line, with the head's cell in brackets. -/
def renderWindow (cells : List Cell) : String :=
  String.ofList (cells.flatMap fun cell =>
    if cell.head then ['[', cell.symbol, ']'] else [' ', cell.symbol, ' '])

def Run.summary (r : Run) : String :=
  let steps := s!"{r.steps} step" ++ (if r.steps = 1 then "" else "s")
  match r.verdict with
  | .timeout => s!"Timeout: no halt within {steps}"
  | verdict => s!"{verdict.label} after {steps}"

def TraceEntry.report (e : TraceEntry) : Json.Document :=
  .object
    [ ("step", .integer e.step),
      ("state", .text e.configuration.state),
      ("head", .integer e.configuration.head),
      ("tape", .text e.configuration.tape.contents),
      ("transition", (e.transition.map fun t => Json.Document.text t.line).getD .null) ]

def Run.report (r : Run) (m : Machine) : Json.Document :=
  .object
    [ ("machine", .text m.definition.name),
      ("input", .text m.input),
      ("verdict", Verdict.codec.document r.verdict),
      ("steps", .integer r.steps),
      ("explored", .integer r.explored),
      ("output", .text r.output),
      ("trace", .list (r.trace.entries.map TraceEntry.report)) ]

end TapeMachine
