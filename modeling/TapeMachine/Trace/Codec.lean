import TapeMachine.Definition.Codec
import TapeMachine.Trace

/-!
# Runs in JSON

Runs and all they consist of are records. Tapes are represented as they are stored, so reading what
was written gives back the very same run.
-/

namespace TapeMachine

open Json (Codec)

/-- The name of a verdict as a value; the word shown for it is its label. -/
def Verdict.name : Verdict → String
  | accepted => "Accepted"
  | rejected => "Rejected"
  | haltedNonFinal => "HaltedNonFinal"
  | timeout => "Timeout"

def Verdict.codec : Codec Verdict :=
  .choice [("Accepted", .accepted), ("Rejected", .rejected), ("HaltedNonFinal", .haltedNonFinal),
    ("Timeout", .timeout)] Verdict.name

def Action.codec : Codec Action :=
  .convert
    (fun (nextState, write, direction, ()) => { nextState, write, direction })
    (fun a => (a.nextState, a.write, a.direction, ()))
    (.record "Action"
      (.cons "next_state" .text none <|
       .cons "write" .character none <|
       .cons "direction" Direction.codec none .nil))

def Transition.codec : Codec Transition :=
  .convert
    (fun (state, read, action, ()) => { state, read, action })
    (fun t => (t.state, t.read, t.action, ()))
    (.record "Transition"
      (.cons "state" .text none <|
       .cons "read" .character none <|
       .cons "action" Action.codec none .nil))

def Tape.codec : Codec Tape :=
  .convert
    (fun (offset, cells, blank, ()) => { offset, cells := cells.toArray, blank })
    (fun t => (t.offset, t.cells.toList, t.blank, ()))
    (.record "Tape"
      (.cons "offset" .integer none <|
       .cons "cells" (.list .character) none <|
       .cons "blank" .character none .nil))

def Configuration.codec : Codec Configuration :=
  .convert
    (fun (state, tape, head, ()) => { state, tape, head })
    (fun c => (c.state, c.tape, c.head, ()))
    (.record "Configuration"
      (.cons "state" .text none <|
       .cons "tape" Tape.codec none <|
       .cons "head" .integer none .nil))

def TraceEntry.codec : Codec TraceEntry :=
  .convert
    (fun (step, transition, configuration, ()) => { step, transition, configuration })
    (fun e => (e.step, e.transition, e.configuration, ()))
    (.record "TraceEntry"
      (.cons "step" .count none <|
       .cons "transition" (.nullable Transition.codec) (some none) <|
       .cons "configuration" Configuration.codec none .nil))

def Trace.codec : Codec Trace :=
  .convert
    (fun (entries, ()) => { entries })
    (fun t => (t.entries, ()))
    (.record "Trace" (.cons "entries" (.list TraceEntry.codec) none .nil))

def Run.codec : Codec Run :=
  .convert
    (fun (verdict, trace, explored, ()) => { verdict, trace, explored })
    (fun r => (r.verdict, r.trace, r.explored, ()))
    (.record "Run"
      (.cons "verdict" Verdict.codec none <|
       .cons "trace" Trace.codec none <|
       .cons "explored" .count none .nil))

end TapeMachine
