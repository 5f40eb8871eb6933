import TapeMachine.Definition
import TapeMachine.Json.Codec

/-!
# Definitions and limits in JSON

A definition is a record whose fields may be left out, except its name and its start state.
-/

namespace TapeMachine

open Json (Codec)

def Kind.codec : Codec Kind :=
  .choice [("deterministic", .deterministic), ("nondeterministic", .nondeterministic)] Kind.label

def Direction.label : Direction → String
  | left => "Left"
  | right => "Right"
  | stay => "Stay"

def Direction.codec : Codec Direction :=
  .choice [("Left", .left), ("Right", .right), ("Stay", .stay)] Direction.label

def Rule.codec : Codec Rule :=
  .convert
    (fun (read, write, direction, nextState, ()) => { read, write, direction, nextState })
    (fun r => (r.read, r.write, r.direction, r.nextState, ()))
    (.record "Transition"
      (.cons "read" .character none <|
       .cons "write" .character none <|
       .cons "direction" Direction.codec none <|
       .cons "next_state" .text none .nil))

def Definition.codec : Codec Definition :=
  .convert
    (fun (name, kind, states, inputAlphabet, tapeAlphabet, blank, startState, acceptStates,
        rejectStates, rules, ()) =>
      { name, kind, states, inputAlphabet, tapeAlphabet, blank, startState, acceptStates,
        rejectStates, rules })
    (fun d => (d.name, d.kind, d.states, d.inputAlphabet, d.tapeAlphabet, d.blank, d.startState,
      d.acceptStates, d.rejectStates, d.rules, ()))
    (.record "MachineDefinition"
      (.cons "name" .text none <|
       .cons "kind" Kind.codec (some .deterministic) <|
       .cons "states" (.list .text) (some []) <|
       .cons "input_alphabet" (.list .character) (some []) <|
       .cons "tape_alphabet" (.list .character) (some []) <|
       .cons "blank" .character (some '_') <|
       .cons "start_state" .text none <|
       .cons "accept_states" (.list .text) (some []) <|
       .cons "reject_states" (.list .text) (some []) <|
       .cons "rules" (.table (.list Rule.codec)) (some Table.empty) .nil))

/-- Limits as records; what is left out keeps its default. -/
def Limits.codec : Codec Limits :=
  .convert
    (fun (maxSteps, maxConfigurations, ()) => { maxSteps, maxConfigurations })
    (fun l => (l.maxSteps, l.maxConfigurations, ()))
    (.record "Limits"
      (.cons "max_steps" .count (some ({} : Limits).maxSteps) <|
       .cons "max_configurations" .count (some ({} : Limits).maxConfigurations) .nil))

end TapeMachine
