import TapeMachine.CommandLine
import TapeMachine.Proofs.HeadView

/-!
# What is printed for a run

A run is printed as a document or as lines of text. Either way the input is there, the verdict, the
number of transitions, which is one less than the trace is long, and what the tape holds in the end:
every run has a last configuration, and there is no run that is printed without it.
-/

namespace TapeMachine.CommandLine

/-- The line that tells how a run ended after a number of transitions. -/
def endLine (verdict : Verdict) (transitions : Nat) : String :=
  let steps := toString transitions ++ if transitions = 1 then " step" else " steps"
  match verdict with
  | .accepted => "Accepted after " ++ steps
  | .rejected => "Rejected after " ++ steps
  | .haltedNonFinal => "Halted after " ++ steps
  | .timeout => "Timeout: no halt within " ++ steps

/-- The lines that are printed for a run of a machine which ends in a configuration. -/
inductive Prints (o : RunOptions) (m : Machine) (r : Run) (c : Configuration) :
    List String → Prop where
  | document (h : o.json = true) : Prints o m r c
      [Json.Document.render .lines <| .object
        [ ("machine", .text m.definition.name),
          ("input", .text m.input),
          ("verdict", .text r.verdict.name),
          ("steps", .integer (r.trace.length - 1 : Nat)),
          ("explored", .integer r.explored),
          ("output", .text c.tape.contents),
          ("trace", .list (r.trace.entries.map TraceEntry.report)) ]]
  | text (h : o.json = false) : Prints o m r c
      (["Input: " ++ Text.quoted m.input] ++
        (if o.trace then r.trace.entries.map fun e => e.configuration.line e.step else []) ++
        (if o.transitions then r.trace.transitions.map Transition.line else []) ++
        [renderWindow (c.window 10), "Output: " ++ c.tape.contents,
          endLine r.verdict (r.trace.length - 1)])

private theorem summary_eq (r : Run) : r.summary = endLine r.verdict r.steps := by
  have hunit : (toString r.steps ++ " step" ++ if r.steps = 1 then "" else "s") =
      toString r.steps ++ if r.steps = 1 then " step" else " steps" := by
    split
    · rw [String.append_empty]
    · rw [String.append_assoc]
      rfl
  unfold Run.summary endLine
  rw [← hunit]
  cases r.verdict <;> rfl

/-- What is printed for a run of a machine. -/
theorem prints_runLines (m : Machine) (l : Limits) (o : RunOptions) :
    ∃ c, (m.run l).trace.last? = some c ∧ Prints o m (m.run l) c (runLines m (m.run l) o) := by
  obtain ⟨c, hrecords, -⟩ := m.exists_records_run l
  have hlast : (m.run l).trace.last? = some c := hrecords.last
  have hsteps : (m.run l).steps = (m.run l).trace.length - 1 :=
    Nat.eq_sub_of_add_eq hrecords.length_transitions
  have houtput : (m.run l).output = c.tape.contents := by
    rw [Run.output, hlast]
    rfl
  refine ⟨c, hlast, ?_⟩
  cases hjson : o.json with
  | true =>
    rw [runLines, if_pos hjson, Run.report, houtput, hsteps]
    exact .document hjson
  | false =>
    rw [runLines, if_neg (by simp [hjson]), hlast, houtput, summary_eq, hsteps, List.append_assoc _
      (Option.elim ..)]
    exact .text hjson

end TapeMachine.CommandLine
