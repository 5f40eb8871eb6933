import TapeMachine.Format
import TapeMachine.Proofs.CodecRoundTrip
import TapeMachine.Report

/-!
# Definitions, diagrams and runs that were written in JSON

The codecs of definitions and diagrams keep every value, well-formed or not, and the codec of runs
keeps every run whose numbers have 64 bits. So what was written is read back as it was: a definition
and a diagram are then checked, and a run comes with the very tapes that it stored.
-/

namespace TapeMachine

open Json

private theorem Kind.codec_keeps (k : Kind) : Kind.codec.Keeps k := by
  cases k <;> exact rfl

private theorem Direction.codec_keeps (d : Direction) : Direction.codec.Keeps d := by
  cases d <;> exact rfl

private theorem Verdict.codec_keeps (v : Verdict) : Verdict.codec.Keeps v := by
  cases v <;> exact rfl

private theorem AutomatonKind.codec_keeps (k : AutomatonKind) : AutomatonKind.codec.Keeps k := by
  cases k <;> exact rfl

private theorem Rule.codec_keeps (r : Rule) : Rule.codec.Keeps r := by
  simp [codec, Codec.Keeps, Fields.Keep, Fields.names, Direction.codec_keeps]

private theorem Edge.codec_keeps (e : Edge) : Edge.codec.Keeps e := by
  simp [codec, Codec.Keeps, Fields.Keep, Fields.names]

private theorem Action.codec_keeps (a : Action) : Action.codec.Keeps a := by
  simp [codec, Codec.Keeps, Fields.Keep, Fields.names, Direction.codec_keeps]

private theorem Transition.codec_keeps (t : Transition) : Transition.codec.Keeps t := by
  simp [codec, Codec.Keeps, Fields.Keep, Fields.names, Action.codec_keeps]

private theorem Definition.codec_keeps (d : Definition) : Definition.codec.Keeps d := by
  simp [codec, Codec.Keeps, Fields.Keep, Fields.names, Kind.codec_keeps, Rule.codec_keeps]

private theorem Automaton.codec_keeps (a : Automaton) : Automaton.codec.Keeps a := by
  simp [codec, Codec.Keeps, Fields.Keep, Fields.names, AutomatonKind.codec_keeps, Edge.codec_keeps]

/-- The positions of a configuration have 64 bits, as stored ones do. -/
structure Configuration.Stored (c : Configuration) : Prop where
  offset : FitsSigned c.tape.offset
  head : FitsSigned c.head

structure TraceEntry.Stored (e : TraceEntry) : Prop where
  step : e.step ≤ Text.largestCount
  configuration : e.configuration.Stored

/-- The numbers of a run have 64 bits, as stored ones do. -/
structure Run.Stored (r : Run) : Prop where
  explored : r.explored ≤ Text.largestCount
  entries : ∀ e ∈ r.trace.entries, e.Stored

private theorem Tape.codec_keeps {t : Tape} (h : FitsSigned t.offset) : Tape.codec.Keeps t := by
  simpa [codec, Codec.Keeps, Fields.Keep, Fields.names] using h

private theorem Configuration.Stored.codec_keeps {c : Configuration} (h : c.Stored) :
    Configuration.codec.Keeps c := by
  have hhead := h.head
  simpa [codec, Codec.Keeps, Fields.Keep, Fields.names, Tape.codec_keeps h.offset] using hhead

private theorem TraceEntry.Stored.codec_keeps {e : TraceEntry} (h : e.Stored) :
    TraceEntry.codec.Keeps e := by
  -- a transition is written as an object, so it is never taken for the null of a missing one
  have hnull (t : Transition) : Transition.codec.document t ≠ .null := by
    simp [Transition.codec, Codec.document]
  simp [codec, Codec.Keeps, Fields.Keep, Fields.names, Transition.codec_keeps, hnull, h.step,
    h.configuration.codec_keeps]

private theorem Run.Stored.codec_keeps {r : Run} (h : r.Stored) : Run.codec.Keeps r := by
  have hentries : ∀ e ∈ r.trace.entries, TraceEntry.codec.Keeps e :=
    fun e he => (h.entries e he).codec_keeps
  simpa [codec, Trace.codec, Codec.Keeps, Fields.Keep, Fields.names, Verdict.codec_keeps,
    h.explored] using hentries

/-- A value if it passed its check, and else what the check found. -/
def checked {ε α : Type} (failure : ε → Failure) (check : Except ε Unit) (value : α) :
    Except Failure α :=
  match check with
  | .ok () => .ok value
  | .error fault => .error (failure fault)

/-- Reading undoes writing, compact or laid out over lines: a definition of permitted size and a
diagram are answered when they are well-formed and refused with their own fault otherwise, and a run
is the same with all that it shows. -/
theorem read_written (layout : Layout) :
    (∀ d : Definition, (Definition.codec.encode layout d).utf8ByteSize ≤ largestDefinition →
      Definition.read .json (Definition.codec.encode layout d) =
        checked .malformed d.validate d) ∧
    (∀ a : Automaton, Automaton.read (Automaton.codec.encode layout a) =
      checked .automaton a.validate a) ∧
    ∀ r : Run, r.Stored → ∃ r' : Run, Run.codec.decode (Run.codec.encode layout r) = .ok r' ∧
      r' = r ∧ r'.output = r.output ∧ r'.summary = r.summary ∧
      r'.trace.stepLines = r.trace.stepLines ∧ r'.trace.replay = r.trace.replay := by
  refine ⟨fun d hsize => ?_, fun a => ?_, fun r hr => ?_⟩
  · have hdecode := Codec.decode_encode layout (Definition.codec_keeps d)
    rw [Definition.read, if_neg (Nat.not_lt.mpr hsize)]
    cases hd : d.validate <;>
      simp [Definition.ofJson, hdecode, hd, orFailure, checked, bind, Except.bind, pure,
        Except.pure]
  · have hdecode := Codec.decode_encode layout (Automaton.codec_keeps a)
    cases ha : a.validate <;>
      simp [Automaton.read, hdecode, ha, orFailure, checked, bind, Except.bind, pure, Except.pure]
  · exact ⟨r, Codec.decode_encode layout hr.codec_keeps, rfl, rfl, rfl, rfl, rfl⟩

/-- A definition whose name is empty and whose states and symbols need care in a text. -/
def Definition.awkward : Definition where
  name := ""
  tapeAlphabet := ['"', '\\', '\x01', 'é']
  startState := "\"\\\n"
  acceptStates := ["é\x7f"]
  rules := ⟨[("\"\\\n", [⟨'"', '\x01', .left, "é\x7f"⟩]), ("é\x7f", [])], by decide⟩

/-- A run of one step with cells in front of position 0. -/
def Run.awkward : Run where
  verdict := .accepted
  trace := ⟨[
    { step := 0, transition := none,
      configuration := { state := "\"\\\n", tape := ⟨-2, #['\\', '"'], '_'⟩, head := -1 } },
    { step := 1, transition := some ⟨"\"\\\n", '"', ⟨"é\x7f", '\x01', .left⟩⟩,
      configuration := { state := "é\x7f", tape := ⟨-2, #['\\', '\x01'], '_'⟩, head := -2 } }]⟩
  explored := 2

private theorem Run.stored_awkward : Run.awkward.Stored where
  explored := by decide
  entries := by
    intro e he
    simp only [awkward, List.mem_cons, List.not_mem_nil, or_false] at he
    rcases he with rfl | rfl <;> exact ⟨by decide, by decide, by decide⟩

/-- Both are read back, and a definition without a start state is refused for it. -/
theorem read_written_awkward :
    let stateless : Definition := { name := "\t", startState := " " }
    (Definition.codec.encode .compact .awkward).utf8ByteSize ≤ largestDefinition ∧
    Definition.read .json (Definition.codec.encode .compact .awkward) = .ok .awkward ∧
    (Definition.codec.encode .lines stateless).utf8ByteSize ≤ largestDefinition ∧
    Definition.read .json (Definition.codec.encode .lines stateless) =
      .error (.malformed .missingStart) ∧
    Run.awkward.Stored ∧
    Run.codec.decode (Run.codec.encode .lines .awkward) = .ok .awkward := by
  intro stateless
  have hsize : (Definition.codec.encode .compact .awkward).utf8ByteSize ≤ largestDefinition := by
    decide +kernel
  have hvalid : Definition.awkward.validate = .ok () := by decide +kernel
  have hsize' : (Definition.codec.encode .lines stateless).utf8ByteSize ≤ largestDefinition := by
    decide +kernel
  have hfault : stateless.validate = .error .missingStart := by decide +kernel
  have hread := (read_written .compact).1 .awkward hsize
  have hread' := (read_written .lines).1 stateless hsize'
  rw [hvalid] at hread
  rw [hfault] at hread'
  obtain ⟨r, hdecode, rfl, -⟩ := (read_written .lines).2.2 _ Run.stored_awkward
  exact ⟨hsize, hread, hsize', hread', Run.stored_awkward, hdecode⟩

end TapeMachine
