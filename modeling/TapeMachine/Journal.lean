import TapeMachine.Execution
import TapeMachine.Format
import TapeMachine.Definition.Reachability
import TapeMachine.Text.Terminal

/-!
# The journal

What the operations of the library tell along the way. An attempt is a computation that may
fail and that writes records; what it wrote before it failed is kept. The attempts below do what the
functions of the same names do, and tell about it.
-/

namespace TapeMachine

inductive Severity where
  | trace
  | debug
  | warn
  deriving DecidableEq

def Severity.label : Severity → String
  | trace => "TRACE"
  | debug => "DEBUG"
  | warn => "WARN"

def Severity.rank : Severity → Nat
  | trace => 0
  | debug => 1
  | warn => 2

inductive Origin where
  | validation
  | machine
  | files
  | exploration
  | commandLine
  deriving DecidableEq

def Origin.label : Origin → String
  | validation => "tmsim::analyzer"
  | machine => "tmsim::machine"
  | files => "tmsim::loader"
  | exploration => "tmsim::explorer"
  | commandLine => "tmsim_cli"

structure Record where
  severity : Severity
  origin : Origin
  text : String
  deriving DecidableEq

/-- What is written for a record: a line with its text, of which further lines are set in. What a
terminal would take for commands is left out, and a line end is, too, where a command goes on. -/
def Record.written (r : Record) : String :=
  let gap := if r.severity = .warn then "  " else " "
  let label := s!"[{r.severity.label}{gap}{r.origin.label}] "
  String.ofList (Text.withoutCommands (label.toList ++ Text.indented 4 r.text.toList ++ ['\n']))

def Exploration.records (e : Exploration) (m : Machine) : List Record :=
  (if e.capped then
    [⟨.debug, .exploration, s!"exploration stopped at {e.explored} configurations"⟩] else []) ++
  [⟨.debug, .exploration,
    s!"explored {e.explored} configurations of '{m.definition.name}': {e.verdict.label}"⟩]

/-- The records of a step of an execution that led to another one. -/
def Execution.records (before after : Execution) : List Record :=
  match before.phase, after.phase with
  | .ready, .replaying exploration _ => exploration.records before.machine
  | .stepping last .., .stepping .. =>
    (before.machine.step last).successors.take 1 |>.map fun s =>
      ⟨.trace, .machine, s.transition.line⟩
  | _, _ => []

/-- The records of a run of a machine, without those of its exploration. -/
def Run.records (r : Run) (m : Machine) : List Record :=
  (match m.kind with
    | .nondeterministic => []
    | .deterministic => r.trace.transitions.map fun t => ⟨.trace, .machine, t.line⟩) ++
  [⟨.debug, .machine,
    s!"machine '{m.definition.name}' finished: {r.verdict.label} " ++
    s!"after {r.trace.length} configurations"⟩]

abbrev Told := StateM (Array Record)

abbrev Attempt (ε : Type) := ExceptT ε Told

namespace Journal

def tell (records : List Record) : Told Unit := modify (·.appendList records)

def lift {ε α : Type} (result : Except ε α) : Attempt ε α := ExceptT.mk (pure result)

def outcome {ε α : Type} (attempt : Attempt ε α) : Except ε α × List Record :=
  let (result, records) := attempt.run.run #[]
  (result, records.toList)

/-- The result of a told computation with the records it wrote. -/
def collect {α : Type} (told : Told α) : α × List Record :=
  let (result, records) := told.run #[]
  (result, records.toList)

/-- Tells of the states of a well-formed definition that cannot be reached. -/
def warnUnreachable (d : Definition) : Told Unit :=
  match d.unreachableStates with
  | [] => pure ()
  | states => tell
    [⟨.warn, .validation, s!"machine '{d.name}': unreachable states {Text.quotedList states}"⟩]

/-- A definition that has been read; tells of its states that cannot be reached. -/
def analyzed (result : Except Failure Definition) : Attempt Failure Definition := do
  let d ← lift result
  warnUnreachable d
  return d

def analyze (d : Definition) : Attempt Failure Unit := do
  lift (orFailure .malformed d.validate)
  warnUnreachable d

def read (format : Format) (text : String) : Attempt Failure Definition :=
  analyzed (Definition.read format text)

def parse (text : String) : Attempt Failure Definition := analyzed (Definition.parse text)

def fetch (files : Files) (path : String) : Attempt Failure Definition := do
  let text ← lift (files.definitionText path)
  tell [⟨.debug, .files, s!"loading definition from {path}"⟩]
  read (.ofPath path) text

/-- Reads the definitions of a list of files, each with its path. -/
def fetchAll (files : Files) :
    List String → Told (List (Except ScanFault (String × Definition)))
  | [] => pure []
  | path :: rest => do
    let result := match ← (fetch files path).run with
      | .ok d => .ok (path, d)
      | .error failure => .error (.unloadable path failure)
    return result :: (← fetchAll files rest)

def scan (files : Files) (directory : String) :
    Told (List (Except ScanFault (String × Definition))) :=
  match files.definitionPaths directory with
  | .error fault => pure [.error fault]
  | .ok paths => fetchAll files paths

def load (d : Definition) (input : String) : Attempt Failure Machine := do
  let m ← lift (orFailure .malformed (Machine.load d input))
  tell [⟨.debug, .machine,
    s!"loaded machine '{d.name}' ({d.kind.label}, {d.stateSet.length} states, " ++
    s!"{d.transitionCount} transitions) with input {Text.quoted input}"⟩]
  return m

def explore (m : Machine) (limits : Limits) : Told Exploration := do
  let e := m.explore limits
  tell (e.records m)
  return e

def run (m : Machine) (limits : Limits) : Told Run :=
  match m.kind with
  | .nondeterministic => do
    let r := (← explore m limits).run
    tell (r.records m)
    return r
  | .deterministic => do
    let r := m.run limits
    tell (r.records m)
    return r

def next (e : Execution) : Told (Option TraceEntry × Execution) := do
  let (entry, after) := e.next
  tell (e.records after)
  return (entry, after)

end Journal

end TapeMachine
