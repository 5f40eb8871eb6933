import TapeMachine.Catalog
import TapeMachine.CommandLine.Arguments
import TapeMachine.Journal
import TapeMachine.Report

/-!
# The command line

`respond` says what a command line does: its exit status and what it writes, given the files and the
standard input. Errors leave with status 2. A run on a single input leaves with 1 when the machine
rejects and with 124 when a limit was reached.
-/

namespace TapeMachine.CommandLine

/-- What can be seen of a finished program. -/
structure Outcome where
  exit : Nat
  stdout : String
  stderr : String
  deriving DecidableEq

def unlines (lines : List String) : String := String.join (lines.map (· ++ "\n"))

/-- A program that was asked for, with the catalog entry it is from, if it is from there. -/
structure Resolved where
  definition : Definition
  entry : Option CatalogEntry

/-- Where standard input comes from. -/
inductive Stdin where
  | piped (bytes : ByteArray)
  | terminal

instance : Coe ByteArray Stdin := ⟨.piped⟩

/-- The world outside of the program. -/
structure Surroundings where
  files : Files
  stdin : Stdin

/-- A computation that writes records and lines of standard output, and that may fail with a
message. What it wrote before it failed stays written. -/
abbrev Session := ExceptT String (StateT (List String) Told)

def print (lines : List String) : Session Unit := modify (· ++ lines)

def attempt {α : Type} (a : Attempt String α) : Session α := ExceptT.mk (StateT.lift a.run)

/-- The outcome with every failure turned into its message. -/
def messages {α : Type} (attempt : Attempt Failure α) : Attempt String α :=
  ExceptT.mk do
    match ← attempt.run with
    | .ok a => return .ok a
    | .error failure => return .error failure.message

/-- The entry that a program argument names: by its number or else by its name. -/
def catalogEntry? (program : String) : Option CatalogEntry :=
  ((Text.readCount? program).bind Catalog.byIndex?) <|> Catalog.byName? program

/-- The message where no program is given and standard input is a terminal. -/
def noProgram : String :=
  "No program given. Pass a file or a built-in machine name, or pipe a definition on stdin."

/-- Finds the program. An existing file comes first, then the catalog; without an argument the
definition is read from standard input, if it is piped. -/
def resolve (world : Surroundings) : Option String → Attempt String Resolved
  | some program =>
    if world.files.isFile program then do
      return { definition := ← messages (Journal.fetch world.files program), entry := none }
    else match catalogEntry? program with
      | some entry => return { definition := entry.definition, entry := some entry }
      | none => Journal.lift
        (.error s!"'{program}' is neither a file nor a built-in machine")
  | none =>
    match world.stdin with
    | .terminal => Journal.lift (.error noProgram)
    | .piped bytes =>
      match decodeText bytes with
      | .error reason => Journal.lift (.error s!"Failed to read from stdin: {reason.message}")
      | .ok text => do
        return { definition := ← messages (Journal.read (.detect text) text), entry := none }

/-- The limits of a file, or the defaults where none is given. -/
def fileLimits (files : Files) : Option String → Except String Limits
  | none => .ok {}
  | some path =>
    match files.text path with
    | .error reason => .error s!"Failed to read {path}: {reason.message}"
    | .ok text =>
      match Limits.read text with
      | .error failure => .error failure.message
      | .ok limits => .ok limits

/-- The limits of a run; options come before the file. -/
def limits (files : Files) (o : RunOptions) : Attempt String Limits := do
  let base ← Journal.lift (fileLimits files o.limitsFile)
  let limits : Limits :=
    { maxSteps := o.maxSteps.getD base.maxSteps
      maxConfigurations := o.maxConfigurations.getD base.maxConfigurations }
  Journal.tell [⟨.debug, .commandLine,
    s!"run limits: Limits \x7b max_steps: {limits.maxSteps}, " ++
    s!"max_configurations: {limits.maxConfigurations} \x7d"⟩]
  return limits

/-- The inputs of a run: the one that is given, or else the samples of a built-in machine, or else
the empty input. -/
def inputs (program : Resolved) (o : RunOptions) : List String :=
  match o.input, program.entry with
  | some input, _ => [input]
  | none, some entry => entry.samples
  | none, none => [""]

def runLines (m : Machine) (r : Run) (o : RunOptions) : List String :=
  if o.json then [(r.report m).render .lines]
  else
    ["Input: " ++ Text.quoted m.input] ++
    (if o.trace then r.trace.stepLines else []) ++
    (if o.transitions then r.trace.transitionLines else []) ++
    (r.trace.last?.elim [] fun c => [renderWindow (c.window windowRadius)]) ++
    [s!"Output: {r.output}", r.summary]

def runOn (d : Definition) (limits : Limits) (o : RunOptions) (input : String) :
    Session Verdict := do
  let m ← attempt (messages (Journal.load d input))
  Journal.tell [⟨.debug, .commandLine,
    s!"running '{m.definition.name}' on {Text.quoted input}"⟩]
  let r ← Journal.run m limits
  print (runLines m r o)
  return r.verdict

def runAll (d : Definition) (limits : Limits) (o : RunOptions) :
    List String → Session (List Verdict)
  | [] => return []
  | input :: rest => do
    let verdict ← runOn d limits o input
    return verdict :: (← runAll d limits o rest)

/-- The exit status of runs that ended with the given verdicts: a single run tells its verdict. -/
def runStatus : List Verdict → Nat
  | [.rejected] => 1
  | [.timeout] => 124
  | _ => 0

def padRight (width : Nat) (s : String) : String :=
  s ++ String.ofList (List.replicate (width - s.length) ' ')

def padLeft (width : Nat) (s : String) : String :=
  String.ofList (List.replicate (width - s.length) ' ') ++ s

def catalogLine (index : Nat) (e : CatalogEntry) : String :=
  let samples := ", ".intercalate (e.samples.map Text.quoted)
  s!"{padLeft 2 (toString index)}  {padRight 20 e.name} " ++
    s!"{padRight 17 e.definition.kind.label} samples: {samples}"

def checkLine (d : Definition) : String :=
  s!"OK: {d.name} ({d.kind.label}, {d.stateSet.length} states, {d.transitionCount} transitions)"

def diagram (program : Resolved) : Automaton :=
  match program.entry with
  | some entry => entry.automaton
  | none => .ofDefinition program.definition

/-- Does what a subcommand asks for; answers the exit status. -/
def perform (world : Surroundings) : Command → Session Nat
  | .list => do
    print (Catalog.entries.mapIdx catalogLine)
    return 0
  | .check program => do
    let program ← attempt (resolve world program)
    print [checkLine program.definition]
    return 0
  | .automaton program => do
    let program ← attempt (resolve world program)
    print [Automaton.codec.encode .lines (diagram program)]
    return 0
  | .run program o => do
    let program ← attempt (resolve world program)
    let limits ← attempt (limits world.files o)
    return runStatus (← runAll program.definition limits o (inputs program o))

/-- Whether a record is shown when more records were asked for so often. -/
def isShown (verbosity : Nat) (r : Record) : Bool :=
  2 - min 2 verbosity ≤ r.severity.rank

def execute (world : Surroundings) (call : Invocation) : Outcome :=
  let ((result, lines), records) := Journal.collect ((perform world call.command).run.run [])
  let shown := String.join ((records.filter (isShown call.verbosity)).map Record.written)
  match result with
  | .ok exit => { exit, stdout := unlines lines, stderr := shown }
  | .error message =>
    { exit := 2, stdout := unlines lines, stderr := shown ++ unlines ["Error: " ++ message] }

def respond (world : Surroundings) (arguments : List String) : Outcome :=
  match parseArguments arguments with
  | .ok call => execute world call
  | .error fault => { exit := 2, stdout := "", stderr := unlines ["error: " ++ fault.message] }

def pathsOf (arguments : List String) : List String :=
  match parseArguments arguments with
  | .error _ => []
  | .ok call =>
    match call.command with
    | .list => []
    | .run program o => program.toList ++ o.limitsFile.toList
    | .check program | .automaton program => program.toList

/-- Whether a command line asks for a program on standard input. -/
def readsStdin (arguments : List String) : Bool :=
  match parseArguments arguments with
  | .error _ => false
  | .ok call =>
    match call.command with
    | .list => false
    | .run program _ | .check program | .automaton program => program.isNone

end TapeMachine.CommandLine
