import TapeMachine.Text.Numeral

/-!
# Command line arguments

What a user asks for: a subcommand with its program and options. Options and the program come in any
order; an option's value follows it or is joined to it.
-/

namespace TapeMachine.CommandLine

structure RunOptions where
  input : Option String := none
  limitsFile : Option String := none
  maxSteps : Option Nat := none
  maxConfigurations : Option Nat := none
  trace : Bool := false
  transitions : Bool := false
  json : Bool := false
  deriving DecidableEq

inductive Command where
  | list
  | run (program : Option String) (options : RunOptions)
  | check (program : Option String)
  | automaton (program : Option String)
  deriving DecidableEq

structure Invocation where
  verbosity : Nat
  command : Command
  deriving DecidableEq

/-- A command line while it is being read. -/
structure Draft where
  verbosity : Nat := 0
  innerVerbosity : Nat := 0
  command : Option String := none
  program : Option String := none
  options : RunOptions := {}

inductive UsageFault where
  | missingCommand
  | unknownCommand (name : String)
  | unknownOption (name : String)
  | missingValue (option : String)
  | invalidCount (option value : String)
  | extraArgument (argument : String)
  deriving DecidableEq

def UsageFault.message : UsageFault → String
  | missingCommand => "a subcommand is required"
  | unknownCommand name => s!"unrecognized subcommand '{name}'"
  | unknownOption name => s!"unexpected argument '{name}' found"
  | missingValue option => s!"a value is required for '{option}' but none was supplied"
  | invalidCount option value => s!"invalid value '{value}' for '{option}'"
  | extraArgument argument => s!"unexpected argument '{argument}' found"

namespace Draft

def withOptions (d : Draft) (change : RunOptions → RunOptions) : Draft :=
  { d with options := change d.options }

/-- Asks for more records, in front of the subcommand or behind it. -/
def raiseVerbosity (d : Draft) : Draft :=
  match d.command with
  | none => { d with verbosity := d.verbosity + 1 }
  | some _ => { d with innerVerbosity := d.innerVerbosity + 1 }

/-- Takes an option without value, if there is one of that name. -/
def flag? (d : Draft) : String → Option Draft
  | "-v" | "--verbose" => some d.raiseVerbosity
  | "-t" | "--trace" => some (d.withOptions fun o => { o with trace := true })
  | "--transitions" => some (d.withOptions fun o => { o with transitions := true })
  | "--json" => some (d.withOptions fun o => { o with json := true })
  | _ => none

def hasValue (name : String) : Bool :=
  ["-i", "--input", "--limits", "-n", "--max-steps", "--max-configurations"].contains name

def count (option value : String) : Except UsageFault Nat :=
  match Text.readCount? value with
  | some n => .ok n
  | none => .error (.invalidCount option value)

def setValue (d : Draft) (option value : String) : Except UsageFault Draft :=
  match option with
  | "-i" | "--input" => .ok (d.withOptions fun o => { o with input := some value })
  | "--limits" => .ok (d.withOptions fun o => { o with limitsFile := some value })
  | "-n" | "--max-steps" =>
    (count option value).map fun n => d.withOptions fun o => { o with maxSteps := some n }
  | "--max-configurations" =>
    (count option value).map fun n => d.withOptions fun o => { o with maxConfigurations := some n }
  | _ => .error (.unknownOption option)

/-- Takes an argument that is no option: the subcommand, and then the program. -/
def setPlain (d : Draft) (argument : String) : Except UsageFault Draft :=
  match d.command, d.program with
  | none, _ => .ok { d with command := some argument }
  | some _, none => .ok { d with program := some argument }
  | some _, some _ => .error (.extraArgument argument)

/-- The parts of an argument before and behind its first equals sign. -/
def splitAtEquals (argument : String) : String × Option String :=
  let chars := argument.toList
  match chars.dropWhile (· ≠ '=') with
  | [] => (argument, none)
  | _ :: value => (String.ofList (chars.takeWhile (· ≠ '=')), some (String.ofList value))

/-- Takes the letters of an argument of short options. Answers the option that still lacks its
value. -/
def setShort (argument : String) : List Char → Draft → Except UsageFault (Draft × Option String)
  | [], d => .ok (d, none)
  | c :: rest, d =>
    let name := String.ofList ['-', c]
    if hasValue name then
      match rest with
      | [] => .ok (d, some name)
      | '=' :: value => (d.setValue name (String.ofList value)).map (·, none)
      | value => (d.setValue name (String.ofList value)).map (·, none)
    else match d.flag? name with
      | some d => setShort argument rest d
      | none => .error (.unknownOption argument)

/-- Takes one argument. Answers the option that still lacks its value. -/
def setArgument (d : Draft) (argument : String) : Except UsageFault (Draft × Option String) :=
  match argument.toList with
  | '-' :: '-' :: _ :: _ =>
    let (name, value) := splitAtEquals argument
    if hasValue name then
      match value with
      | some value => (d.setValue name value).map (·, none)
      | none => .ok (d, some name)
    else match d.flag? argument with
      | some d => .ok (d, none)
      | none => .error (.unknownOption argument)
  | '-' :: c :: rest => setShort argument (c :: rest) d
  | _ => (d.setPlain argument).map (·, none)

def setPlains : List String → Draft → Except UsageFault Draft
  | [], d => .ok d
  | argument :: rest, d =>
    match d.setPlain argument with
    | .error fault => .error fault
    | .ok d => setPlains rest d

/-- Takes all arguments. The second one is the option that lacks its value. Two hyphens end the
options. -/
def setAll : List String → Option String → Draft → Except UsageFault Draft
  | [], none, d => .ok d
  | [], some option, _ => .error (.missingValue option)
  | value :: rest, some option, d =>
    match d.setValue option value with
    | .error fault => .error fault
    | .ok d => setAll rest none d
  | argument :: rest, none, d =>
    if argument = "--" then setPlains rest d
    else match d.setArgument argument with
      | .error fault => .error fault
      | .ok (d, pending) => setAll rest pending d

/-- The command line that a draft describes. How often more records were asked for behind the
subcommand counts, unless that is never. -/
def finish (d : Draft) : Except UsageFault Invocation :=
  let only (command : Command) : Except UsageFault Invocation :=
    .ok { verbosity := if d.innerVerbosity = 0 then d.verbosity else d.innerVerbosity, command }
  match d.command with
  | none => .error .missingCommand
  | some "list" =>
    match d.program with
    | none => only .list
    | some argument => .error (.extraArgument argument)
  | some "run" => only (.run d.program d.options)
  | some "check" => only (.check d.program)
  | some "automaton" => only (.automaton d.program)
  | some name => .error (.unknownCommand name)

end Draft

def parseArguments (arguments : List String) : Except UsageFault Invocation :=
  (Draft.setAll arguments none {}).bind Draft.finish

end TapeMachine.CommandLine
