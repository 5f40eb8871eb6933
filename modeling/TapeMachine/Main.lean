import TapeMachine.CommandLine

/-!
# The program

Reads what the command line refers to, and writes what `CommandLine.respond` answers.
-/

namespace TapeMachine

/-- What a path leads to on the disk. -/
def lookUp (path : String) : IO Lookup := do
  match ← (IO.FS.readBinFile path).toBaseIO with
  | .ok bytes => return .file bytes
  | .error (.inappropriateType _ 20 _) => return .throughFile
  | .error (.noFileOrDirectory ..) => return .missing
  | .error _ => return .directory []

/-- What standard input holds, unless it is a terminal. -/
def readStdin : IO CommandLine.Stdin := do
  let stdin ← IO.getStdin
  if ← stdin.isTty then return .terminal
  return .piped (← stdin.readBinToEnd)

end TapeMachine

open TapeMachine

def main (arguments : List String) : IO UInt32 := do
  let known ← (CommandLine.pathsOf arguments).mapM fun path => return (path, ← lookUp path)
  let stdin ← if CommandLine.readsStdin arguments then readStdin else pure .terminal
  let files : Files := fun path => (known.lookup path).getD .missing
  let outcome := CommandLine.respond { files, stdin } arguments
  IO.print outcome.stdout
  IO.eprint outcome.stderr
  return UInt32.ofNat outcome.exit
