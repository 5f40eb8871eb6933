import TapeMachine.Automaton
import TapeMachine.Definition.Codec
import TapeMachine.Definition.Validation
import TapeMachine.Files
import TapeMachine.Listing.Complaint

/-!
# Failures

Why a definition, limits or a diagram cannot be had. How a computation ends is never a failure.
-/

namespace TapeMachine

/-- The size of the largest definition, in bytes. -/
def largestDefinition : Nat := 65536

inductive SourceFault where
  | unreadable (path : String) (reason : SystemFault)
  | largeFile (path : String)
  | largeText
  deriving DecidableEq

def SourceFault.message : SourceFault → String
  | unreadable path reason => s!"Failed to read file {path}: {reason.message}"
  | largeFile path =>
    s!"File {path} exceeds the maximum definition size of {largestDefinition} bytes"
  | largeText => s!"Definition exceeds the maximum size of {largestDefinition} bytes"

inductive Failure where
  | malformed (fault : Fault)
  | listing (complaint : Listing.Complaint)
  | json (fault : Json.Fault)
  | source (fault : SourceFault)
  | automaton (fault : AutomatonFault)
  deriving DecidableEq

def Failure.message : Failure → String
  | malformed fault => "Malformed machine: " ++ fault.message
  | listing complaint => "Program parsing error: " ++ complaint.message
  | json fault => "Invalid JSON definition: " ++ fault.message
  | source fault => "File error: " ++ fault.message
  | automaton fault => "Invalid automaton: " ++ fault.message

def orFailure {ε α : Type} (failure : ε → Failure) : Except ε α → Except Failure α
  | .ok a => .ok a
  | .error e => .error (failure e)

def Limits.read (text : String) : Except Failure Limits :=
  orFailure .json (Limits.codec.decode text)

def Automaton.read (text : String) : Except Failure Automaton := do
  let a ← orFailure .json (Automaton.codec.decode text)
  orFailure .automaton a.validate
  return a

end TapeMachine
