import TapeMachine.Files
import TapeMachine.Listing.Reading

/-!
# Sources of definitions

A definition is read from a listing or from JSON. Files say by their extension which of the two they
hold; for a text without a name it is guessed from the first character.
-/

namespace TapeMachine

inductive Format where
  | listing
  | json
  deriving DecidableEq

namespace Format

def ofPath (path : String) : Format :=
  if pathExtension? path = some "json" then .json else .listing

def detect (text : String) : Format :=
  match Text.trimStart text.toList with
  | '\x7b' :: _ => .json
  | _ => .listing

end Format

/-- Whether a file is taken for a definition when a directory is scanned. -/
def isDefinitionPath (path : String) : Bool :=
  pathExtension? path = some "tm" || pathExtension? path = some "json"

/-- The well-formed definition that a text represents in JSON. -/
def Definition.ofJson (text : String) : Except Failure Definition := do
  let definition ← orFailure .json (Definition.codec.decode text)
  orFailure .malformed definition.validate
  return definition

/-- The well-formed definition that a text of a format writes down. -/
def Definition.read (format : Format) (text : String) : Except Failure Definition :=
  if largestDefinition < text.utf8ByteSize then .error (.source .largeText)
  else match format with
    | .listing => Definition.parse text
    | .json => Definition.ofJson text

def Files.definitionText (files : Files) (path : String) : Except Failure String :=
  match files path with
  | .file bytes =>
    if largestDefinition < bytes.size then .error (.source (.largeFile path))
    else orFailure (fun reason => .source (.unreadable path reason)) (decodeText bytes)
  | _ => orFailure (fun reason => .source (.unreadable path reason)) (files.text path)

/-- The well-formed definition that a file holds. -/
def Files.definition (files : Files) (path : String) : Except Failure Definition :=
  (files.definitionText path).bind (Definition.read (.ofPath path))

/-- Why scanning a directory, or loading a file found there, failed. -/
inductive ScanFault where
  | unreadable (directory : String) (reason : SystemFault)
  | unloadable (path : String) (failure : Failure)
  deriving DecidableEq

def ScanFault.message : ScanFault → String
  | unreadable directory reason =>
    s!"File error: Failed to read directory {directory}: {reason.message}"
  | unloadable path failure =>
    s!"File error: Failed to load definition from {path}: {failure.message}"

/-- The paths of the files in a directory that are taken for definitions, in order. -/
def Files.definitionPaths (files : Files) (directory : String) : Except ScanFault (List String) :=
  match files.names directory with
  | .error reason => .error (.unreadable directory reason)
  | .ok names => .ok ((sortedSet names).map (joinPath directory) |>.filter
      fun path => files.isFile path && isDefinitionPath path)

end TapeMachine
