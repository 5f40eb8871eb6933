/-!
# Files

What a program can learn about the file system: what a path leads to. `FileTree.lookup` answers that
for a given set of files below the working directory.
-/

namespace TapeMachine

/-- What a path leads to. -/
inductive Lookup where
  | file (bytes : ByteArray)
  | directory (names : List String)
  | missing
  /-- Nothing, since the path goes through a file. -/
  | throughFile

abbrev Files := String → Lookup

inductive SystemFault where
  | missing
  | isDirectory
  | notDirectory
  | invalidText
  deriving DecidableEq

def SystemFault.message : SystemFault → String
  | missing => "No such file or directory (os error 2)"
  | isDirectory => "Is a directory (os error 21)"
  | notDirectory => "Not a directory (os error 20)"
  | invalidText => "stream did not contain valid UTF-8"

def decodeText (bytes : ByteArray) : Except SystemFault String :=
  match String.fromUTF8? bytes with
  | some text => .ok text
  | none => .error .invalidText

namespace Files

def isFile (files : Files) (path : String) : Bool :=
  match files path with
  | .file _ => true
  | _ => false

def bytes (files : Files) (path : String) : Except SystemFault ByteArray :=
  match files path with
  | .file bytes => .ok bytes
  | .directory _ => .error .isDirectory
  | .missing => .error .missing
  | .throughFile => .error .notDirectory

def text (files : Files) (path : String) : Except SystemFault String :=
  (files.bytes path).bind decodeText

def names (files : Files) (path : String) : Except SystemFault (List String) :=
  match files path with
  | .directory names => .ok names
  | .missing => .error .missing
  | .file _ | .throughFile => .error .notDirectory

end Files

def pathParts (path : String) : List (List Char) := path.toList.splitOn '/'

/-- Whether a part of a path leaves one where one is. -/
def isIdlePart (part : List Char) : Bool := part.isEmpty || part == ['.']

/-- The extension of the last part of a path: what follows its last dot, unless that dot is its
first character. -/
def pathExtension? (path : String) : Option String :=
  match (pathParts path).reverse.dropWhile isIdlePart with
  | [] => none
  | last :: _ =>
    if last = ['.', '.'] then none
    else
      let reversed := last.reverse
      match reversed.dropWhile (· ≠ '.') with
      | _ :: _ :: _ => some (String.ofList (reversed.takeWhile (· ≠ '.')).reverse)
      | _ => none

def joinPath (directory name : String) : String :=
  if directory.toList.getLast? = some '/' then directory ++ name else directory ++ "/" ++ name

/-- Files and directories by the parts of their paths. Directories on the way to one of them need no
entry of their own. -/
structure FileTree where
  /-- The files, each with its contents, and the directories, with none. -/
  entries : List (List (List Char) × Option ByteArray)

namespace FileTree

/-- Builds a tree from paths that lead down from the working directory. -/
def ofPaths (paths : List (String × Option ByteArray)) : FileTree :=
  ⟨paths.map fun (path, body) => ((pathParts path).filter (!isIdlePart ·), body)⟩

def at? (t : FileTree) (location : List (List Char)) : Option Lookup :=
  match t.entries.lookup location with
  | some (some bytes) => some (.file bytes)
  | _ =>
    let inside := t.entries.filter fun e => location.isPrefixOf e.1
    if inside.isEmpty && !location.isEmpty then none
    else
      let names := inside.filterMap fun e => e.1[location.length]?
      some (.directory (names.eraseDups.map String.ofList))

/-- What a path leads to that has left the tree upwards with some parts to follow: there are
directories above, and nothing more is known of them. -/
def beyond (parts : List (List Char)) : Lookup :=
  if parts.all fun part => isIdlePart part || part = ['.', '.'] then .directory [] else .missing

/-- Follows the parts of a path from a location. -/
def follow (t : FileTree) : List (List Char) → List (List Char) → Lookup
  | location, [] => (t.at? location).getD .missing
  | location, part :: rest =>
    match t.at? location with
    | none => .missing
    | some (.directory _) =>
      if isIdlePart part then follow t location rest
      else if part = ['.', '.'] then
        if location.isEmpty then beyond rest
        else follow t location.dropLast rest
      else follow t (location ++ [part]) rest
    | some _ => .throughFile

def lookup (t : FileTree) : Files := fun path =>
  if path.isEmpty then .missing
  else if path.toList.head? = some '/' then beyond (pathParts path)
  else t.follow [] (pathParts path)

end FileTree

end TapeMachine
