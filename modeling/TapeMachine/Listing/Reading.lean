import TapeMachine.Failure

/-!
# Reading listings

`Listing.read` finds the constructs of a listing in its text and `Listing.build` puts a definition
together from them; `Definition.parseChars` does both and checks the result. The builder takes no
construct for granted: it complains about everything that it needs and does not find. Sections that
are left out have their default values.
-/

namespace TapeMachine

namespace Listing

/-- The constructs of a text, which has no white space at its ends, when it is a listing. -/
def read (text : List Char) : Except Complaint (List (Piece Construct)) :=
  match program.run? (.atStart text) with
  | some _ => .ok (program.pieces (.atStart text))
  | none =>
    let attempts := program.attempts (.atStart text) { position := 0, names := [] }
    .error
      { text, start := attempts.position, stop := none,
        problem := .expected (Construct.all.filter (attempts.names.contains ·)) }

/-- A complaint about the part of a text that a construct was read from. -/
def complaintAt (text : List Char) (p : Piece Construct) (problem : Problem) : Complaint :=
  { text, start := p.start, stop := some p.stop, problem }

section Values

variable (text : List Char) (p : Piece Construct)

/-- The symbol that characters stand for, with or without quotes. -/
def symbolOf (chars : List Char) : Symbol :=
  let quoted := 3 ≤ (String.ofList chars).utf8ByteSize && chars.head? = some '\x27' &&
    chars.getLast? = some '\x27'
  let inner := if quoted then chars.tail.dropLast else chars
  inner.head?.getD '_'

/-- The characters of the first construct in a section. -/
def valueChars : Except Complaint (List Char) :=
  match p.inner with
  | value :: _ => .ok (value.chars text)
  | [] => .error (complaintAt text p .missingValue)

def kindOf : Except Complaint Kind := do
  let label := String.ofList (← valueChars text p)
  if label = "deterministic" then return .deterministic
  else if label = "nondeterministic" then return .nondeterministic
  else throw (complaintAt text p (.unsupportedKind label))

/-- The constructs of a kind in the list that a section holds. -/
def items (item : Construct) : List (Piece Construct) :=
  (p.inner.flatMap Piece.inner).filter fun i => i.name = item

def symbolsOf : List Symbol := (items p .symbol).map fun i => symbolOf (i.chars text)

def statesOf : List State := (items p .identifier).map fun i => String.ofList (i.chars text)

def directionOf : Except Complaint Direction :=
  match p.chars text with
  | ['<'] | ['L'] => .ok .left
  | ['>'] | ['R'] => .ok .right
  | ['-'] | ['S'] | ['N'] => .ok .stay
  | chars => .error (complaintAt text p (.unsupportedDirection (String.ofList chars)))

end Values

/-- What has been found of a rule. -/
structure RuleDraft where
  read : Option Symbol := none
  write : Option Symbol := none
  direction : Option Direction := none
  nextState : Option State := none

def RuleDraft.note (text : List Char) (draft : RuleDraft) (p : Piece Construct) :
    Except Complaint RuleDraft :=
  match p.name with
  | .read => .ok { draft with read := some (symbolOf (p.chars text)) }
  | .write => .ok { draft with write := some (symbolOf (p.chars text)) }
  | .direction => do return { draft with direction := some (← directionOf text p) }
  | .identifier => .ok { draft with nextState := some (String.ofList (p.chars text)) }
  | _ => .ok draft

/-- A value that has to be there. -/
def require {α : Type} (text : List Char) (p : Piece Construct) (problem : Problem) :
    Option α → Except Complaint α
  | some value => .ok value
  | none => .error (complaintAt text p problem)

/-- A rule; one without a symbol to write leaves the symbol it read. -/
def buildRule (text : List Char) (p : Piece Construct) : Except Complaint Rule := do
  let draft ← p.inner.foldlM (RuleDraft.note text) {}
  let read ← require text p .missingRead draft.read
  let direction ← require text p .missingDirection draft.direction
  let nextState ← require text p .missingNextState draft.nextState
  return { read, write := draft.write.getD read, direction, nextState }

/-- Adds the rules of a block to those of the blocks before it. -/
def buildBlock (text : List Char) (table : Table (List Rule)) (p : Piece Construct) :
    Except Complaint (Table (List Rule)) :=
  match p.inner with
  | [] => .error (complaintAt text p .missingState)
  | first :: parts => do
    let state := String.ofList (first.chars text)
    let rules ← (parts.filter fun i => i.name = .transition).mapM (buildRule text)
    if (table.get? state).isSome then throw (complaintAt text p (.repeatedBlock state))
    return table.insert state rules

def buildRules (text : List Char) (p : Piece Construct) : Except Complaint (Table (List Rule)) :=
  p.inner.foldlM (buildBlock text) Table.empty

/-- What has been found of a definition, and which of its sections have been seen. -/
structure Draft where
  name : Option String := none
  kind : Option Kind := none
  blank : Option Symbol := none
  input : Option (List Symbol) := none
  tape : Option (List Symbol) := none
  states : Option (List State) := none
  starts : List State := []
  accept : Option (List State) := none
  reject : Option (List State) := none
  rules : Option (Table (List Rule)) := none
  seen : List Construct := []

/-- The sections that a listing may have once. -/
def Construct.unique : List Construct :=
  [.name, .kind, .blank, .input, .tape, .states, .accept, .reject, .rules]

/-- Notes that a section has been seen. -/
def Draft.see (text : List Char) (draft : Draft) (p : Piece Construct) : Except Complaint Draft :=
  if !Construct.unique.contains p.name then .ok draft
  else if draft.seen.contains p.name then .error (complaintAt text p (.repeatedSection p.name))
  else .ok { draft with seen := p.name :: draft.seen }

def Draft.note (text : List Char) (draft : Draft) (p : Piece Construct) :
    Except Complaint Draft := do
  let draft ← draft.see text p
  match p.name with
  | .name =>
    return { draft with name := some (String.ofList (Text.trim (← valueChars text p))) }
  | .kind => return { draft with kind := some (← kindOf text p) }
  | .blank => return { draft with blank := some (symbolOf (← valueChars text p)) }
  | .input => return { draft with input := some (symbolsOf text p) }
  | .tape => return { draft with tape := some (symbolsOf text p) }
  | .states => return { draft with states := some (statesOf text p) }
  | .start =>
    return { draft with starts := draft.starts ++ [String.ofList (← valueChars text p)] }
  | .accept => return { draft with accept := some (statesOf text p) }
  | .reject => return { draft with reject := some (statesOf text p) }
  | .rules => return { draft with rules := some (← buildRules text p) }
  | _ => return draft

/-- The one start state. -/
def singleStart : List State → Except Fault State
  | [] => .error .missingStart
  | [state] => .ok state
  | states => .error (.multipleStarts states)

/-- The definition that the constructs of a listing make up. -/
def build (text : List Char) (program : Piece Construct) : Except Failure Definition := do
  let draft ← orFailure .listing (program.inner.foldlM (Draft.note text) {})
  let name ← orFailure .listing (require text program .missingName draft.name)
  let rules ← orFailure .listing (require text program .missingRules draft.rules)
  let startState ← orFailure .malformed (singleStart draft.starts)
  return {
    name
    kind := draft.kind.getD .deterministic
    states := draft.states.getD []
    inputAlphabet := draft.input.getD []
    tapeAlphabet := draft.tape.getD []
    blank := draft.blank.getD '_'
    startState
    acceptStates := draft.accept.getD []
    rejectStates := draft.reject.getD []
    rules }

end Listing

/-- The well-formed definition that the characters of a text write down. -/
def Definition.parseChars (chars : List Char) : Except Failure Definition := do
  let text := Text.trim chars
  match ← orFailure .listing (Listing.read text) with
  | [] => throw (.listing { text := chars, start := 0, stop := none, problem := .emptyProgram })
  | program :: _ =>
    let definition ← Listing.build text program
    orFailure .malformed definition.validate
    return definition

def Definition.parse (text : String) : Except Failure Definition :=
  Definition.parseChars text.toList

end TapeMachine
