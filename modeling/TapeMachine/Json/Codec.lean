import TapeMachine.Json.Document
import TapeMachine.Json.Skip
import TapeMachine.Table

/-!
# Codecs

A codec says how the values of a type are represented in JSON. The same codec writes values
(`Codec.document`) and reads them (`Codec.decode`). Reading goes from left to right and stops at the
first thing that does not fit. A record may be read from an object, with its fields in any order and
unknown ones passed over, or from a list with its fields in their own order.
-/

namespace TapeMachine.Json

mutual

inductive Codec : Type → Type 1 where
  | text : Codec String
  /-- A character, as a text of its own. -/
  | character : Codec Char
  | count : Codec Nat
  | integer : Codec Int
  | choice {α : Type} (options : List (String × α)) (name : α → String) : Codec α
  | nullable {α : Type} (item : Codec α) : Codec (Option α)
  | list {α : Type} (item : Codec α) : Codec (List α)
  /-- An object with any keys, the last value of each of which counts. -/
  | table {α : Type} (item : Codec α) : Codec (Table α)
  | record {α σ : Type} (name : String) (fields : Fields α σ) : Codec α
  /-- A type that is another one in disguise. -/
  | convert {α β : Type} (make : α → β) (view : β → α) (codec : Codec α) : Codec β

/-- The fields of a record: their values one after the other, and what is known of them while they
are being read. -/
inductive Fields : Type → Type → Type 1 where
  | nil : Fields Unit Unit
  /-- A field, with the value it has when it is left out, before other fields. -/
  | cons {α β σ : Type} (name : String) (codec : Codec α) (fallback : Option α)
      (rest : Fields β σ) : Fields (α × β) (Option α × σ)

end

namespace Fields

def size : {α σ : Type} → Fields α σ → Nat
  | _, _, .nil => 0
  | _, _, .cons _ _ _ rest => rest.size + 1

def unknown : {α σ : Type} → Fields α σ → σ
  | _, _, .nil => ()
  | _, _, .cons _ _ _ rest => (none, rest.unknown)

/-- The values of the fields once all that were given are known, or the name of the first one that
is missing. -/
def finish : {α σ : Type} → Fields α σ → σ → Except String α
  | _, _, .nil, () => .ok ()
  | _, _, .cons name _ fallback rest, (value, others) =>
    match value <|> fallback with
    | none => .error name
    | some value => (rest.finish others).map (value, ·)

end Fields

mutual

def Codec.document : {α : Type} → Codec α → α → Document
  | _, .text, s => .text s
  | _, .character, c => .text (String.singleton c)
  | _, .count, n => .integer n
  | _, .integer, n => .integer n
  | _, .choice _ name, value => .text (name value)
  | _, .nullable item, value =>
    match value with
    | none => .null
    | some value => item.document value
  | _, .list item, values => .list (values.map item.document)
  | _, .table item, t => .object (t.entries.map fun (key, value) => (key, item.document value))
  | _, .record _ fields, value => .object (fields.members value)
  | _, .convert _ view codec, value => codec.document (view value)

def Fields.members : {α σ : Type} → Fields α σ → α → List (String × Document)
  | _, _, .nil, () => []
  | _, _, .cons name codec _ rest, (value, others) =>
    (name, codec.document value) :: rest.members others

end

/-- Why the inside of brackets could not be read. Some faults get their place only after the closing
bracket has been looked for. -/
inductive Interruption where
  | fault (fault : Fault)
  | loose (problem : Problem) (reader : Reader)

abbrev Inside (α : Type) := Except Interruption (α × Reader)

namespace Reader

/-- An outcome of which every fault has its place, as one of reading inside brackets. -/
def settled {α : Type} : Except Fault α → Except Interruption α
  | .ok a => .ok a
  | .error fault => .error (.fault fault)

/-- Looks for a closing bracket; the reader that is answered is where the search ended. -/
def close (bracket : Bracket) (r : Reader) : Except Fault Unit × Reader :=
  let r := r.skipSpace
  match r.rest with
  | [] => (r.faultAhead bracket.unfinished, r)
  | c :: _ =>
    if c = bracket.closing then (.ok (), r.advance)
    else if c = ',' then
      match bracket with
      | .object => (r.faultAhead .trailingComma, r)
      | .list =>
        let r := r.advance.skipSpace
        match r.rest with
        | ']' :: _ => (r.faultAhead .trailingComma, r)
        | _ => (r.faultAhead .trailingCharacters, r)
    else (r.faultAhead .trailingCharacters, r)

def closing {α : Type} (bracket : Bracket) : Inside α → Scan α
  | .ok (value, r) =>
    match r.close bracket with
    | (.ok (), r) => .ok (value, r)
    | (.error fault, _) => .error fault
  | .error (.fault fault) => .error fault
  | .error (.loose problem r) => (r.close bracket).2.faultHere problem

def nextItem (first : Bool) (r : Reader) : Except Fault (Bool × Reader) :=
  let r := r.skipSpace
  match r.rest with
  | [] => r.faultAhead .endInList
  | ']' :: _ => .ok (false, r)
  | c :: _ =>
    if first then .ok (true, r)
    else if c = ',' then
      let r := r.advance.skipSpace
      match r.rest with
      | [] => r.faultAhead .endInValue
      | ']' :: _ => r.faultAhead .trailingComma
      | _ => .ok (true, r)
    else r.faultAhead .expectedListCommaOrEnd

def takeKey (r : Reader) : Except Fault (Option String × Reader) :=
  match r.rest with
  | '"' :: _ => r.advance.scanText.map fun (key, r) => (some key, r)
  | _ => r.faultAhead .keyNotText

def nextKey (first : Bool) (r : Reader) : Except Fault (Option String × Reader) :=
  let r := r.skipSpace
  match r.rest with
  | [] => r.faultAhead .endInObject
  | '\x7d' :: _ => .ok (none, r)
  | c :: _ =>
    if first then r.takeKey
    else if c = ',' then
      let r := r.advance.skipSpace
      match r.rest with
      | [] => r.faultAhead .endInValue
      | '\x7d' :: _ => r.faultAhead .trailingComma
      | _ => r.takeKey
    else r.faultAhead .expectedObjectCommaOrEnd

/-- Reads the items of a list, in as many steps as the first argument has characters. The second
one holds what has been read, the latest first. -/
def readItems {α : Type} (item : Reader → Scan α) : List Char → List α → Reader → Scan (List α)
  | [], _, r => r.faultAhead .endInList
  | _ :: bound, items, r =>
    match r.nextItem items.isEmpty with
    | .error fault => .error fault
    | .ok (false, r) => .ok (items.reverse, r)
    | .ok (true, r) =>
      match item r with
      | .error fault => .error fault
      | .ok (value, r) => readItems item bound (value :: items) r

/-- Reads the members of an object one by one, in as many steps as the first argument has
characters. -/
def readMembers {σ : Type} (member : String → σ → Reader → Inside σ) :
    List Char → Bool → σ → Reader → Inside σ
  | [], _, _, r => settled (r.faultAhead .endInObject)
  | _ :: bound, first, known, r =>
    match r.nextKey first with
    | .error fault => .error (.fault fault)
    | .ok (none, r) => .ok (known, r)
    | .ok (some key, r) =>
      match member key known r with
      | .error interruption => .error interruption
      | .ok (known, r) => readMembers member bound false known r

/-- The fault of a value of the wrong kind, from its first character on. A value without parts is
read first, and may be at fault itself. -/
def misfit {α : Type} (expected : String) (r : Reader) : Except Fault α :=
  let wrong (found : Found) (r : Reader) : Except Fault α :=
    r.faultHere (.invalidType found expected)
  match r.rest with
  | [] => r.faultAhead .endInValue
  | c :: _ =>
    if c = 'n' then (scanWord ['u', 'l', 'l'] r.advance).bind (wrong .null)
    else if c = 't' then (scanWord ['r', 'u', 'e'] r.advance).bind (wrong (.boolean true))
    else if c = 'f' then (scanWord ['a', 'l', 's', 'e'] r.advance).bind (wrong (.boolean false))
    else if c = '-' || c.isDigit then r.scanNumber.bind fun (n, r) => wrong n.found r
    else if c = '"' then r.advance.scanText.bind fun (s, r) => wrong (.text s) r
    else if c = '[' then wrong .list r
    else if c = '\x7b' then wrong .object r
    else r.faultAhead .expectedValue

/-- Reads a text where a value of the given name is expected. -/
def readText (expected : String) (r : Reader) : Scan String :=
  let r := r.skipSpace
  match r.rest with
  | '"' :: _ => r.advance.scanText
  | _ => r.misfit expected

def readCharacter (r : Reader) : Scan Char :=
  match r.readText "a character" with
  | .error fault => .error fault
  | .ok (s, r) =>
    match s.toList with
    | [c] => .ok (c, r)
    | _ => r.faultHere (.invalidValue (.text s) "a character")

def readInteger (expected : String) (ok : Int → Bool) (r : Reader) : Scan Int :=
  let r := r.skipSpace
  match r.rest with
  | [] => r.faultAhead .endInValue
  | c :: _ =>
    if c = '-' || c.isDigit then
      match r.scanNumber with
      | .error fault => .error fault
      | .ok (.integer n, r) =>
        if ok n then .ok (n, r) else r.faultHere (.invalidValue (.integer n) expected)
      | .ok (n, r) => r.faultHere (.invalidType n.found expected)
    else r.misfit expected

def chosen {α : Type} (options : List (String × α)) (name : String) (r : Reader) : Except Fault α :=
  match options.lookup name with
  | some value => .ok value
  | none => r.faultHere (.unknownVariant name (options.map Prod.fst))

def readNull (r : Reader) : Except Fault Reader :=
  let r := r.skipSpace
  match r.rest with
  | 'n' :: _ => scanWord ['u', 'l', 'l'] r.advance
  | _ => r.misfit "unit"

/-- Reads the name of an option, as a text or as the key of an object that holds null. -/
def readChoice {α : Type} (options : List (String × α)) (r : Reader) :
    Except Fault (α × Reader) := do
  let r := r.skipSpace
  match r.rest with
  | [] => r.faultAhead .endInValue
  | '"' :: _ =>
    let (name, r) ← r.advance.scanText
    return (← chosen options name r, r)
  | '\x7b' :: _ =>
    let r := r.advance.skipSpace
    match r.rest with
    | [] => r.faultAhead .endInObject
    | '\x7d' :: _ => r.faultAhead .expectedValue
    | '"' :: _ =>
      let (name, r) ← r.advance.scanText
      let value ← chosen options name r
      let r ← (← r.scanColon).readNull
      let r := r.skipSpace
      match r.rest with
      | [] => r.faultHere .endInObject
      | '\x7d' :: _ => return (value, r.advance)
      | _ => r.faultHere .expectedValue
    | _ => r.faultAhead .keyNotText
  | _ => r.faultAhead .expectedValue

def readList {α : Type} (expected : String) (inside : Reader → Inside α) (r : Reader) : Scan α :=
  let r := r.skipSpace
  match r.rest with
  | '[' :: _ => closing .list (inside r.advance)
  | _ => r.misfit expected

def readObject {α : Type} (expected : String) (inside : Reader → Inside α) (r : Reader) : Scan α :=
  let r := r.skipSpace
  match r.rest with
  | '\x7b' :: _ => closing .object (inside r.advance)
  | _ => r.misfit expected

def readNullable {α : Type} (item : Reader → Scan α) (r : Reader) : Scan (Option α) :=
  let r := r.skipSpace
  match r.rest with
  | 'n' :: _ => (scanWord ['u', 'l', 'l'] r.advance).map (none, ·)
  | _ => (item r).map fun (value, r) => (some value, r)

end Reader

def recordOf (name : String) (size : Nat) : String :=
  s!"struct {name} with {size} element" ++ (if size = 1 then "" else "s")

mutual

def Codec.read : {α : Type} → Codec α → Reader → Scan α
  | _, .text, r => r.readText "a string"
  | _, .character, r => r.readCharacter
  | _, .count, r =>
    (r.readInteger "usize" fun n => 0 ≤ n).map fun (n, r) => (n.toNat, r)
  | _, .integer, r => r.readInteger "i64" fun n => n < 0x8000000000000000
  | _, .choice options _, r => r.readChoice options
  | _, .nullable item, r => r.readNullable item.read
  | _, .list item, r =>
    r.readList "a sequence" fun r => Reader.settled (Reader.readItems item.read r.rest [] r)
  | _, .table item, r =>
    r.readObject "a map" fun r =>
      let member (key : String) (t : Table _) (r : Reader) : Inside (Table _) :=
        Reader.settled (r.scanColon.bind fun r =>
          (item.read r).map fun (value, r) => (t.insert key value, r))
      Reader.readMembers member r.rest true Table.empty r
  | _, .record name fields, r =>
    let r := r.skipSpace
    match r.rest with
    | '[' :: _ =>
      r.readList "" fun r => fields.readInOrder (recordOf name fields.size) 0 r
    | _ =>
      r.readObject s!"struct {name}" fun r =>
        match Reader.readMembers fields.readMember r.rest true fields.unknown r with
        | .error interruption => .error interruption
        | .ok (known, r) =>
          match fields.finish known with
          | .error name => .error (.loose (.missingField name) r)
          | .ok value => .ok (value, r)
  | _, .convert make _ codec, r => (codec.read r).map fun (value, r) => (make value, r)

/-- Reads the member with a key into what is known of the fields. -/
def Fields.readMember : {α σ : Type} → Fields α σ → String → σ → Reader → Inside σ
  | _, _, .nil, _, known, r =>
    Reader.settled (r.scanColon.bind fun r => r.skipValue.map fun r => (known, r))
  | _, _, .cons name codec _ rest, key, (value, others), r =>
    if key = name then
      match value with
      | some _ => .error (.loose (.duplicateField name) r)
      | none => Reader.settled (r.scanColon.bind fun r =>
          (codec.read r).map fun (value, r) => ((some value, others), r))
    else (rest.readMember key others r).map fun (others, r) => ((value, others), r)

/-- Reads the fields from the items of a list; `index` of them have been read before. -/
def Fields.readInOrder : {α σ : Type} → Fields α σ → String → Nat → Reader → Inside α
  | _, _, .nil, _, _, r => .ok ((), r)
  | _, _, .cons _ codec fallback rest, expected, index, r =>
    match r.nextItem (index == 0) with
    | .error fault => .error (.fault fault)
    | .ok (false, r) =>
      match fallback with
      | none => .error (.loose (.invalidLength index expected) r)
      | some value =>
        (rest.readInOrder expected (index + 1) r).map fun (others, r) => ((value, others), r)
    | .ok (true, r) =>
      match codec.read r with
      | .error fault => .error (.fault fault)
      | .ok (value, r) =>
        (rest.readInOrder expected (index + 1) r).map fun (others, r) => ((value, others), r)

end

namespace Codec

def decode {α : Type} (codec : Codec α) (text : String) : Except Fault α :=
  match codec.read (Reader.ofString text) with
  | .error fault => .error fault
  | .ok (value, r) =>
    let r := r.skipSpace
    match r.rest with
    | [] => .ok value
    | _ => r.faultAhead .trailingCharacters

def encode {α : Type} (layout : Layout) (codec : Codec α) (value : α) : String :=
  (codec.document value).render layout

end Codec

end TapeMachine.Json
