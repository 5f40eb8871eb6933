/-!
# JSON documents and their text

A document is a value to be written as JSON, with its members in the order in which they are
written. It has a compact text and one that is laid out over lines, where each level is indented by
two more spaces.
-/

namespace TapeMachine.Json

inductive Document where
  | null
  | boolean (value : Bool)
  | integer (value : Int)
  | text (value : String)
  | list (items : List Document)
  | object (members : List (String × Document))
  deriving Inhabited

inductive Layout where
  | compact
  | lines
  deriving DecidableEq

def Layout.lineStart (layout : Layout) (depth : Nat) : List Char :=
  match layout with
  | .compact => []
  | .lines => '\n' :: List.replicate (2 * depth) ' '

def Layout.colon : Layout → List Char
  | .compact => [':']
  | .lines => [':', ' ']

def escapeChar (c : Char) : List Char :=
  if c = '"' then ['\\', '"']
  else if c = '\\' then ['\\', '\\']
  else if c = '\x08' then ['\\', 'b']
  else if c = '\x0c' then ['\\', 'f']
  else if c = '\n' then ['\\', 'n']
  else if c = '\r' then ['\\', 'r']
  else if c = '\t' then ['\\', 't']
  else if c.toNat < 0x20 then
    ['\\', 'u', '0', '0', Nat.digitChar (c.toNat / 16), Nat.digitChar (c.toNat % 16)]
  else [c]

def textChars (s : String) : List Char := '"' :: (s.toList.flatMap escapeChar ++ ['"'])

def integerChars (n : Int) : List Char :=
  if n < 0 then '-' :: Nat.toDigits 10 n.natAbs else Nat.toDigits 10 n.natAbs

namespace Document

mutual

def chars (layout : Layout) (depth : Nat) : Document → List Char
  | null => ['n', 'u', 'l', 'l']
  | boolean true => ['t', 'r', 'u', 'e']
  | boolean false => ['f', 'a', 'l', 's', 'e']
  | integer n => integerChars n
  | text s => textChars s
  | list [] => ['[', ']']
  | list (item :: items) =>
    '[' :: (layout.lineStart (depth + 1) ++ chars layout (depth + 1) item ++
      (itemsChars layout depth items ++ [']']))
  | object [] => ['\x7b', '\x7d']
  | object ((key, value) :: members) =>
    '\x7b' :: (layout.lineStart (depth + 1) ++ textChars key ++ layout.colon ++
      chars layout (depth + 1) value ++ (membersChars layout depth members ++ ['\x7d']))

/-- The text of the items after the first of a list at a depth, up to its bracket. -/
def itemsChars (layout : Layout) (depth : Nat) : List Document → List Char
  | [] => layout.lineStart depth
  | item :: items =>
    ',' :: (layout.lineStart (depth + 1) ++ chars layout (depth + 1) item ++
      itemsChars layout depth items)

/-- The text of the members after the first of an object at a depth, up to its brace. -/
def membersChars (layout : Layout) (depth : Nat) : List (String × Document) → List Char
  | [] => layout.lineStart depth
  | (key, value) :: members =>
    ',' :: (layout.lineStart (depth + 1) ++ textChars key ++ layout.colon ++
      chars layout (depth + 1) value ++ membersChars layout depth members)

end

def render (layout : Layout) (d : Document) : String := String.ofList (d.chars layout 0)

end Document

end TapeMachine.Json
