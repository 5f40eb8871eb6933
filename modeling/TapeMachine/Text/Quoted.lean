import TapeMachine.Text.Invisible

/-!
# Quoted text

Text shown inside messages stands in quotes, with the characters that would not be seen replaced by
escapes. Lists of such values are written in brackets.
-/

namespace TapeMachine.Text

/-- The escape of a character that is written in the given quotes. -/
def escape (quote c : Char) : List Char :=
  if c = '\x00' then ['\\', '0']
  else if c = '\t' then ['\\', 't']
  else if c = '\r' then ['\\', 'r']
  else if c = '\n' then ['\\', 'n']
  else if c = '\\' then ['\\', '\\']
  else if c = quote then ['\\', quote]
  else if isInvisible c then ['\\', 'u', '\x7b'] ++ Nat.toDigits 16 c.toNat ++ ['\x7d']
  else [c]

/-- The printable characters of ASCII stand for themselves, except the quote and the backslash. -/
theorem escape_of_ascii {quote c : Char} (hlow : 0x20 < c.toNat) (hhigh : c.toNat < 0x7F)
    (hquote : c ≠ quote) (hslash : c ≠ '\\') : escape quote c = [c] := by
  have hne (d : Char) (hd : d.toNat ≤ 0x20) : c ≠ d := by
    rintro rfl
    omega
  simp [escape, hne '\x00' (by decide), hne '\t' (by decide), hne '\r' (by decide),
    hne '\n' (by decide), hquote, hslash, isInvisible_of_ascii hlow hhigh]

def quoted (s : String) : String :=
  String.ofList (['"'] ++ s.toList.flatMap (escape '"') ++ ['"'])

/-- A word of such characters is quoted as it stands. -/
theorem quoted_of_ascii {w : String} (h : ∀ c ∈ w.toList,
    (0x20 < c.toNat ∧ c.toNat < 0x7F) ∧ c ≠ '"' ∧ c ≠ '\\') :
    quoted w = String.ofList (['"'] ++ w.toList ++ ['"']) := by
  have hescape : w.toList.flatMap (escape '"') = w.toList.flatMap fun c => [c] := by
    rw [List.flatMap_def, List.flatMap_def, List.map_congr_left fun c hc =>
      escape_of_ascii (h c hc).1.1 (h c hc).1.2 (h c hc).2.1 (h c hc).2.2]
  rw [quoted, hescape, List.flatMap_singleton']

def quotedChar (c : Char) : String :=
  String.ofList (['\x27'] ++ escape '\x27' c ++ ['\x27'])

def bracketed (items : List String) : String := "[" ++ ", ".intercalate items ++ "]"

def quotedList (items : List String) : String := bracketed (items.map quoted)

def quotedChars (items : List Char) : String := bracketed (items.map quotedChar)

end TapeMachine.Text
