/-!
# White space

The characters with the Unicode property White_Space, and text without them at its ends.
-/

namespace TapeMachine.Text

/-- The characters with the property White_Space. -/
def isSpace (c : Char) : Bool :=
  let n := c.toNat
  (0x09 ≤ n && n ≤ 0x0D) || n == 0x20 || n == 0x85 || n == 0xA0 || n == 0x1680 ||
    (0x2000 ≤ n && n ≤ 0x200A) || n == 0x2028 || n == 0x2029 || n == 0x202F || n == 0x205F ||
    n == 0x3000

def trimStart (s : List Char) : List Char := s.dropWhile isSpace

def trim (s : List Char) : List Char := ((trimStart s).reverse.dropWhile isSpace).reverse

end TapeMachine.Text
