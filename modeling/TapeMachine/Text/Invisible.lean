import TapeMachine.Text.Combining
import TapeMachine.Text.Space
import TapeMachine.Text.Unassigned

/-!
# Invisible characters

The characters that leave no mark of their own on a page, as far as Unicode 17 tells: what controls
and formats, white space other than the plain space, combining marks, fillers, and code points that
stand for nothing or for what users agree on.
-/

namespace TapeMachine.Text

/-- The control characters (general category Cc). -/
def controls : List (Nat × Nat) :=
  [(0x0, 0x1F), (0x7F, 0x9F)]

/-- The format characters (general category Cf). -/
def formats : List (Nat × Nat) :=
  [(0xAD, 0xAD), (0x600, 0x605), (0x61C, 0x61C), (0x6DD, 0x6DD), (0x70F, 0x70F), (0x890, 0x891),
    (0x8E2, 0x8E2), (0x180E, 0x180E), (0x200B, 0x200F), (0x202A, 0x202E), (0x2060, 0x2064),
    (0x2066, 0x206F), (0xFEFF, 0xFEFF), (0xFFF9, 0xFFFB), (0x110BD, 0x110BD), (0x110CD, 0x110CD),
    (0x13430, 0x1343F), (0x1BCA0, 0x1BCA3), (0x1D173, 0x1D17A), (0xE0001, 0xE0001),
    (0xE0020, 0xE007F)]

/-- The code points for private use (general category Co). -/
def privateUse : List (Nat × Nat) :=
  [(0xE000, 0xF8FF), (0xF0000, 0xFFFFD), (0x100000, 0x10FFFD)]

/-- The letters that are drawn as nothing: they fill the place of a missing part of a syllable. -/
def fillers : List (Nat × Nat) :=
  [(0x115F, 0x1160), (0x3164, 0x3164), (0xFFA0, 0xFFA0)]

def isInvisible (c : Char) : Bool :=
  c ≠ ' ' && (inRanges controls c || isSpace c || inRanges formats c || inRanges privateUse c ||
    inRanges fillers c || isCombining c || isUnassigned c)

/-- The printable characters of ASCII are visible. -/
theorem isInvisible_of_ascii {c : Char} (hlow : 0x20 < c.toNat) (hhigh : c.toNat < 0x7F) :
    isInvisible c = false := by
  have hcontrol : inRanges controls c = false := by
    have hlow : ¬ c.toNat ≤ 0x1F := by omega
    have hhigh : ¬ 0x7F ≤ c.toNat := by omega
    simp [inRanges, controls, hlow, hhigh]
  have hspace : isSpace c = false := by
    simp only [isSpace, Bool.or_eq_false_iff, Bool.and_eq_false_iff, beq_eq_false_iff_ne,
      decide_eq_false_iff_not]
    omega
  have hformat : inRanges formats c = false := inRanges_of_lt (by decide) (by omega)
  have hprivate : inRanges privateUse c = false := inRanges_of_lt (by decide) (by omega)
  have hfiller : inRanges fillers c = false := inRanges_of_lt (by decide) (by omega)
  have hcombining : isCombining c = false := inRanges_of_lt ascending_combining (by omega)
  have hunassigned : isUnassigned c = false := inRanges_of_lt ascending_unassigned (by omega)
  simp [isInvisible, hcontrol, hspace, hformat, hprivate, hfiller, hcombining, hunassigned]

end TapeMachine.Text
