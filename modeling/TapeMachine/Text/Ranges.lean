/-!
# Ranges of code points

A set of characters is given by closed ranges of code points, in increasing order and apart from
each other.
-/

namespace TapeMachine.Text

def inRanges (ranges : List (Nat × Nat)) (c : Char) : Bool :=
  ranges.any fun (first, last) => first ≤ c.toNat && c.toNat ≤ last

/-- Whether the ranges are in increasing order, with a gap after each. -/
def ascending : List (Nat × Nat) → Bool
  | [] => true
  | [(first, last)] => first ≤ last
  | (first, last) :: (next, stop) :: rest =>
    first ≤ last && last + 1 < next && ascending ((next, stop) :: rest)

private theorem inRanges_cons_of_lt {first : Nat} {c : Char} (h : c.toNat < first) (last : Nat)
    (rest : List (Nat × Nat)) : inRanges ((first, last) :: rest) c = inRanges rest c := by
  simp [inRanges, Nat.not_le_of_lt h]

/-- Ranges in increasing order contain nothing below the first of them. -/
theorem inRanges_of_lt {first last : Nat} {rest : List (Nat × Nat)}
    (h : ascending ((first, last) :: rest) = true) {c : Char} (hc : c.toNat < first) :
    inRanges ((first, last) :: rest) c = false := by
  induction rest generalizing first last with
  | nil => exact inRanges_cons_of_lt hc last []
  | cons range rest ih =>
    obtain ⟨next, stop⟩ := range
    simp only [ascending, Bool.and_eq_true, decide_eq_true_eq] at h
    obtain ⟨⟨hle, hgap⟩, hrest⟩ := h
    rw [inRanges_cons_of_lt hc]
    exact ih hrest (by omega)

end TapeMachine.Text
