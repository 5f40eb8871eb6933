import Mathlib.Algebra.Order.Ring.Int
import TapeMachine.Tape.Words

/-!
# Numbers and words

What a word tells about the number that it was computed for. Where overflow stops a computation, a
word is the number; where it wraps around, a word stands for all numbers that differ from it by a
multiple of `2 ^ 64`, and those are one position of the tape. Less than `2 ^ 63` positions in a row
are told apart in either case.
-/

namespace TapeMachine

theorem isWord_iff {x : Int} : IsWord x ↔ -2 ^ 63 ≤ x ∧ x < 2 ^ 63 := by
  constructor
  · intro h
    rw [← h]
    exact ⟨Int64.le_toInt _, Int64.toInt_lt _⟩
  · rintro ⟨hlow, hhigh⟩
    exact Int64.toInt_ofInt_of_le hlow hhigh

theorem isWord_zero : IsWord 0 := rfl

/-- What lies between words is a word. -/
theorem IsWord.between {x y z : Int} (hx : IsWord x) (hz : IsWord z) (hxy : x ≤ y) (hyz : y ≤ z) :
    IsWord y :=
  isWord_iff.mpr ⟨(isWord_iff.mp hx).1.trans hxy, hyz.trans_lt (isWord_iff.mp hz).2⟩

theorem wrap_of_isWord {x : Int} (h : IsWord x) : wrap x = x := h

theorem isWord_wrap (x : Int) : IsWord (wrap x) :=
  isWord_iff.mpr ⟨Int64.le_toInt _, Int64.toInt_lt _⟩

theorem wrap_sub_self_emod (x : Int) : (wrap x - x) % 2 ^ 64 = 0 := by
  have hmod : wrap x % 2 ^ 64 = x % 2 ^ 64 := by
    rw [wrap, Int64.toInt_ofInt]
    exact Int.bmod_emod
  omega

theorem wrap_eq_wrap_iff {x y : Int} : wrap x = wrap y ↔ (x - y) % 2 ^ 64 = 0 := by
  have hx := isWord_iff.mp (isWord_wrap x)
  have hy := isWord_iff.mp (isWord_wrap y)
  have hx' := wrap_sub_self_emod x
  have hy' := wrap_sub_self_emod y
  constructor <;> intro h <;> omega

namespace Overflow

/-- The numbers stand for the same position. -/
def Same (o : Overflow) (p q : Int) : Prop :=
  match o with
  | .stops => p = q
  | .wraps => wrap p = wrap q

instance (o : Overflow) (p q : Int) : Decidable (o.Same p q) :=
  match o with
  | .stops => inferInstanceAs (Decidable (p = q))
  | .wraps => inferInstanceAs (Decidable (wrap p = wrap q))

variable {o : Overflow} {p q f g x y : Int} {i j : Nat}

private theorem same_iff : o.Same p q ↔ p = q ∨ o = .wraps ∧ (p - q) % 2 ^ 64 = 0 := by
  cases o with
  | stops => simp [Same]
  | wraps =>
    simp only [Same, wrap_eq_wrap_iff, true_and]
    omega

theorem Same.refl (o : Overflow) (p : Int) : o.Same p p := same_iff.mpr (.inl rfl)

theorem Same.symm (h : o.Same p q) : o.Same q p := by
  rw [same_iff] at h ⊢
  obtain rfl | ⟨hwraps, h⟩ := h
  · exact .inl rfl
  · exact .inr ⟨hwraps, by omega⟩

theorem Same.trans (h : o.Same p q) (h' : o.Same q x) : o.Same p x := by
  cases o with
  | stops => exact Eq.trans h h'
  | wraps => exact Eq.trans h h'

/-- Positions are moved together. -/
theorem Same.add (h : o.Same p q) (x : Int) : o.Same (p + x) (q + x) := by
  rw [same_iff] at h ⊢
  obtain rfl | ⟨hwraps, h⟩ := h
  · exact .inl rfl
  · exact .inr ⟨hwraps, by omega⟩

theorem Same.eq_of_isWord (h : o.Same p q) (hp : IsWord p) (hq : IsWord q) : p = q := by
  rw [isWord_iff] at hp hq
  obtain rfl | ⟨-, h⟩ := same_iff.mp h
  · rfl
  · omega

/-- Less than `2 ^ 63` positions in a row are different ones. -/
theorem Same.eq_of_add (h : o.Same (f + i) (f + j)) (hi : IsWord i) (hj : IsWord j) : i = j := by
  rw [isWord_iff] at hi hj
  rw [same_iff] at h
  omega

/-- Blocks of such positions that begin in one another begin together. -/
theorem same_of_add (h : o.Same f (g + j)) (h' : o.Same g (f + i)) (hi : IsWord i)
    (hj : IsWord j) : o.Same f g := by
  rw [isWord_iff] at hi hj
  rw [same_iff] at h h' ⊢
  cases o with
  | stops => simp only [reduceCtorEq, false_and, or_false] at h h' ⊢; omega
  | wraps => simp only [true_and] at h h' ⊢; omega

theorem word?_of_isWord (h : IsWord x) : o.word? x = some x := by
  cases o with
  | stops => exact if_pos h
  | wraps => exact congrArg some h

/-- The word that is computed for a number stands for it. -/
theorem word?_eq_some (h : o.word? x = some y) : IsWord y ∧ o.Same y x := by
  cases o with
  | stops =>
    obtain ⟨hx, rfl⟩ : IsWord x ∧ x = y := by simpa [word?] using h
    exact ⟨hx, rfl⟩
  | wraps =>
    obtain rfl : wrap x = y := Option.some.inj h
    exact ⟨isWord_wrap x, isWord_wrap x⟩

theorem word?_eq_none_iff : o.word? x = none ↔ o = .stops ∧ ¬ IsWord x := by
  cases o <;> simp [word?]

end Overflow

end TapeMachine
