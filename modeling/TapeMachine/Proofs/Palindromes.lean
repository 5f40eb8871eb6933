import Mathlib.Data.List.Induction
import Mathlib.Tactic.Ring
import TapeMachine.Proofs.BuiltInMachines

/-!
# The palindrome machine

A round erases the first symbol, carries it over the rest to the last symbol, erases that one when
it is the same, and goes back. What is left is the word without its ends, one cell further on and
with blanks around it. So the rounds follow a word from both ends inwards: the machine accepts when
nothing or one symbol is left and rejects at the first pair of ends that differ. A round on `n`
symbols takes `2 * n + 1` steps, which add up to half of `(n + 1) * (n + 2)`.
-/

namespace TapeMachine

namespace Definition.palindrome

variable {l r x z : List Symbol} {s t : Symbol}

/-- The state that takes the erased symbol to the end of the word. -/
def carrying (s : Symbol) : State := if s = '0' then "carry0" else "carry1"

/-- The state that compares the last symbol with the erased one. -/
def checking (s : Symbol) : State := if s = '0' then "check0" else "check1"

private theorem pick_symbol (hs : s = '0' ∨ s = '1') :
    palindrome.Moves 1 ⟨"pick", l, s :: r⟩ ⟨carrying s, '_' :: l, r⟩ := by
  have h : palindrome.Prescribes "pick" s ⟨carrying s, '_', .right⟩ := by
    rcases hs with rfl | rfl <;> decide
  exact .single h rfl

private theorem pick_blank (hr : r.headD '_' = '_') :
    palindrome.Moves 1 ⟨"pick", l, r⟩ ⟨"accept", l, '_' :: r.tail⟩ := by
  have h : palindrome.Prescribes "pick" '_' ⟨"accept", '_', .stay⟩ := by decide
  exact .single h hr

private theorem carry_end (hs : s = '0' ∨ s = '1') (hr : r.headD '_' = '_') :
    palindrome.Moves 1 ⟨carrying s, l, r⟩ (View.back '_' (checking s) l ('_' :: r.tail)) := by
  have h : palindrome.Prescribes (carrying s) '_' ⟨checking s, '_', .left⟩ := by
    rcases hs with rfl | rfl <;> decide
  exact .single h hr

private theorem check_same (hs : s = '0' ∨ s = '1') :
    palindrome.Moves 1 ⟨checking s, l, s :: r⟩ (View.back '_' "back" l ('_' :: r)) := by
  have h : palindrome.Prescribes (checking s) s ⟨"back", '_', .left⟩ := by
    rcases hs with rfl | rfl <;> decide
  exact .single h rfl

private theorem check_other (hs : s = '0' ∨ s = '1') (ht : t = '0' ∨ t = '1') (hne : t ≠ s) :
    palindrome.Moves 1 ⟨checking s, l, t :: r⟩ ⟨"reject", l, t :: r⟩ := by
  have h : palindrome.Prescribes (checking s) t ⟨"reject", t, .stay⟩ := by
    rcases hs with rfl | rfl <;> rcases ht with rfl | rfl
    · exact absurd rfl hne
    · decide
    · decide
    · exact absurd rfl hne
  exact .single h rfl

private theorem check_blank (hs : s = '0' ∨ s = '1') :
    palindrome.Moves 1 ⟨checking s, l, '_' :: r⟩ ⟨"accept", l, '_' :: r⟩ := by
  have h : palindrome.Prescribes (checking s) '_' ⟨"accept", '_', .stay⟩ := by
    rcases hs with rfl | rfl <;> decide
  exact .single h rfl

private theorem back_end : palindrome.Moves 1 ⟨"back", l, '_' :: r⟩ ⟨"pick", '_' :: l, r⟩ := by
  have h : palindrome.Prescribes "back" '_' ⟨"pick", '_', .right⟩ := by decide
  exact .single h rfl

private theorem carry_run (hs : s = '0' ∨ s = '1') (hx : IsBinary x) :
    palindrome.Moves x.length ⟨carrying s, l, x ++ r⟩ ⟨carrying s, x.reverse ++ l, r⟩ := by
  apply moves_right
  intro t ht
  rcases hs with rfl | rfl <;> rcases hx t ht with rfl | rfl <;> decide

private theorem back_run (hx : IsBinary x) :
    palindrome.Moves x.length (View.back '_' "back" (x ++ l) r)
      (View.back '_' "back" l (x.reverse ++ r)) := by
  apply moves_back
  intro t ht
  rcases hx t ht with rfl | rfl <;> decide

/-- The first symbol is erased, and the head stands on the last of the others. -/
theorem check_run (hs : s = '0' ∨ s = '1') (hx : IsBinary (x ++ [t])) (hz : z.headD '_' = '_') :
    palindrome.Moves (x.length + 3) ⟨"pick", l, s :: (x ++ [t] ++ z)⟩
      ⟨checking s, x.reverse ++ '_' :: l, t :: '_' :: z.tail⟩ := by
  have hcarry := carry_run (l := '_' :: l) (r := z) hs hx
  have hend := carry_end (l := (x ++ [t]).reverse ++ '_' :: l) hs hz
  have h := ((pick_symbol hs).trans hcarry).trans hend
  have hsteps : 1 + (x ++ [t]).length + 1 = x.length + 3 := by
    rw [List.length_append, List.length_singleton]
    omega
  rw [hsteps, List.reverse_append] at h
  exact h

/-- A word with equal ends loses both. -/
theorem round_run (hs : s = '0' ∨ s = '1') (hx : IsBinary x) (hz : z.headD '_' = '_') :
    palindrome.Moves (2 * x.length + 5) ⟨"pick", l, s :: (x ++ [s] ++ z)⟩
      ⟨"pick", '_' :: l, x ++ '_' :: '_' :: z.tail⟩ := by
  have hends : IsBinary (x ++ [s]) :=
    isBinary_append.mpr ⟨hx, isBinary_cons.mpr ⟨hs, isBinary_nil⟩⟩
  have hback := back_run (x := x.reverse) (l := '_' :: l) (r := '_' :: '_' :: z.tail)
    fun t ht => hx t (List.mem_reverse.mp ht)
  rw [List.reverse_reverse] at hback
  have h := (((check_run hs hends hz).trans (check_same hs)).trans hback).trans back_end
  have hsteps : x.length + 3 + 1 + x.reverse.length + 1 = 2 * x.length + 5 := by
    rw [List.length_reverse]
    omega
  rw [hsteps] at h
  exact h

/-- From the beginning of a word with blanks behind it the machine gets to a state that says
whether the word is the same backwards. -/
theorem exists_moves (hx : IsBinary x) (hz : z.headD '_' = '_') :
    ∃ n v, palindrome.Moves n ⟨"pick", l, x ++ z⟩ v ∧
      v.state = (if x.reverse = x then "accept" else "reject") ∧
      2 * n ≤ (x.length + 1) * (x.length + 2) := by
  -- a round takes off both ends, and the rest has two blanks more behind it
  induction x using List.bidirectionalRec generalizing l z with
  | nil => exact ⟨1, _, pick_blank hz, rfl, Nat.le_refl 2⟩
  | singleton s =>
    have hs : s = '0' ∨ s = '1' := (isBinary_cons.mp hx).1
    have h := ((pick_symbol (l := l) hs).trans (carry_end hs hz)).trans (check_blank hs)
    exact ⟨3, _, h, by simp, Nat.le_refl 6⟩
  | cons_append s x t ih =>
    obtain ⟨hs, hends⟩ := isBinary_cons.mp hx
    obtain ⟨hinner, hlast⟩ := isBinary_append.mp hends
    have ht : t = '0' ∨ t = '1' := (isBinary_cons.mp hlast).1
    have hlength : (s :: (x ++ [t])).length = x.length + 2 := by simp
    have hbound : (x.length + 2 + 1) * (x.length + 2 + 2) =
        (x.length + 1) * (x.length + 2) + 2 * (2 * x.length + 5) := by ring
    rw [hlength, hbound]
    by_cases hts : t = s
    · subst hts
      obtain ⟨n, v, hmoves, hv, hn⟩ := ih (l := '_' :: l) (z := '_' :: '_' :: z.tail) hinner rfl
      refine ⟨_, v, (round_run hs hinner hz).trans hmoves, ?_, by omega⟩
      simpa using hv
    · refine ⟨_, _, (check_run hs hends hz).trans (check_other hs ht hts), ?_, by omega⟩
      simp [hts]

end Definition.palindrome

namespace Catalog

/-- The palindrome machine can be loaded with every binary word. With room for half of
`(n + 1) * (n + 2)` steps and one more, where the word has `n` symbols, its run accepts the words
that are the same backwards, rejects all others, and makes no more steps than that. -/
theorem palindrome_decides : ∃ e, byName? "Binary palindrome" = some e ∧
    ∀ w : String, IsBinary w.toList → ∃ m, e.load w = .ok m ∧
      ∀ limits : Limits, (w.length + 1) * (w.length + 2) / 2 < limits.maxSteps →
        (m.run limits).verdict = (if w.toList.reverse = w.toList then .accepted else .rejected) ∧
          (m.run limits).steps ≤ (w.length + 1) * (w.length + 2) / 2 := by
  have he : BuiltIn.palindrome.entry ∈ entries := entry_mem (by simp [builtIns])
  refine ⟨_, byName?_of_mem he rfl, ?_⟩
  intro w hw
  have hinput : ∀ s ∈ w.toList, s ∈ Definition.palindrome.inputSymbols := by
    intro s hs
    rcases hw s hs with rfl | rfl <;> decide
  obtain ⟨n, v, hmoves, hv, hn⟩ := Definition.palindrome.exists_moves (l := []) (z := []) hw rfl
  rw [List.append_nil] at hmoves
  rw [String.length_toList] at hn
  obtain ⟨m, hload, hrun⟩ := exists_load_of_moves he rfl hinput hmoves hv rfl rfl rfl
  refine ⟨m, hload, ?_⟩
  intro limits hroom
  obtain ⟨hverdict, hsteps⟩ := hrun limits (by omega)
  exact ⟨hverdict, by omega⟩

theorem palindrome_decides_even_odd : ∃ e, byName? "Binary palindrome" = some e ∧
    (∃ m, e.load "0110" = .ok m ∧ (m.run ⟨16, 1⟩).verdict = .accepted) ∧
    ∃ m, e.load "100" = .ok m ∧ (m.run ⟨11, 1⟩).verdict = .rejected := by
  obtain ⟨e, he, hall⟩ := palindrome_decides
  obtain ⟨m, hload, hrun⟩ := hall "0110" (by simp [IsBinary])
  obtain ⟨m', hload', hrun'⟩ := hall "100" (by simp [IsBinary])
  have h := (hrun ⟨16, 1⟩ (by decide)).1
  have h' := (hrun' ⟨11, 1⟩ (by decide)).1
  exact ⟨e, he, ⟨m, hload, h⟩, m', hload', h'⟩

end Catalog

end TapeMachine
