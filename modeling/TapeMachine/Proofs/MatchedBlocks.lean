import Mathlib.Tactic.Ring
import TapeMachine.Proofs.BuiltInMachines
import TapeMachine.Proofs.FirstFault

/-!
# The machine for a block of zeros and as many ones

A round crosses off the zero under the head with `X` and the first one behind it with `Y`, and goes
back to the cell behind the `X`. So what lies from the head on are zeros, ones and `Y`s, no `Y`
behind a one, and it is one cell shorter after each round. A round keeps whether these are zeros,
then `Y`s, then as many ones as zeros. When there are no zeros left, the machine makes sure that
there are only `Y`s. A round on `n` symbols takes at most `2 * n - 1` steps.
-/

namespace TapeMachine

/-- Zeros and then as many ones. -/
def IsZerosOnes (x : List Symbol) : Prop := ∃ k, x = List.replicate k '0' ++ List.replicate k '1'

instance (x : List Symbol) : Decidable (IsZerosOnes x) :=
  decidable_of_iff (x = List.replicate (x.count '0') '0' ++ List.replicate (x.count '0') '1')
    ⟨fun h => ⟨_, h⟩, fun ⟨k, hk⟩ => by simp [hk, List.count_replicate]⟩

namespace Definition.zerosOnes

variable {l r t u : List Symbol} {s : Symbol}

/-- Zeros, then crossed off ones, then as many ones as zeros. -/
def Matched (t : List Symbol) : Prop :=
  ∃ a b, t = List.replicate a '0' ++ List.replicate b 'Y' ++ List.replicate a '1'

instance (t : List Symbol) : Decidable (Matched t) :=
  decidable_of_iff (t = List.replicate (t.count '0') '0' ++ List.replicate (t.count 'Y') 'Y' ++
      List.replicate (t.count '0') '1')
    ⟨fun h => ⟨_, _, h⟩, fun ⟨a, b, h⟩ => by simp [h, List.count_replicate]⟩

/-- What rounds leave from the head on. -/
structure Remainder (t : List Symbol) : Prop where
  symbols : ∀ s ∈ t, s = '0' ∨ s = '1' ∨ s = 'Y'
  order : t.Pairwise fun s s' => s = '1' → s' ≠ 'Y'

private theorem split_unique {u' r' : List Symbol} (hu : s ∉ u) (hu' : s ∉ u')
    (h : u ++ s :: r = u' ++ s :: r') : u = u' ∧ r = r' := by
  have hfirst (before : List Symbol) (x : Symbol) (mid : List Symbol) (x' : Symbol)
      (hx : s ∉ before ∧ x = s) : ¬ (s ∉ before ++ x :: mid ∧ x' = s) := by
    simp [hx.2]
  obtain ⟨rfl, -⟩ := append_cons_inj_of_first hfirst h ⟨hu, rfl⟩ ⟨hu', rfl⟩
  exact ⟨rfl, (List.cons.inj (List.append_cancel_left h)).2⟩

private theorem split_last_unique {u' r' : List Symbol} (hr : s ∉ r) (hr' : s ∉ r')
    (h : u ++ s :: r = u' ++ s :: r') : u = u' ∧ r = r' := by
  have hreverse : r.reverse ++ s :: u.reverse = r'.reverse ++ s :: u'.reverse := by
    simpa using congrArg List.reverse h
  obtain ⟨hr, hu⟩ := split_unique (by simpa using hr) (by simpa using hr') hreverse
  exact ⟨List.reverse_injective hu, List.reverse_injective hr⟩

private theorem matched_round (hu : '1' ∉ u) (hr : 'Y' ∉ r) :
    Matched (u ++ 'Y' :: r) ↔ Matched ('0' :: (u ++ '1' :: r)) := by
  constructor
  · rintro ⟨a, b, h⟩
    cases b with
    | zero =>
      have hmem : 'Y' ∈ u ++ 'Y' :: r := by simp
      rw [h] at hmem
      simp [List.mem_replicate] at hmem
    | succ b =>
      rw [List.replicate_succ', List.append_assoc, List.append_assoc, List.singleton_append,
        ← List.append_assoc] at h
      obtain ⟨rfl, rfl⟩ := split_last_unique hr (by simp [List.mem_replicate]) h
      exact ⟨a + 1, b, by simp [List.replicate_succ]⟩
  · rintro ⟨a, b, h⟩
    cases a with
    | zero =>
      have hmem : '1' ∈ '0' :: (u ++ '1' :: r) := by simp
      rw [h] at hmem
      simp [List.mem_replicate] at hmem
    | succ a =>
      rw [List.replicate_succ (a := '1'), ← List.cons_append] at h
      obtain ⟨hzeros, rfl⟩ := split_unique (by simpa using hu) (by simp [List.mem_replicate]) h
      rw [List.replicate_succ, List.cons_append] at hzeros
      obtain ⟨-, rfl⟩ := List.cons.inj hzeros
      exact ⟨a, b + 1, by simp [List.replicate_succ']⟩

namespace Remainder

private theorem of_isBinary (h : IsBinary t) : Remainder t where
  symbols s hs := (h s hs).imp_right .inl
  order := by
    apply List.pairwise_of_forall_mem_list
    intro s _ s' hs' _
    rcases h s' hs' with rfl | rfl <;> decide

/-- What a round crosses over has no ones, and what lies behind the one has no `Y`. -/
theorem round (h : Remainder ('0' :: (u ++ '1' :: r))) (hu : '1' ∉ u) :
    (∀ s ∈ u, s = '0' ∨ s = 'Y') ∧ 'Y' ∉ r ∧ Remainder (u ++ 'Y' :: r) := by
  obtain ⟨hsymbols, horder⟩ := h
  obtain ⟨-, horder⟩ := List.pairwise_cons.mp horder
  obtain ⟨horder_u, horder_r, -⟩ := List.pairwise_append.mp horder
  obtain ⟨hbehind, horder_r⟩ := List.pairwise_cons.mp horder_r
  have hne (s : Symbol) (hs : s ∈ u) : s ≠ '1' := fun h => hu (h ▸ hs)
  refine ⟨?_, fun hmem => hbehind 'Y' hmem rfl rfl, ?_, ?_⟩
  · intro s hs
    have hs' := hsymbols s (by simp [hs])
    simpa [hne s hs] using hs'
  · intro s hs
    rcases List.mem_append.mp hs with hs | hs
    · exact hsymbols s (by simp [hs])
    · rcases List.mem_cons.mp hs with rfl | hs
      · exact .inr (.inr rfl)
      · exact hsymbols s (by simp [hs])
  · refine List.pairwise_append.mpr ⟨horder_u, List.pairwise_cons.mpr ⟨?_, horder_r⟩, ?_⟩
    · intro s _ h
      exact absurd h (by decide)
    · intro s hs s' _ h
      exact absurd h (hne s hs)

end Remainder

private theorem matched_nil : Matched [] := ⟨0, 0, rfl⟩

private theorem not_matched_one : ¬ Matched ('1' :: r) := by
  rintro ⟨_ | a, b, h⟩
  · have hmem : '1' ∈ '1' :: r := List.mem_cons_self
    rw [h] at hmem
    simp [List.mem_replicate] at hmem
  · simp [List.replicate_succ] at h

/-- A zero that comes first is matched by a one. -/
theorem one_mem_of_matched (h : Matched ('0' :: r)) : '1' ∈ r := by
  obtain ⟨_ | a, b, h⟩ := h
  · have hmem : '0' ∈ '0' :: r := List.mem_cons_self
    rw [h] at hmem
    simp [List.mem_replicate] at hmem
  · rw [List.replicate_succ, List.replicate_succ, List.cons_append, List.cons_append] at h
    obtain ⟨-, rfl⟩ := List.cons.inj h
    simp

/-- Without zeros there are no ones. -/
theorem matched_crossed : Matched ('Y' :: r) ↔ ∀ s ∈ r, s = 'Y' := by
  constructor
  · rintro ⟨_ | a, b, h⟩ s hs
    · have hmem : s ∈ 'Y' :: r := List.mem_cons_of_mem _ hs
      rw [h] at hmem
      exact List.eq_of_mem_replicate (by simpa using hmem)
    · simp [List.replicate_succ] at h
  · intro h
    refine ⟨0, r.length + 1, ?_⟩
    simpa [List.replicate_succ] using List.eq_replicate_of_mem h

private theorem start_zero : zerosOnes.Moves 1 ⟨"q0", l, '0' :: r⟩ ⟨"q1", 'X' :: l, r⟩ := by
  have h : zerosOnes.Prescribes "q0" '0' ⟨"q1", 'X', .right⟩ := by decide
  exact .single h rfl

private theorem start_crossed : zerosOnes.Moves 1 ⟨"q0", l, 'Y' :: r⟩ ⟨"q3", 'Y' :: l, r⟩ := by
  have h : zerosOnes.Prescribes "q0" 'Y' ⟨"q3", 'Y', .right⟩ := by decide
  exact .single h rfl

private theorem start_one : zerosOnes.Moves 1 ⟨"q0", l, '1' :: r⟩ ⟨"reject", l, '1' :: r⟩ := by
  have h : zerosOnes.Prescribes "q0" '1' ⟨"reject", '1', .stay⟩ := by decide
  exact .single h rfl

private theorem start_blank : zerosOnes.Moves 1 ⟨"q0", l, []⟩ ⟨"halt", l, ['_']⟩ := by
  have h : zerosOnes.Prescribes "q0" '_' ⟨"halt", '_', .stay⟩ := by decide
  exact .single h rfl

private theorem seek_one :
    zerosOnes.Moves 1 ⟨"q1", l, '1' :: r⟩ (View.back '_' "q2" l ('Y' :: r)) := by
  have h : zerosOnes.Prescribes "q1" '1' ⟨"q2", 'Y', .left⟩ := by decide
  exact .single h rfl

private theorem seek_blank : zerosOnes.Moves 1 ⟨"q1", l, []⟩ ⟨"reject", l, ['_']⟩ := by
  have h : zerosOnes.Prescribes "q1" '_' ⟨"reject", '_', .stay⟩ := by decide
  exact .single h rfl

private theorem return_end : zerosOnes.Moves 1 ⟨"q2", l, 'X' :: r⟩ ⟨"q0", 'X' :: l, r⟩ := by
  have h : zerosOnes.Prescribes "q2" 'X' ⟨"q0", 'X', .right⟩ := by decide
  exact .single h rfl

private theorem finish_crossed : zerosOnes.Moves 1 ⟨"q3", l, 'Y' :: r⟩ ⟨"q3", 'Y' :: l, r⟩ := by
  have h : zerosOnes.Prescribes "q3" 'Y' ⟨"q3", 'Y', .right⟩ := by decide
  exact .single h rfl

private theorem finish_blank : zerosOnes.Moves 1 ⟨"q3", l, []⟩ ⟨"halt", l, ['_']⟩ := by
  have h : zerosOnes.Prescribes "q3" '_' ⟨"halt", '_', .stay⟩ := by decide
  exact .single h rfl

private theorem finish_other (hs : s = '0' ∨ s = '1') :
    zerosOnes.Moves 1 ⟨"q3", l, s :: r⟩ ⟨"reject", l, s :: r⟩ := by
  have h : zerosOnes.Prescribes "q3" s ⟨"reject", s, .stay⟩ := by
    rcases hs with rfl | rfl <;> decide
  exact .single h rfl

private theorem seek_run (hu : ∀ s ∈ u, s = '0' ∨ s = 'Y') :
    zerosOnes.Moves u.length ⟨"q1", l, u ++ r⟩ ⟨"q1", u.reverse ++ l, r⟩ := by
  apply moves_right
  intro s hs
  rcases hu s hs with rfl | rfl <;> decide

private theorem return_run (hu : ∀ s ∈ u, s = '0' ∨ s = 'Y') :
    zerosOnes.Moves u.length (View.back '_' "q2" (u ++ l) r)
      (View.back '_' "q2" l (u.reverse ++ r)) := by
  apply moves_back
  intro s hs
  rcases hu s hs with rfl | rfl <;> decide

/-- A zero and the first one behind it are crossed off. -/
theorem round_run (hu : ∀ s ∈ u, s = '0' ∨ s = 'Y') :
    zerosOnes.Moves (2 * u.length + 3) ⟨"q0", l, '0' :: (u ++ '1' :: r)⟩
      ⟨"q0", 'X' :: l, u ++ 'Y' :: r⟩ := by
  have hseek := seek_run (l := 'X' :: l) (r := '1' :: r) hu
  have hreturn := return_run (u := u.reverse) (l := 'X' :: l) (r := 'Y' :: r)
    fun s hs => hu s (List.mem_reverse.mp hs)
  rw [List.reverse_reverse] at hreturn
  have h := (((start_zero.trans hseek).trans seek_one).trans hreturn).trans return_end
  have hsteps : 1 + u.length + 1 + u.reverse.length + 1 = 2 * u.length + 3 := by
    rw [List.length_reverse]
    omega
  rw [hsteps] at h
  exact h

/-- The last phase, behind a crossed off one, makes sure that all ones are crossed off. -/
theorem exists_finish (hr : ∀ s ∈ r, s = '0' ∨ s = '1' ∨ s = 'Y') :
    ∃ n v, zerosOnes.Moves n ⟨"q3", l, r⟩ v ∧
      v.state = (if Matched ('Y' :: r) then "halt" else "reject") ∧ n ≤ r.length + 1 := by
  induction r generalizing l with
  | nil => exact ⟨1, _, finish_blank, by simp [matched_crossed], Nat.le_refl 1⟩
  | cons s r ih =>
    obtain ⟨hs, htail⟩ := List.forall_mem_cons.mp hr
    rcases hs with rfl | rfl | rfl
    · exact ⟨1, _, finish_other (.inl rfl), by simp [matched_crossed], Nat.le_add_left ..⟩
    · exact ⟨1, _, finish_other (.inr rfl), by simp [matched_crossed], Nat.le_add_left ..⟩
    · obtain ⟨n, v, hmoves, hv, hn⟩ := ih (l := 'Y' :: l) htail
      refine ⟨1 + n, v, finish_crossed.trans hmoves, ?_, ?_⟩
      · simpa [matched_crossed] using hv
      · rw [List.length_cons]
        omega

/-- From what rounds leave the machine gets to a state that says whether it is matched. -/
theorem exists_moves (ht : Remainder t) :
    ∃ n v, zerosOnes.Moves n ⟨"q0", l, t⟩ v ∧
      v.state = (if Matched t then "halt" else "reject") ∧ n ≤ t.length ^ 2 + 1 := by
  -- each round leaves one symbol less from the head on
  induction hlength : t.length generalizing t l with
  | zero =>
    obtain rfl := List.length_eq_zero_iff.mp hlength
    exact ⟨1, _, start_blank, by simp [matched_nil], Nat.le_refl 1⟩
  | succ n ih =>
    obtain ⟨s, r, rfl⟩ := List.exists_cons_of_length_eq_add_one hlength
    have hr : r.length = n := Nat.succ.inj hlength
    have hbound : (n + 1) ^ 2 + 1 = n ^ 2 + 1 + (2 * n + 1) := by ring
    rw [hbound]
    obtain ⟨hs, hsymbols⟩ := List.forall_mem_cons.mp ht.symbols
    rcases hs with rfl | rfl | rfl
    · by_cases hone : '1' ∈ r
      · obtain ⟨u, r, rfl, hu⟩ := List.eq_append_cons_of_mem hone
        obtain ⟨hcrossed, hbehind, hnext⟩ := ht.round hu
        rw [List.length_append, List.length_cons] at hr
        obtain ⟨k, v, hmoves, hv, hk⟩ := ih (l := 'X' :: l) hnext (by simpa using hr)
        refine ⟨_, v, (round_run hcrossed).trans hmoves, ?_, by omega⟩
        simpa only [matched_round hu hbehind] using hv
      · have hzeros : ∀ s ∈ r, s = '0' ∨ s = 'Y' := by
          intro s hs
          rcases hsymbols s hs with rfl | rfl | rfl
          · exact .inl rfl
          · exact absurd hs hone
          · exact .inr rfl
        have hseek := seek_run (l := 'X' :: l) (r := []) hzeros
        rw [List.append_nil] at hseek
        refine ⟨_, _, (start_zero.trans hseek).trans seek_blank, ?_, by omega⟩
        rw [if_neg fun h => hone (one_mem_of_matched h)]
    · refine ⟨1, _, start_one, ?_, by omega⟩
      rw [if_neg not_matched_one]
    · obtain ⟨k, v, hmoves, hv, hk⟩ := exists_finish (l := 'Y' :: l) hsymbols
      exact ⟨_, v, start_crossed.trans hmoves, hv, by omega⟩

/-- A binary word is matched when it is zeros and then as many ones. -/
theorem matched_iff_of_isBinary (h : IsBinary t) : Matched t ↔ IsZerosOnes t := by
  constructor
  · rintro ⟨a, _ | b, rfl⟩
    · exact ⟨a, by simp⟩
    · have hY := h 'Y' (by simp)
      exact absurd hY (by decide)
  · rintro ⟨k, rfl⟩
    exact ⟨k, 0, by simp⟩

end Definition.zerosOnes

namespace Catalog

/-- The machine for zeros and as many ones can be loaded with every binary word. A run that may make
`2 * (n + 1) ^ 2 + 2` steps, where the word has `n` symbols, accepts the words of this form and
rejects all others. -/
theorem zerosOnes_decides : ∃ e, byName? "Match 0^n1^n" = some e ∧
    ∀ w : String, IsBinary w.toList → ∃ m, e.load w = .ok m ∧
      ∀ limits : Limits, 2 * (w.length + 1) ^ 2 + 2 ≤ limits.maxSteps →
        (m.run limits).verdict = if IsZerosOnes w.toList then .accepted else .rejected := by
  have he : BuiltIn.zerosOnes.entry ∈ entries := entry_mem (by simp [builtIns])
  refine ⟨_, byName?_of_mem he rfl, ?_⟩
  intro w hw
  have hinput : ∀ s ∈ w.toList, s ∈ Definition.zerosOnes.inputSymbols := by
    intro s hs
    rcases hw s hs with rfl | rfl <;> decide
  obtain ⟨n, v, hmoves, hv, hn⟩ :=
    Definition.zerosOnes.exists_moves (l := []) (Definition.zerosOnes.Remainder.of_isBinary hw)
  simp only [Definition.zerosOnes.matched_iff_of_isBinary hw] at hv
  rw [String.length_toList] at hn
  obtain ⟨m, hload, hrun⟩ := exists_load_of_moves he rfl hinput hmoves hv rfl rfl rfl
  refine ⟨m, hload, ?_⟩
  intro limits hroom
  have hsquare : w.length ^ 2 ≤ (w.length + 1) ^ 2 := Nat.pow_le_pow_left (Nat.le_succ _) 2
  exact (hrun limits (by omega)).1

theorem zerosOnes_decides_short : ∃ e, byName? "Match 0^n1^n" = some e ∧
    (∃ m, e.load "0011" = .ok m ∧ (m.run ⟨52, 1⟩).verdict = .accepted) ∧
    ∃ m, e.load "0101" = .ok m ∧ (m.run ⟨52, 1⟩).verdict = .rejected := by
  obtain ⟨e, he, hall⟩ := zerosOnes_decides
  obtain ⟨m, hload, hrun⟩ := hall "0011" (by simp [IsBinary])
  obtain ⟨m', hload', hrun'⟩ := hall "0101" (by simp [IsBinary])
  have h := hrun ⟨52, 1⟩ (by decide)
  have h' := hrun' ⟨52, 1⟩ (by decide)
  exact ⟨e, he, ⟨m, hload, h⟩, m', hload', h'⟩

end Catalog

end TapeMachine
