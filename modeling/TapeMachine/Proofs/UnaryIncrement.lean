import TapeMachine.Proofs.BuiltInMachines

/-!
# The increment machine

On a block of ones the head moves right over the whole block, and each one is written again, which
leaves the tape as it is stored. Behind the block a one is written in the place of the blank, and
the storage grows by this cell. Then no rule is left and the machine halts, in an entry for which
the trace just has room or not: with less room the run times out and still shows the block that it
started with.
-/

namespace TapeMachine

namespace Tape

/-- Writing the symbol that is stored at a position changes nothing. -/
theorem write_of_getElem? {t : Tape} {p : Int} {s : Symbol} (ho : t.offset ≤ p)
    (hs : t.cells[(p - t.offset).toNat]? = some s) : t.write p s = t := by
  obtain ⟨hi, hs⟩ := Array.getElem?_eq_some_iff.mp hs
  have hempty : ¬ t.cells.isEmpty = true := by
    rw [Array.isEmpty_iff_size_eq_zero]
    omega
  rw [write, if_neg hempty, if_neg (Int.not_lt.mpr ho)]
  simp only [dif_pos hi, if_pos hs]

/-- A symbol that is written right behind a text makes the text longer. -/
theorem write_behind_ofString (text : String) (blank s : Symbol) :
    (ofString text blank).write text.length s = ofString (text.push s) blank := by
  have hcells : (text.push s).toList = text.toList ++ [s] := by simp
  rw [ofString, ofString, hcells, ← String.length_toList, write]
  cases text.toList with
  | nil => rfl
  | cons x xs =>
    have hbehind : ¬ ((x :: xs).length : Int) < 0 := Int.not_lt.mpr (Int.natCast_nonneg _)
    rw [if_neg (by simp), if_neg hbehind]
    simp

/-- A text without blanks is the contents of the tape that holds it. -/
theorem contents_ofString {text : String} {blank : Symbol} (h : blank ∉ text.toList) :
    (ofString text blank).contents = text := by
  have hread (p : Int) : (ofString text blank).read p = shown blank (0, text.toList) p := by
    simp [read, shown, ofString]
  have hblock : (ofString text blank).NormalForm (0, text.toList) := by
    refine ⟨⟨fun he => h (List.mem_of_head? he), fun he => h (List.mem_of_getLast? he),
      fun _ => rfl⟩, fun i hi => ?_, fun p hp => ?_⟩
    · rw [hread, shown_add (0, text.toList) hi]
    · rw [hread, shown_outside hp]
      rfl
  rw [contents, ← hblock.eq_span, String.ofList_toList]

end Tape

/-- The numeral of a number, a block of as many ones. -/
def unary (n : Nat) : String := String.ofList (List.replicate n '1')

private theorem toList_unary (n : Nat) : (unary n).toList = List.replicate n '1' :=
  String.toList_ofList

private theorem length_unary (n : Nat) : (unary n).length = n := by
  rw [← String.length_toList, toList_unary, List.length_replicate]

private theorem push_unary (n : Nat) : (unary n).push '1' = unary (n + 1) := by
  apply String.toList_injective
  simp [toList_unary, List.replicate_succ']

private theorem read_unary (n i : Nat) :
    (Tape.ofString (unary n) '_').read i = if i < n then '1' else '_' := by
  rw [Tape.read_ofString_natCast, toList_unary, List.getD_eq_getElem?_getD, List.getElem?_replicate]
  split_ifs <;> rfl

private theorem contents_unary (n : Nat) : (Tape.ofString (unary n) '_').contents = unary n := by
  apply Tape.contents_ofString
  rw [toList_unary]
  intro hmem
  exact absurd (List.eq_of_mem_replicate hmem) (by decide)

namespace Machine

variable {m : Machine} {limits : Limits} {n i : Nat}

section Increment

variable (hd : m.definition = .increment) (hw : m.input = unary n)

include hd

private theorem kind_of_increment : m.kind = .deterministic := by
  rw [kind, hd]
  rfl

include hw

/-- After as many steps as the head has passed ones it stands behind them, and the tape is stored as
it was. -/
theorem entryAfter?_scanning (hi : i ≤ n) : ∃ e, m.entryAfter? i = some e ∧
    e.configuration = ⟨"scan", Tape.ofString (unary n) '_', i⟩ := by
  induction i with
  | zero =>
    refine ⟨_, rfl, ?_⟩
    rw [startEntry, start, hd, hw]
    rfl
  | succ i ih =>
    have hlt : i < n := hi
    obtain ⟨e, he, hc⟩ := ih (Nat.le_of_lt hlt)
    have hscan : Definition.increment.Prescribes "scan" '1' ⟨"scan", '1', .right⟩ := by decide
    have ha : m.definition.Prescribes e.configuration.state e.configuration.symbol
        ⟨"scan", '1', .right⟩ := by
      rw [hd, hc, Configuration.symbol, read_unary, if_pos hlt]
      exact hscan
    have hstored : (Tape.ofString (unary n) '_').cells[((i : Int) - 0).toNat]? = some '1' := by
      simp [Tape.ofString, toList_unary, hlt]
    refine ⟨_, entryAfter?_succ_of_prescribes (kind_of_increment hd) he ha, ?_⟩
    change e.configuration.apply _ = _
    rw [hc, Configuration.apply, Tape.write_of_getElem? (Int.natCast_nonneg i) hstored]
    rfl

/-- One step more, and the block is longer by a one. -/
theorem entryAfter?_done : ∃ e, m.entryAfter? (n + 1) = some e ∧
    e.configuration = ⟨"done", Tape.ofString (unary (n + 1)) '_', n⟩ := by
  obtain ⟨e, he, hc⟩ := entryAfter?_scanning hd hw (Nat.le_refl n)
  have hdone : Definition.increment.Prescribes "scan" '_' ⟨"done", '1', .stay⟩ := by decide
  have ha : m.definition.Prescribes e.configuration.state e.configuration.symbol
      ⟨"done", '1', .stay⟩ := by
    rw [hd, hc, Configuration.symbol, read_unary, if_neg (Nat.lt_irrefl n)]
    exact hdone
  have hwrite := Tape.write_behind_ofString (unary n) '_' '1'
  rw [length_unary, push_unary] at hwrite
  refine ⟨_, entryAfter?_succ_of_prescribes (kind_of_increment hd) he ha, ?_⟩
  change e.configuration.apply _ = _
  rw [hc, Configuration.apply, hwrite, Direction.offset, Int.add_zero]

private theorem haltsAfter_increment : m.HaltsAfter (n + 1) .noTransition := by
  obtain ⟨e, he, hc⟩ := entryAfter?_done hd hw
  refine ⟨e, he, ?_⟩
  rw [step_eq, hd, hc]
  rfl

/-- With room for the configuration in which it halts, a run shows the longer block. -/
theorem run_increment_of_le (hroom : n + 2 ≤ limits.maxSteps) :
    (m.run limits).verdict = .haltedNonFinal ∧ (m.run limits).output = unary (n + 1) ∧
      (m.run limits).trace.length = n + 2 ∧
      ∃ c, (m.run limits).trace.last? = some c ∧ c.head = n := by
  have hdepth : n + 1 + 1 ≤ limits.depth := Nat.le_trans hroom (Nat.le_max_right ..)
  obtain ⟨hfirst, hv⟩ :=
    run_of_haltsAfter (kind_of_increment hd) (haltsAfter_increment hd hw) hdepth
  obtain ⟨e, he, hc⟩ := entryAfter?_done hd hw
  have hlast := hfirst.last? he
  refine ⟨hv, ?_, hfirst.length_eq, e.configuration, hlast, by rw [hc]⟩
  rw [Run.output, hlast, hc, Option.map_some, contents_unary, Option.getD_some]

/-- With less room it is cut off while the head passes the block. -/
theorem run_increment_of_lt (hpos : 1 ≤ limits.maxSteps) (hroom : limits.maxSteps ≤ n + 1) :
    (m.run limits).verdict = .timeout ∧ (m.run limits).output = unary n ∧
      (m.run limits).trace.length = limits.maxSteps := by
  obtain ⟨i, hi⟩ : ∃ i, limits.maxSteps = i + 1 := Nat.exists_eq_add_one.mpr hpos
  have hdepth : limits.depth = i + 1 := by rw [Limits.depth, hi, Nat.max_eq_right (by omega)]
  have hlate (k : Nat) (reason : Halt) (h : m.HaltsAfter k reason) : limits.depth < k + 1 := by
    have hk := (haltsAfter_increment hd hw).unique h
    omega
  obtain ⟨hfirst, hv⟩ := run_of_not_haltsAfter (kind_of_increment hd) hlate
  rw [hdepth] at hfirst
  obtain ⟨e, he, hc⟩ := entryAfter?_scanning hd hw (show i ≤ n by omega)
  refine ⟨hv, ?_, hfirst.length_eq.trans hi.symm⟩
  rw [Run.output, hfirst.last? he, hc, Option.map_some, contents_unary, Option.getD_some]

end Increment

end Machine

namespace Catalog

/-- The increment machine adds one to a unary numeral. It can be loaded with the numeral of every
number `n`. A run with room for `n + 2` configurations halts, neither accepting nor rejecting, with
the numeral of `n + 1` on the tape, exactly so many configurations in its trace and the head on
position `n`; a run with less room, but some, times out with the numeral of `n` and a trace that
fills the room. -/
theorem increment_adds_one : ∃ e, byName? "Unary increment" = some e ∧
    ∀ n : Nat, ∃ m, e.load (unary n) = .ok m ∧ ∀ limits : Limits,
      (n + 2 ≤ limits.maxSteps →
        (m.run limits).verdict = .haltedNonFinal ∧ (m.run limits).output = unary (n + 1) ∧
          (m.run limits).trace.length = n + 2 ∧
          ∃ c, (m.run limits).trace.last? = some c ∧ c.head = n) ∧
      (1 ≤ limits.maxSteps → limits.maxSteps ≤ n + 1 →
        (m.run limits).verdict = .timeout ∧ (m.run limits).output = unary n ∧
          (m.run limits).trace.length = limits.maxSteps) := by
  have he : BuiltIn.increment.entry ∈ entries := entry_mem (by simp [builtIns])
  refine ⟨_, byName?_of_mem he rfl, fun n => ?_⟩
  have hinput : ∀ s ∈ (unary n).toList, s ∈ Definition.increment.inputSymbols := by
    intro s hs
    rw [toList_unary] at hs
    rw [List.eq_of_mem_replicate hs]
    decide
  obtain ⟨m, hload, hdefinition, hword⟩ := exists_load_of_mem he hinput
  exact ⟨m, hload, fun limits => ⟨Machine.run_increment_of_le hdefinition hword,
    Machine.run_increment_of_lt hdefinition hword⟩⟩

/-- Room for four configurations is just enough for the numeral of two. -/
theorem increment_adds_one_two : ∃ e m, byName? "Unary increment" = some e ∧
    e.load (unary 2) = .ok m ∧
    ((m.run ⟨4, 1⟩).verdict = .haltedNonFinal ∧ (m.run ⟨4, 1⟩).output = unary 3) ∧
    (m.run ⟨3, 1⟩).verdict = .timeout ∧ (m.run ⟨3, 1⟩).output = unary 2 := by
  obtain ⟨e, he, hall⟩ := increment_adds_one
  obtain ⟨m, hload, hrun⟩ := hall 2
  obtain ⟨hverdict, houtput, -⟩ := (hrun ⟨4, 1⟩).1 (by decide)
  obtain ⟨hverdict', houtput', -⟩ := (hrun ⟨3, 1⟩).2 (by decide) (by decide)
  exact ⟨e, m, he, hload, ⟨hverdict, houtput⟩, hverdict', houtput'⟩

end Catalog

end TapeMachine
