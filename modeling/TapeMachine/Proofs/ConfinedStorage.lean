import TapeMachine.Proofs.DeterministicRun
import TapeMachine.Proofs.WordWrites

/-!
# Storage grows with the head

A transition moves the head by one cell at most, and the head is always on a stored cell or next to
one, so the write of a transition stores one cell more at most. After `k` transitions the head is at
most `k` cells away from where it was at first, and there are at most `k` cells more than the input
had. All positions that are computed on the way therefore fit into words, as long as the input and
the computation are shorter than `2 ^ 62`.
-/

namespace TapeMachine

namespace Tape

variable {t : Tape} {p : Int}

/-- A write on a stored cell or next to one stores one cell more at most. -/
theorem size_write_le (hlow : t.offset - 1 ≤ p) (hhigh : p ≤ t.offset + t.cells.size) (s : Symbol) :
    (t.write p s).cells.size ≤ t.cells.size + 1 := by
  by_cases h : t.cells.isEmpty = true
  · rw [write_of_isEmpty h]
    exact Nat.le_add_left ..
  · have hsize := size_write h p s
    omega

private theorem readWord?_eq (h : IsWord (p - t.offset)) : t.readWord? p = some (t.read p) :=
  if_pos h

/-- A write computes in words where its position and that of the stored cells fit, and the former is
not too far behind the latter. -/
theorem writeWord?_eq (hp : IsWord p) (ht : IsWord t.offset) (hindex : p - t.offset + 1 < 2 ^ 63)
    (s : Symbol) : t.writeWord? p s = some (t.write p s) := by
  have hwords : IsWord (p - (t.write p s).offset) ∧ IsWord (p - (t.write p s).offset + 1) := by
    by_cases h : t.cells.isEmpty = true
    · simp only [write_of_isEmpty h, isWord_iff]
      omega
    · simp only [offset_write h, isWord_iff]
      omega
  rw [writeWord?_eq_ite hp ht, if_pos hwords]

/-- The span is computed in words where the position behind the stored cells fits. -/
theorem spanWord?_eq (ht : IsWord t.offset) (hsize : IsWord t.cells.size)
    (hend : IsWord (t.offset + t.cells.size)) : t.spanWord? = some t.span := by
  have hfirst : IsWord t.span.1 := by
    by_cases h : t.span.2 = []
    · rw [t.trimmed_span.empty h]
      exact isWord_zero
    · have hwithin := t.span_within h
      exact ht.between hend hwithin.1 (by omega)
  have hspan := spanBy?_eq (o := .stops) hsize
  rwa [Overflow.word?_of_isWord hfirst] at hspan

end Tape

namespace Configuration

variable {c : Configuration} {length steps : Nat}

/-- Storage and head are where they can be after a number of transitions on an input of a given
length. -/
structure Confined (length steps : Nat) (c : Configuration) : Prop where
  neg_steps_le_head : -steps ≤ c.head
  head_le_steps : c.head ≤ steps
  /-- The head is on a stored cell or next to one. -/
  offset_sub_one_le_head : c.tape.offset - 1 ≤ c.head
  head_le_offset_add_size : c.head ≤ c.tape.offset + c.tape.cells.size
  size_le : c.tape.cells.size ≤ length + steps
  neg_steps_le_offset : -steps ≤ c.tape.offset
  offset_nonpos : c.tape.offset ≤ 0

private theorem confined_initial (state : State) (input : String) (blank : Symbol) :
    (initial state input blank).Confined input.length 0 where
  neg_steps_le_head := Int.le_refl 0
  head_le_steps := Int.le_refl 0
  offset_sub_one_le_head := Int.sub_le_self 0 Int.one_nonneg
  head_le_offset_add_size := by simp [initial, Tape.ofString]
  size_le := by simp [initial, Tape.ofString, String.length_toList]
  neg_steps_le_offset := Int.le_refl 0
  offset_nonpos := Int.le_refl 0

namespace Confined

private theorem size_write_le (h : c.Confined length steps) (s : Symbol) :
    (c.tape.write c.head s).cells.size ≤ c.tape.cells.size + 1 :=
  Tape.size_write_le h.offset_sub_one_le_head h.head_le_offset_add_size s

theorem apply (h : c.Confined length steps) (a : Action) :
    (c.apply a).Confined length (steps + 1) := by
  obtain ⟨hneg, hpos, hlow, hhigh, hsize, hoffset, hzero⟩ := h
  have hmove := a.direction.natAbs_offset_le
  -- the cell that is written is stored then, and the head moves away from it by one at most
  by_cases hempty : c.tape.cells.isEmpty = true
  · have hnone : c.tape.cells.size = 0 := Array.isEmpty_iff_size_eq_zero.mp hempty
    constructor <;> simp only [Configuration.apply, Tape.write_of_isEmpty hempty,
      List.size_toArray, List.length_singleton] <;> omega
  · have hoff := Tape.offset_write hempty c.head a.write
    have hsz := Tape.size_write hempty c.head a.write
    constructor <;> simp only [Configuration.apply, hoff] <;> omega

section Words

-- fewer than `2 ^ 62` symbols and transitions leave room for every position in a word

variable (h : c.Confined length steps) (hsteps : steps < 2 ^ 62)

include h hsteps

private theorem isWord_head : IsWord c.head := by
  obtain ⟨hneg, hpos, -, -, -, -, -⟩ := h
  exact isWord_iff.mpr ⟨by omega, by omega⟩

private theorem isWord_offset : IsWord c.tape.offset := by
  obtain ⟨-, -, -, -, -, hoffset, hzero⟩ := h
  exact isWord_iff.mpr ⟨by omega, by omega⟩

/-- Every position in the reach of the computation can be read in words. -/
theorem readWord?_eq {p : Int} (hlow : -2 ^ 62 ≤ p) (hhigh : p ≤ 2 ^ 62) :
    c.tape.readWord? p = some (c.tape.read p) := by
  obtain ⟨-, -, -, -, -, hoffset, hzero⟩ := h
  exact Tape.readWord?_eq (isWord_iff.mpr ⟨by omega, by omega⟩)

private theorem spanWord?_eq (hlength : length < 2 ^ 62) : c.tape.spanWord? = some c.tape.span := by
  have hword := h.isWord_offset hsteps
  obtain ⟨-, -, -, -, hsize, hoffset, hzero⟩ := h
  exact Tape.spanWord?_eq hword (isWord_iff.mpr ⟨by omega, by omega⟩)
    (isWord_iff.mpr ⟨by omega, by omega⟩)

private theorem applyWord?_eq (hlength : length < 2 ^ 62) (a : Action) :
    c.applyWord? a = some (c.apply a) := by
  have hhead := h.isWord_head hsteps
  have hword := h.isWord_offset hsteps
  have hmove := a.direction.natAbs_offset_le
  obtain ⟨hneg, hpos, -, hhigh, hsize, -, -⟩ := h
  have hnext : IsWord (c.head + a.direction.offset) := isWord_iff.mpr ⟨by omega, by omega⟩
  rw [applyWord?, Tape.writeWord?_eq hhead hword (by omega), Option.bind_some, if_pos hnext]
  rfl

/-- Whatever is done about overflow, the scanned symbol can be read. -/
theorem readBy?_head (hlength : length < 2 ^ 62) (o : Overflow) :
    c.tape.readBy? o c.head = some c.symbol := by
  obtain ⟨-, -, hlow, hhigh, hsize, -, -⟩ := h
  exact Tape.readBy?_of_isWord (isWord_iff.mpr ⟨by omega, by omega⟩)

/-- Whatever is done about overflow, an action can be applied. -/
theorem applyBy?_eq (hlength : length < 2 ^ 62) (o : Overflow) (a : Action) :
    c.applyBy? o a = some (c.apply a) := by
  have hsize := (h.apply a).size_le
  have hmove := a.direction.natAbs_offset_le
  have hword : IsWord (c.tape.write c.head a.write).cells.size :=
    isWord_iff.mpr ⟨by omega, by change ((c.apply a).tape.cells.size : Int) < _; omega⟩
  have hhead : IsWord (c.head + a.direction.offset) := by
    obtain ⟨hneg, hpos, -, -, -, -, -⟩ := h
    exact isWord_iff.mpr ⟨by omega, by omega⟩
  rw [applyBy?, Tape.storeWord?_eq (h.isWord_head hsteps) (h.isWord_offset hsteps) hword,
    Option.bind_some, Overflow.word?_of_isWord hhead]
  rfl

end Words

end Confined

end Configuration

namespace Machine

variable {m : Machine} {c : Configuration} {n : Nat}

theorem Reaches.confined (h : m.Reaches n c) : c.Confined m.input.length n := by
  induction h with
  | start => exact Configuration.confined_initial ..
  | next _ hs ih => exact configuration_eq_apply hs ▸ ih.apply _

/-- Head and storage move by one cell at most with each transition: whatever a computation has
chosen, and so in entry `k` of every trace, both are confined by the length of the input and the
number of transitions, and the next write stores one more cell at most. Fewer than `2 ^ 62` symbols
and transitions therefore leave no position outside the words, neither when an action is applied,
nor when a position that near is read, nor in the span. -/
theorem storage_confined (m : Machine) :
    (∀ k c, m.Reaches k c → c.Confined m.input.length k ∧
      ∀ s, (c.tape.write c.head s).cells.size ≤ c.tape.cells.size + 1) ∧
    (∀ (limits : Limits) k (e : TraceEntry), (m.run limits).trace.entries[k]? = some e →
      m.Reaches k e.configuration) ∧
    ∀ k c, m.Reaches k c → k < 2 ^ 62 → m.input.length < 2 ^ 62 →
      (∀ a, c.applyWord? a = some (c.apply a)) ∧
      (∀ p : Int, -2 ^ 62 ≤ p → p ≤ 2 ^ 62 → c.tape.readWord? p = some (c.tape.read p)) ∧
      c.tape.spanWord? = some c.tape.span := by
  refine ⟨fun k c h => ⟨h.confined, h.confined.size_write_le⟩, fun limits k e he => ?_,
    fun k c h hsteps hlength => ⟨?_, ?_, ?_⟩⟩
  · obtain ⟨_, hrecords, -⟩ := m.exists_records_run limits
    exact hrecords.reaches_of_getElem? he
  · exact h.confined.applyWord?_eq hsteps hlength
  · exact fun p => h.confined.readWord?_eq hsteps
  · exact h.confined.spanWord?_eq hsteps hlength

end Machine

end TapeMachine
