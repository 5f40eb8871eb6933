import TapeMachine.Proofs.GrowingStorage
import TapeMachine.Proofs.WordTapes

/-!
# Writes and moves in words

A write in words, when its tape can be stored, leaves the tape that a write on unbounded positions
leaves. What this tape shows at the position is the symbol, and elsewhere what was shown before,
also when the positions form a circle: the stored cells do not reach around it.
-/

namespace TapeMachine

namespace Tape

variable {o : Overflow} {t u : Tape} {p q : Int} {s : Symbol}

private theorem read_of_outside (h : p < t.offset ∨ t.offset + t.cells.size ≤ p) :
    t.read p = t.blank := by
  rw [read]
  split
  · rfl
  · rw [Array.getElem?_eq_none (by omega), Option.getD_none]

theorem write_of_isEmpty (h : t.cells.isEmpty = true) (p : Int) (s : Symbol) :
    t.write p s = { t with offset := p, cells := #[s] } := by
  rw [write, if_pos h]

theorem offset_write (h : ¬ t.cells.isEmpty = true) (p : Int) (s : Symbol) :
    (t.write p s).offset = min t.offset p := by
  rw [write, if_neg h]
  by_cases hfront : p < t.offset
  · rw [if_pos hfront, Int.min_eq_right (Int.le_of_lt hfront)]
  · rw [if_neg hfront, Int.min_eq_left (Int.not_lt.mp hfront)]
    dsimp only
    split_ifs <;> rfl

/-- What was stored and the position that is written have all cells between them stored. -/
theorem size_write (h : ¬ t.cells.isEmpty = true) (p : Int) (s : Symbol) :
    ((t.write p s).cells.size : Int) = max (t.offset + t.cells.size) (p + 1) - min t.offset p := by
  have hpos : 0 < t.cells.size := Array.size_pos_iff.mpr (by simpa using h)
  rw [write, if_neg h]
  by_cases hfront : p < t.offset
  · simp only [if_pos hfront, Array.size_append, Array.size_replicate, List.size_toArray,
      List.length_singleton]
    omega
  · simp only [if_neg hfront]
    split_ifs with hstored hsame
    · omega
    · simp only [Array.size_set]
      omega
    · simp only [Array.size_push, Array.size_append, Array.size_replicate]
      omega

/-- A write keeps the cells that are stored. -/
theorem within_write (t : Tape) (p : Int) (s : Symbol) : t.cells.size = 0 ∨
    (t.write p s).offset ≤ t.offset ∧
      t.offset + t.cells.size ≤ (t.write p s).offset + (t.write p s).cells.size := by
  by_cases h : t.cells.isEmpty = true
  · exact .inl (Array.isEmpty_iff_size_eq_zero.mp h)
  · rw [offset_write h, size_write h]
    omega

private theorem offset_anchor (t : Tape) (p : Int) :
    (t.anchor p).offset = if t.cells.isEmpty then p else t.offset := by
  rw [anchor]
  split_ifs <;> rfl

private theorem offset_growFront (t : Tape) (p : Int) :
    (t.growFront p).offset = min t.offset p := by
  rcases Int.le_total t.offset p with h | h
  · rw [growFront_of_le h, Int.min_eq_left h]
  · have hgap : t.offset = p + (t.offset - p).toNat := by omega
    rw [growFront_of_eq_add hgap, Int.min_eq_right h]

/-- The storage that a write has grown to the front begins where the written one does. -/
theorem offset_growFront_anchor (t : Tape) (p : Int) (s : Symbol) :
    ((t.anchor p).growFront p).offset = (t.write p s).offset := by
  rw [offset_growFront, offset_anchor]
  by_cases h : t.cells.isEmpty = true
  · rw [if_pos h, write_of_isEmpty h, Int.min_self]
  · rw [if_neg h, offset_write h]

private theorem growFrontWord?_eq_some (h : t.growFrontWord? p = some u) : u = t.growFront p := by
  induction t using growFrontWord?.induct p with
  | case1 t hlt hword ih =>
    rw [growFrontWord?, if_pos hlt, if_pos hword] at h
    rw [growFront, if_pos hlt]
    exact ih h
  | case2 t hlt hword =>
    rw [growFrontWord?, if_pos hlt, if_neg hword] at h
    cases h
  | case3 t hlt =>
    rw [growFrontWord?, if_neg hlt] at h
    rw [growFront, if_neg hlt]
    exact (Option.some.inj h).symm

private theorem growFrontWord?_eq (hp : IsWord p) (ht : IsWord t.offset) :
    t.growFrontWord? p = some (t.growFront p) := by
  induction t using growFrontWord?.induct p with
  | case1 t hlt hword ih =>
    rw [growFrontWord?, if_pos hlt, if_pos hword, growFront, if_pos hlt]
    exact ih hword
  | case2 t hlt hword =>
    exact absurd (hp.between ht (Int.le_sub_one_of_lt hlt) (by omega)) hword
  | case3 t hlt => rw [growFrontWord?, if_neg hlt, growFront, if_neg hlt]

/-- A write computes in words unless its position is too far behind the first cell. -/
theorem writeWord?_eq_ite (hp : IsWord p) (ht : IsWord t.offset) (s : Symbol) :
    t.writeWord? p s =
      if IsWord (p - (t.write p s).offset) ∧ IsWord (p - (t.write p s).offset + 1) then
        some (t.write p s)
      else none := by
  have hanchor : IsWord (t.anchor p).offset := by
    rw [offset_anchor]
    split_ifs
    · exact hp
    · exact ht
  rw [writeWord?, growFrontWord?_eq hp hanchor, Option.bind_some, offset_growFront_anchor t p s,
    ← growingWrite?, growingWrite?_eq]

/-- The position that is written is stored. -/
theorem offset_write_le_lt (t : Tape) (p : Int) (s : Symbol) :
    (t.write p s).offset ≤ p ∧ p < (t.write p s).offset + (t.write p s).cells.size := by
  by_cases h : t.cells.isEmpty = true
  · simp [write_of_isEmpty h]
  · rw [offset_write h, size_write h]
    omega

/-- Words are left only by a write whose cells cannot be counted. -/
theorem storeWord?_eq_none_iff (hp : IsWord p) (ht : IsWord t.offset) :
    t.storeWord? p s = none ↔ ¬ IsWord (t.write p s).cells.size := by
  rw [storeWord?, writeWord?_eq_ite hp ht]
  split
  · simp
  · rename_i hwords
    refine iff_of_true rfl fun hsize => hwords ?_
    have := t.offset_write_le_lt p s
    exact ⟨isWord_zero.between hsize (by omega) (by omega),
      isWord_zero.between hsize (by omega) (by omega)⟩

/-- The cells of a tape that are stored within a block that can be counted show the same, whichever
position near the block stands for theirs. -/
theorem read_wrap_of_within {first : Int} {size : Nat} (hsize : IsWord size)
    (h : t.cells.size = 0 ∨ first ≤ t.offset ∧ t.offset + t.cells.size ≤ first + size) (q : Int) :
    t.read (first + wrap (q - first)) = t.read (t.offset + wrap (q - t.offset)) := by
  rw [isWord_iff] at hsize
  have hq := wrap_sub_self_emod (q - first)
  have hq' := wrap_sub_self_emod (q - t.offset)
  have hword := isWord_iff.mp (isWord_wrap (q - first))
  have hword' := isWord_iff.mp (isWord_wrap (q - t.offset))
  by_cases heq : first + wrap (q - first) = t.offset + wrap (q - t.offset)
  · rw [heq]
  · -- numbers that stand for one position are a multiple of the number of words apart
    rw [read_of_outside (by omega), read_of_outside (by omega)]

/-- A tape that a write in words leaves is the one that a write leaves; its cells can be counted,
and so can those in front of the position. -/
theorem storeWord?_eq_some (h : t.storeWord? p s = some u) :
    u = t.write p s ∧ IsWord u.cells.size ∧ IsWord (p - u.offset) := by
  obtain ⟨h, hsize⟩ := Option.filter_eq_some_iff.mp h
  obtain ⟨v, hv, h⟩ := Option.bind_eq_some_iff.mp h
  obtain rfl := growFrontWord?_eq_some hv
  split at h
  · rename_i hwords
    have hu : some u = some (t.write p s) := by
      rw [← growingWrite?_eq, growingWrite?, h]
    obtain rfl := Option.some.inj hu
    rw [offset_growFront_anchor t p s] at hwords
    exact ⟨rfl, of_decide_eq_true hsize, hwords.1⟩
  · cases h

theorem storeWord?_eq (hp : IsWord p) (ht : IsWord t.offset)
    (hsize : IsWord (t.write p s).cells.size) : t.storeWord? p s = some (t.write p s) := by
  cases h : t.storeWord? p s with
  | none => exact absurd hsize ((storeWord?_eq_none_iff hp ht).mp h)
  | some u => rw [(storeWord?_eq_some h).1]

/-- The position that is written shows the symbol, and every other one what it showed before. -/
theorem shows_storeWord? (h : t.storeWord? p s = some u) (q : Int) :
    u.shows o q = if o.Same q p then s else t.shows o q := by
  obtain ⟨hwrite, hsize, hindex⟩ := storeWord?_eq_some h
  cases o with
  | stops =>
    rw [hwrite]
    exact read_write t p q s
  | wraps =>
    have hq := wrap_sub_self_emod (q - u.offset)
    have hq' := isWord_iff.mp (isWord_wrap (q - u.offset))
    have hsame : u.offset + wrap (q - u.offset) = p ↔ Overflow.wraps.Same q p := by
      rw [Overflow.Same, wrap_eq_wrap_iff]
      rw [isWord_iff] at hindex
      omega
    have hread := read_write t p (u.offset + wrap (q - u.offset)) s
    rw [← hwrite, if_congr hsame rfl rfl] at hread
    rw [shows, readWrapped_eq, hread, shows, readWrapped_eq, read_wrap_of_within hsize ?_ q]
    rw [hwrite]
    exact t.within_write p s

end Tape

namespace Configuration

variable {o : Overflow} {c d : Configuration} {a : Action}

theorem applyBy?_eq_some (h : c.applyBy? o a = some d) : d.state = a.nextState ∧
    c.tape.storeWord? c.head a.write = some d.tape ∧
    o.word? (c.head + a.direction.offset) = some d.head := by
  obtain ⟨tape, htape, h⟩ := Option.bind_eq_some_iff.mp h
  obtain ⟨head, hhead, rfl⟩ := Option.map_eq_some_iff.mp h
  exact ⟨rfl, htape, hhead⟩

/-- Where overflow stops computations, an action that is applied in words is applied. -/
theorem eq_apply_of_applyBy? (h : c.applyBy? .stops a = some d) : d = c.apply a := by
  obtain ⟨hstate, htape, hhead⟩ := applyBy?_eq_some h
  obtain ⟨state, tape, head⟩ := d
  obtain ⟨-, hhead⟩ := Overflow.word?_eq_some hhead
  obtain ⟨rfl, -⟩ := Tape.storeWord?_eq_some htape
  obtain rfl : head = c.head + a.direction.offset := hhead
  obtain rfl : state = a.nextState := hstate
  rfl

/-- An action has no result when its cells cannot be counted, or where overflow stops computations
and the head leaves the words. -/
theorem applyBy?_eq_none_iff (hhead : IsWord c.head) (hoffset : IsWord c.tape.offset) :
    c.applyBy? o a = none ↔ ¬ IsWord (c.tape.write c.head a.write).cells.size ∨
      o = .stops ∧ ¬ IsWord (c.head + a.direction.offset) := by
  rw [← Tape.storeWord?_eq_none_iff hhead hoffset, ← Overflow.word?_eq_none_iff, applyBy?]
  cases c.tape.storeWord? c.head a.write with
  | none => simp
  | some tape => simp

end Configuration

end TapeMachine
