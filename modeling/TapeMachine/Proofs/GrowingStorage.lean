import TapeMachine.Tape

/-!
# Storage that grows

A write step by step: storage without cells moves to the position, blanks are stored in front and
behind until the position is among the stored cells, and then one cell is overwritten. That cell is
always there, whatever was stored before, and the tape is the one that `write` gives. So a tape is a
total function from positions to symbols, which every write changes at one position.
-/

namespace TapeMachine.Tape

private theorem anchor_of_isEmpty {t : Tape} (h : t.cells.isEmpty = true) (p : Int) :
    t.anchor p = { t with offset := p } := by
  rw [anchor, if_pos h]

private theorem anchor_of_not_isEmpty {t : Tape} (h : ¬ t.cells.isEmpty = true) (p : Int) :
    t.anchor p = t := by
  rw [anchor, if_neg h]

theorem growFront_of_le {t : Tape} {p : Int} (h : t.offset ≤ p) : t.growFront p = t := by
  rw [growFront, if_neg (Int.not_lt.mpr h)]

/-- Storing blanks in front one at a time stores one for each position in between. -/
theorem growFront_of_eq_add {t : Tape} {p : Int} {gap : Nat} (h : t.offset = p + gap) :
    t.growFront p = { t with offset := p, cells := Array.replicate gap t.blank ++ t.cells } := by
  obtain ⟨offset, cells, blank⟩ := t
  obtain rfl : offset = p + gap := h
  induction gap generalizing cells with
  | zero =>
    rw [growFront_of_le (by simp)]
    simp
  | succ gap ih =>
    have hlt : p < p + ((gap + 1 : Nat) : Int) := by omega
    have hoffset : p + ((gap + 1 : Nat) : Int) - 1 = p + gap := by omega
    rw [growFront, if_pos hlt]
    simp only [hoffset]
    rw [ih, ← Array.append_assoc, Array.replicate_succ, Array.push_eq_append]

private theorem growBack_of_lt {t : Tape} {p : Int} (h : (p - t.offset).toNat < t.cells.size) :
    t.growBack p = t :=
  if_neg (Nat.not_le.mpr h)

private theorem growBack_of_eq_add {t : Tape} {p : Int} {gap : Nat}
    (h : (p - t.offset).toNat = t.cells.size + gap) :
    t.growBack p = { t with cells := t.cells ++ Array.replicate (gap + 1) t.blank } := by
  have hle : t.cells.size ≤ (p - t.offset).toNat := by omega
  have hgap : (p - t.offset).toNat + 1 - t.cells.size = gap + 1 := by omega
  simp only [growBack, if_pos hle, hgap]

private theorem overwrite?_of_lt {offset p : Int} {cells : Array Symbol} (ho : offset ≤ p)
    (h : (p - offset).toNat < cells.size) (blank s : Symbol) :
    overwrite? ⟨offset, cells, blank⟩ p s =
      some ⟨offset, cells.set (p - offset).toNat s, blank⟩ := by
  simp only [overwrite?, if_neg (Int.not_lt.mpr ho), dif_pos h]

private theorem set_in_front (cells : Array Symbol) (s blank : Symbol) (gap : Nat)
    (h : 0 < (Array.replicate (gap + 1) blank ++ cells).size) :
    (Array.replicate (gap + 1) blank ++ cells).set 0 s h =
      #[s] ++ Array.replicate gap blank ++ cells := by
  apply Array.toList_inj.mp
  simp [List.replicate_succ]

private theorem set_behind (cells : Array Symbol) (s blank : Symbol) (gap : Nat)
    (h : cells.size + gap < (cells ++ Array.replicate (gap + 1) blank).size) :
    (cells ++ Array.replicate (gap + 1) blank).set (cells.size + gap) s h =
      (cells ++ Array.replicate gap blank).push s := by
  apply Array.toList_inj.mp
  simp [List.replicate_succ', ← List.append_assoc]

section GrowingWrite

variable {t : Tape} {p : Int}

private theorem growingWrite?_of_isEmpty (hempty : t.cells.isEmpty = true) (s : Symbol) :
    t.growingWrite? p s = some { t with offset := p, cells := #[s] } := by
  have hcells : t.cells = #[] := by simpa using hempty
  have hindex : (p - p).toNat = t.cells.size + 0 := by simp [hcells]
  rw [growingWrite?, anchor_of_isEmpty hempty, growFront_of_le (Int.le_refl p),
    growBack_of_eq_add hindex, overwrite?_of_lt (Int.le_refl p) (by simp [hcells])]
  simp [hcells]

private theorem growingWrite?_in_front (hempty : ¬ t.cells.isEmpty = true) {gap : Nat}
    (hgap : t.offset = p + (gap + 1 : Nat)) (s : Symbol) :
    t.growingWrite? p s = some
      { t with offset := p, cells := #[s] ++ Array.replicate gap t.blank ++ t.cells } := by
  have hfirst : (p - p).toNat < (Array.replicate (gap + 1) t.blank ++ t.cells).size := by
    rw [Array.size_append, Array.size_replicate]
    omega
  rw [growingWrite?, anchor_of_not_isEmpty hempty, growFront_of_eq_add hgap,
    growBack_of_lt hfirst, overwrite?_of_lt (Int.le_refl p) hfirst]
  simp only [Int.sub_self, Int.toNat_zero, set_in_front]

private theorem growingWrite?_of_stored (hempty : ¬ t.cells.isEmpty = true) (hoffset : t.offset ≤ p)
    (hstored : (p - t.offset).toNat < t.cells.size) (s : Symbol) :
    t.growingWrite? p s = some { t with cells := t.cells.set (p - t.offset).toNat s } := by
  rw [growingWrite?, anchor_of_not_isEmpty hempty, growFront_of_le hoffset,
    growBack_of_lt hstored, overwrite?_of_lt hoffset hstored]

private theorem growingWrite?_behind (hempty : ¬ t.cells.isEmpty = true) (hoffset : t.offset ≤ p)
    {gap : Nat} (hgap : (p - t.offset).toNat = t.cells.size + gap) (s : Symbol) :
    t.growingWrite? p s = some
      { t with cells := (t.cells ++ Array.replicate gap t.blank).push s } := by
  have hlast : (p - t.offset).toNat < (t.cells ++ Array.replicate (gap + 1) t.blank).size := by
    rw [Array.size_append, Array.size_replicate]
    omega
  rw [growingWrite?, anchor_of_not_isEmpty hempty, growFront_of_le hoffset,
    growBack_of_eq_add hgap, overwrite?_of_lt hoffset hlast]
  simp only [hgap, set_behind]

/-- After its storage has grown a write finds the cell of its position, and what it leaves is the
tape of `write`. -/
theorem growingWrite?_eq (t : Tape) (p : Int) (s : Symbol) :
    t.growingWrite? p s = some (t.write p s) := by
  rw [write]
  by_cases hempty : t.cells.isEmpty = true
  · rw [if_pos hempty, growingWrite?_of_isEmpty hempty]
  rw [if_neg hempty]
  by_cases hfront : p < t.offset
  · have hgap : t.offset = p + ((t.offset - p).toNat - 1 + 1 : Nat) := by omega
    rw [if_pos hfront, growingWrite?_in_front hempty hgap]
  have hoffset : t.offset ≤ p := Int.not_lt.mp hfront
  rw [if_neg hfront]
  by_cases hstored : (p - t.offset).toNat < t.cells.size
  · rw [growingWrite?_of_stored hempty hoffset hstored]
    simp only [dif_pos hstored]
    split
    · -- overwriting a symbol with itself leaves the cells as they are
      rename_i hsame
      simp [← hsame]
    · rfl
  · have hgap : (p - t.offset).toNat = t.cells.size + ((p - t.offset).toNat - t.cells.size) := by
      omega
    rw [growingWrite?_behind hempty hoffset hgap]
    simp only [dif_neg hstored]

end GrowingWrite

/-- The tape after writes, made one after the other. -/
def writeAll (t : Tape) (writes : List (Int × Symbol)) : Tape :=
  writes.foldl (fun t w => t.write w.1 w.2) t

@[simp] theorem writeAll_nil (t : Tape) : t.writeAll [] = t := rfl

@[simp] theorem writeAll_cons (t : Tape) (w : Int × Symbol) (rest : List (Int × Symbol)) :
    t.writeAll (w :: rest) = (t.write w.1 w.2).writeAll rest := rfl

private theorem writeAll_append (t : Tape) (before after : List (Int × Symbol)) :
    t.writeAll (before ++ after) = (t.writeAll before).writeAll after :=
  List.foldl_append

/-- No write of a sequence misses the storage that the writes before it have left. -/
theorem foldlM_growingWrite? (t : Tape) (writes : List (Int × Symbol)) :
    writes.foldlM (fun t w => t.growingWrite? w.1 w.2) t = some (t.writeAll writes) := by
  induction writes generalizing t with
  | nil => rfl
  | cons w rest ih =>
    rw [List.foldlM_cons, growingWrite?_eq]
    exact ih (t.write w.1 w.2)

/-- Writes at other positions do not change what a position shows. -/
theorem read_writeAll_of_forall_ne (t : Tape) {writes : List (Int × Symbol)} {p : Int}
    (h : ∀ w ∈ writes, w.1 ≠ p) : (t.writeAll writes).read p = t.read p := by
  induction writes generalizing t with
  | nil => rfl
  | cons w rest ih =>
    obtain ⟨hw, hrest⟩ := List.forall_mem_cons.mp h
    rw [writeAll_cons, ih _ hrest, read_write, if_neg hw.symm]

/-- A position shows what the last write there left. -/
theorem read_writeAll_append_cons (t : Tape) (before : List (Int × Symbol)) (p : Int) (s : Symbol)
    {after : List (Int × Symbol)} (h : ∀ w ∈ after, w.1 ≠ p) :
    (t.writeAll (before ++ (p, s) :: after)).read p = s := by
  rw [writeAll_append, writeAll_cons, read_writeAll_of_forall_ne _ h, read_write, if_pos rfl]

private theorem pairwise_positionsAround (p : Int) (radius : Nat) :
    (positionsAround p radius).Pairwise (· < ·) := by
  refine List.pairwise_map.mpr (List.pairwise_lt_range.imp ?_)
  intro i j hij
  omega

private theorem mem_positionsAround {p q : Int} {radius : Nat} :
    q ∈ positionsAround p radius ↔ p - radius ≤ q ∧ q ≤ p + radius := by
  simp only [positionsAround, List.mem_map, List.mem_range]
  constructor
  · rintro ⟨i, hi, rfl⟩
    omega
  · rintro ⟨hle, hge⟩
    exact ⟨(q - (p - radius)).toNat, by omega, by omega⟩

/-- Whatever a tape has stored and wherever it is written, no write misses the storage, and then
every position shows the symbol last written there, or what it showed at first; a window lists the
positions up to its radius in increasing order, each with what it shows. -/
theorem reads_after_writes (start : Tape) (writes : List (Int × Symbol)) :
    ∃ t, writes.foldlM (fun t w => t.growingWrite? w.1 w.2) start = some t ∧
      start.writeAll writes = t ∧
      (∀ before p s after, writes = before ++ (p, s) :: after → (∀ w ∈ after, w.1 ≠ p) →
        t.read p = s) ∧
      (∀ p, (∀ w ∈ writes, w.1 ≠ p) → t.read p = start.read p) ∧
      ∀ (head : Int) (radius : Nat), ∃ positions : List Int,
        positions.Pairwise (· < ·) ∧
        (∀ p, p ∈ positions ↔ head - radius ≤ p ∧ p ≤ head + radius) ∧
        t.window head radius = positions.map fun p => (p, t.read p) := by
  refine ⟨start.writeAll writes, start.foldlM_growingWrite? writes, rfl, ?_, ?_, ?_⟩
  · rintro before p s after rfl h
    exact start.read_writeAll_append_cons before p s h
  · intro p h
    exact start.read_writeAll_of_forall_ne h
  · intro head radius
    exact ⟨positionsAround head radius, pairwise_positionsAround head radius,
      fun _ => mem_positionsAround, rfl⟩

end TapeMachine.Tape
