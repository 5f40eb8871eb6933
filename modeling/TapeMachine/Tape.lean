import TapeMachine.Basic

/-!
# The tape

A tape is unbounded in both directions. It stores a contiguous block of cells; every cell outside
the block holds the blank. Storage grows to cover each write and never shrinks, reads store
nothing. The view of a tape is `read`, a symbol for every position: `read_write` says what a write
does to it. Two tapes are alike (`≈`) when they have the same blank and the same `span`, the part
between the outermost symbols that are not blank, however much of them is stored.
-/

namespace TapeMachine

/-- A tape, as far as it has been stored. -/
structure Tape where
  /-- The position of the first stored cell. -/
  offset : Int
  cells : Array Symbol
  /-- The symbol of every other cell. -/
  blank : Symbol
  deriving DecidableEq, Inhabited

namespace Tape

def ofString (text : String) (blank : Symbol) : Tape := ⟨0, text.toList.toArray, blank⟩

def empty (blank : Symbol) : Tape := ofString "" blank

def read (t : Tape) (position : Int) : Symbol :=
  if position < t.offset then t.blank
  else (t.cells[(position - t.offset).toNat]?).getD t.blank

/-- The tape with a symbol at a position. Storage that holds no cell yet moves to the position;
otherwise blanks fill the gap between the position and the stored cells. -/
def write (t : Tape) (position : Int) (symbol : Symbol) : Tape :=
  if t.cells.isEmpty then { t with offset := position, cells := #[symbol] }
  else if position < t.offset then
    let gap := (t.offset - position).toNat - 1
    { t with offset := position, cells := #[symbol] ++ Array.replicate gap t.blank ++ t.cells }
  else
    let index := (position - t.offset).toNat
    if h : index < t.cells.size then
      -- most writes leave the symbol that is there, and then the stored cells are shared
      if t.cells[index] = symbol then t else { t with cells := t.cells.set index symbol }
    else
      let gap := index - t.cells.size
      { t with cells := (t.cells ++ Array.replicate gap t.blank).push symbol }

/-- Storage that holds no cell yet moves to a position. -/
def anchor (t : Tape) (position : Int) : Tape :=
  if t.cells.isEmpty then { t with offset := position } else t

/-- Stores blanks in front of the stored cells, one at a time, until they begin at a position. -/
def growFront (t : Tape) (position : Int) : Tape :=
  if position < t.offset then
    growFront { t with offset := t.offset - 1, cells := #[t.blank] ++ t.cells } position
  else t
termination_by (t.offset - position).toNat

/-- Stores blanks behind the stored cells until a position is among them. -/
def growBack (t : Tape) (position : Int) : Tape :=
  let index := (position - t.offset).toNat
  if t.cells.size ≤ index then
    { t with cells := t.cells ++ Array.replicate (index + 1 - t.cells.size) t.blank }
  else t

/-- Replaces the symbol of a stored cell; there is none at a position outside the storage. -/
def overwrite? (t : Tape) (position : Int) (symbol : Symbol) : Option Tape :=
  if position < t.offset then none
  else
    let index := (position - t.offset).toNat
    if h : index < t.cells.size then some { t with cells := t.cells.set index symbol } else none

/-- A write that grows the storage step by step and then looks for the cell of the position. The
cell is always there, so that `write` can do without looking. -/
def growingWrite? (t : Tape) (position : Int) (symbol : Symbol) : Option Tape :=
  (((t.anchor position).growFront position).growBack position).overwrite? position symbol

/-- The position of the first symbol that is not blank, with the symbols from there to the last
one that is not blank; position 0 and no symbols when all are blank. -/
def span (t : Tape) : Int × List Symbol :=
  let kept := t.cells.popWhile (· == t.blank)
  if kept.isEmpty then (0, [])
  else
    let leading := (kept.takeWhile (· == t.blank)).size
    (t.offset + leading, kept.toList.drop leading)

/-- The symbols of the tape without the blanks around them. -/
def contents (t : Tape) : String := String.ofList t.span.2

/-- The positions at most `radius` away from a position, in increasing order. -/
def positionsAround (position : Int) (radius : Nat) : List Int :=
  (List.range (2 * radius + 1)).map fun i : Nat => position - radius + i

def window (t : Tape) (position : Int) (radius : Nat) : List (Int × Symbol) :=
  (positionsAround position radius).map fun p => (p, t.read p)

/-- Tapes are alike when they show the same symbols, however much of them is stored. -/
instance : HasEquiv Tape := ⟨fun s t => s.blank = t.blank ∧ s.span = t.span⟩

instance (s t : Tape) : Decidable (s ≈ t) :=
  inferInstanceAs (Decidable (s.blank = t.blank ∧ s.span = t.span))

@[simp] theorem blank_write (t : Tape) (p : Int) (s : Symbol) : (t.write p s).blank = t.blank := by
  simp only [write]
  split
  · rfl
  · split
    · rfl
    · split
      · split <;> rfl
      · rfl

private theorem read_mk (offset position : Int) (cells : Array Symbol) (blank : Symbol) :
    read ⟨offset, cells, blank⟩ position =
      if position < offset then blank else cells[(position - offset).toNat]?.getD blank := rfl

/-- Cells put in front of the stored ones, with blanks in between. -/
private theorem getD_getElem?_prepend (cells : Array Symbol) (s blank : Symbol) (g n : Nat) :
    ((#[s] ++ Array.replicate g blank ++ cells)[n]?).getD blank =
      if n = 0 then s else if n < g + 1 then blank else (cells[n - (g + 1)]?).getD blank := by
  have hsize : (#[s] ++ Array.replicate g blank).size = g + 1 := by
    simp [Nat.add_comm]
  rw [Array.getElem?_append, hsize]
  by_cases hn : n = 0
  · subst hn
    rw [if_pos (Nat.succ_pos g), if_pos rfl, Array.getElem?_append_left (by simp)]
    rfl
  · rw [if_neg hn]
    by_cases hlt : n < g + 1
    · have hr : n - 1 < g := by omega
      rw [if_pos hlt, if_pos hlt, Array.getElem?_append_right (by simp; omega)]
      simp [hr]
    · rw [if_neg hlt, if_neg hlt]

/-- Cells put behind the stored ones, with blanks in between. -/
private theorem getD_getElem?_append (cells : Array Symbol) (s blank : Symbol) (g n : Nat) :
    (((cells ++ Array.replicate g blank).push s)[n]?).getD blank =
      if n = cells.size + g then s else (cells[n]?).getD blank := by
  rw [Array.getElem?_push, Array.size_append, Array.size_replicate]
  by_cases hn : n = cells.size + g
  · rw [if_pos hn, if_pos hn]
    rfl
  · rw [if_neg hn, if_neg hn, Array.getElem?_append]
    by_cases hlt : n < cells.size
    · rw [if_pos hlt]
    · rw [if_neg hlt, Array.getElem?_eq_none (Nat.le_of_not_lt hlt), Array.getElem?_replicate]
      split <;> rfl

/-- After a write the position written shows the new symbol and every other one what it showed
before. -/
theorem read_write (t : Tape) (p q : Int) (s : Symbol) :
    (t.write p s).read q = if q = p then s else t.read q := by
  obtain ⟨offset, cells, blank⟩ := t
  simp only [write]
  split
  · rename_i h
    have : cells = #[] := by simpa using h
    subst this
    simp only [read_mk, Array.getElem?_empty, Option.getD_none, ite_self]
    by_cases hq : q = p
    · simp [hq]
    · by_cases hlt : q < p
      · simp [hq, hlt]
      · have : (q - p).toNat ≠ 0 := by omega
        simp [hq, hlt, this]
  · split
    · rename_i h
      simp only [read_mk]
      by_cases hp : q < p
      · have hq : q ≠ p := by omega
        have ho : q < offset := by omega
        simp [hp, hq, ho]
      · obtain ⟨n, rfl⟩ : ∃ n : Nat, q = p + n := ⟨(q - p).toNat, by omega⟩
        obtain ⟨g, rfl⟩ : ∃ g : Nat, offset = p + (g + 1 : Nat) :=
          ⟨(offset - p).toNat - 1, by omega⟩
        have hn : (p + (n : Int) - p).toNat = n := by omega
        have hg : (p + ((g + 1 : Nat) : Int) - p).toNat - 1 = g := by omega
        have hd : (p + (n : Int) - (p + ((g + 1 : Nat) : Int))).toNat = n - (g + 1) := by omega
        have h0 : (p + (n : Int) = p) ↔ n = 0 := by omega
        have hlt : (p + (n : Int) < p + ((g + 1 : Nat) : Int)) ↔ n < g + 1 := by omega
        rw [hn, hg, hd, if_neg hp, getD_getElem?_prepend]
        simp only [h0, hlt]
    · rename_i hp
      have hq : q = p ↔ ¬ q < offset ∧ (q - offset).toNat = (p - offset).toNat := by omega
      split
      · rename_i hi
        split
        · rename_i hs
          by_cases h : q = p
          · subst h
            rw [if_pos rfl, read_mk, if_neg hp, Array.getElem?_eq_getElem hi, hs]
            rfl
          · rw [if_neg h]
        · simp only [read_mk, Array.getElem?_set, hq]
          by_cases ho : q < offset
          · simp [ho]
          · by_cases hj : (p - offset).toNat = (q - offset).toNat
            · simp [ho, hj]
            · simp [ho, hj, Ne.symm hj]
      · rename_i hi
        have hg : cells.size + ((p - offset).toNat - cells.size) = (p - offset).toNat := by omega
        simp only [read_mk, getD_getElem?_append, hg, hq]
        by_cases ho : q < offset <;> simp [ho]

end Tape

end TapeMachine
