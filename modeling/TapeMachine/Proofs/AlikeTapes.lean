import Mathlib.Data.List.DropRight
import TapeMachine.Tape

/-!
# Alike tapes

The span of a tape is a normal form: it neither starts nor ends with the blank, every cell outside
it holds the blank, and no other block shows the same tape. Tapes are therefore alike exactly when
they have the same blank and show the same symbol at every position, however their cells are
stored, and a write keeps alike tapes alike. Positions are unbounded here.
-/

namespace TapeMachine.Tape

/-- The symbol that a block of symbols from a position on shows at a position. -/
def shown (blank : Symbol) (block : Int × List Symbol) (position : Int) : Symbol :=
  if position < block.1 then blank else (block.2[(position - block.1).toNat]?).getD blank

theorem shown_add {blank : Symbol} (block : Int × List Symbol) {i : Nat}
    (h : i < block.2.length) : shown blank block (block.1 + i) = block.2[i] := by
  have hle : ¬ block.1 + (i : Int) < block.1 := by omega
  have hindex : (block.1 + (i : Int) - block.1).toNat = i := by omega
  rw [shown, if_neg hle, hindex, List.getElem?_eq_getElem h, Option.getD_some]

theorem shown_outside {blank : Symbol} {block : Int × List Symbol} {p : Int}
    (h : p < block.1 ∨ block.1 + block.2.length ≤ p) : shown blank block p = blank := by
  rw [shown]
  split
  · rfl
  · rw [List.getElem?_eq_none (by omega), Option.getD_none]

/-- A block without blanks at its ends, which lies at position 0 when it is empty. -/
structure Trimmed (blank : Symbol) (block : Int × List Symbol) : Prop where
  head : block.2.head? ≠ some blank
  last : block.2.getLast? ≠ some blank
  empty : block.2 = [] → block.1 = 0

/-- The stored cells up to the last one that is not blank. -/
def kept (t : Tape) : List Symbol := t.cells.toList.rdropWhile (· == t.blank)

private theorem span_of_kept_eq_nil {t : Tape} (h : t.kept = []) : t.span = (0, []) := by
  obtain ⟨offset, ⟨cells⟩, blank⟩ := t
  have h' : (cells.reverse.dropWhile (· == blank)).reverse = [] := h
  simp only [span, List.popWhile_toArray, h', Array.isEmpty_empty, if_true]

private theorem span_of_kept_ne_nil {t : Tape} (h : t.kept ≠ []) :
    t.span = (t.offset + (t.kept.takeWhile (· == t.blank)).length,
      t.kept.dropWhile (· == t.blank)) := by
  obtain ⟨offset, ⟨cells⟩, blank⟩ := t
  have hd (xs : List Symbol) : xs.drop (xs.takeWhile (· == blank)).length =
      xs.dropWhile (· == blank) := by
    conv_lhs => arg 2; rw [← List.takeWhile_append_dropWhile (p := (· == blank)) (l := xs)]
    rw [List.drop_left]
  have hn : ¬ (cells.reverse.dropWhile (· == blank)).reverse.toArray.isEmpty := by
    simpa [kept, List.rdropWhile] using h
  simp only [span, List.popWhile_toArray, if_neg hn, List.takeWhile_toArray, List.size_toArray, hd]
  rfl

private theorem eq_replicate_of_all_blank (xs : List Symbol) {blank : Symbol}
    (h : ∀ x ∈ xs, (x == blank) = true) : xs = List.replicate xs.length blank :=
  List.eq_replicate_iff.mpr ⟨rfl, fun x hx => beq_iff_eq.mp (h x hx)⟩

/-- The stored cells are the span between blanks. -/
theorem exists_cells_eq (t : Tape) :
    ∃ k j, t.cells.toList = List.replicate k t.blank ++ t.span.2 ++ List.replicate j t.blank ∧
      (t.span.2 ≠ [] → t.span.1 = t.offset + k) := by
  have hcells : t.cells.toList = t.kept ++ t.cells.toList.rtakeWhile (· == t.blank) :=
    List.rdropWhile_append_rtakeWhile.symm
  have hright := eq_replicate_of_all_blank (t.cells.toList.rtakeWhile (· == t.blank))
    fun x hx => List.mem_rtakeWhile_imp (p := (· == t.blank)) hx
  have hleft := eq_replicate_of_all_blank (t.kept.takeWhile (· == t.blank))
    fun x hx => List.mem_takeWhile_imp (p := (· == t.blank)) hx
  by_cases hk : t.kept = []
  · refine ⟨0, (t.cells.toList.rtakeWhile (· == t.blank)).length, ?_, ?_⟩
    · rw [span_of_kept_eq_nil hk, ← hright]
      simpa [hk] using hcells
    · rw [span_of_kept_eq_nil hk]
      exact fun h => absurd rfl h
  · refine ⟨(t.kept.takeWhile (· == t.blank)).length,
      (t.cells.toList.rtakeWhile (· == t.blank)).length, ?_, ?_⟩
    · rw [span_of_kept_ne_nil hk, ← hleft, ← hright, List.takeWhile_append_dropWhile]
      exact hcells
    · rw [span_of_kept_ne_nil hk]
      exact fun _ => rfl

/-- The span of a tape has no blanks at its ends. -/
theorem trimmed_span (t : Tape) : Trimmed t.blank t.span := by
  by_cases hk : t.kept = []
  · rw [span_of_kept_eq_nil hk]
    exact ⟨by simp, by simp, fun _ => rfl⟩
  · have hlast : t.kept.getLast hk ≠ t.blank := by
      simpa [kept] using List.rdropWhile_last_not (· == t.blank) t.cells.toList hk
    have hd : t.kept.dropWhile (· == t.blank) ≠ [] := by
      intro hd
      have := List.dropWhile_eq_nil_iff.mp hd _ (List.getLast_mem hk)
      exact hlast (by simpa using this)
    rw [span_of_kept_ne_nil hk]
    refine ⟨?_, ?_, fun h => absurd h hd⟩
    · intro h
      have := List.head?_dropWhile_not (· == t.blank) t.kept
      simp [h] at this
    · obtain ⟨front, hf⟩ := List.dropWhile_suffix (l := t.kept) (· == t.blank)
      intro h
      have hl : t.kept.getLast? = some t.blank := by
        rw [← hf, List.getLast?_append, h]
        rfl
      rw [List.getLast?_eq_some_getLast hk] at hl
      exact hlast (Option.some.inj hl)

private theorem read_eq_shown_span (t : Tape) (p : Int) : t.read p = shown t.blank t.span p := by
  obtain ⟨k, j, hc, hs⟩ := t.exists_cells_eq
  have hr : t.read p = if p < t.offset then t.blank
      else (t.cells.toList[(p - t.offset).toNat]?).getD t.blank := by simp [read]
  rw [hr, hc, shown]
  by_cases he : t.span.2 = []
  · have h0 (i : Nat) : ((List.replicate (k + j) t.blank)[i]?).getD t.blank = t.blank := by
      rw [List.getElem?_replicate]
      split <;> rfl
    simp [he, List.replicate_append_replicate, h0]
  · rw [hs he]
    grind

private theorem Trimmed.shown_ne {blank : Symbol} {f : Int} {s : List Symbol}
    (h : Trimmed blank (f, s)) (hs : s ≠ []) :
    shown blank (f, s) f ≠ blank ∧ shown blank (f, s) (f + (s.length - 1 : Nat)) ≠ blank := by
  obtain ⟨hh, hl, -⟩ := h
  rw [List.head?_eq_getElem?] at hh
  rw [List.getLast?_eq_getElem?] at hl
  have hpos : 0 < s.length := List.length_pos_iff.mpr hs
  have hlt : s.length - 1 < s.length := by omega
  simp only [List.getElem?_eq_getElem hpos, List.getElem?_eq_getElem hlt] at hh hl
  constructor
  · simpa [shown, hpos] using hh
  · rw [shown_add (f, s) hlt]
    simpa using hl

private theorem bounds_of_shown_ne {blank : Symbol} {f p : Int} {s : List Symbol}
    (h : shown blank (f, s) p ≠ blank) : f ≤ p ∧ p < f + s.length := by
  by_contra hc
  have hp : p < f ∨ f + s.length ≤ p := by omega
  exact h (shown_outside hp)

/-- Only one trimmed block shows a given tape. -/
theorem Trimmed.eq_of_shown_eq {blank : Symbol} {b c : Int × List Symbol} (hb : Trimmed blank b)
    (hc : Trimmed blank c) (h : ∀ p, shown blank b p = shown blank c p) : b = c := by
  obtain ⟨f, s⟩ := b
  obtain ⟨g, u⟩ := c
  have hnil {f g : Int} {s u : List Symbol} (hb : Trimmed blank (f, s)) (hs : s ≠ [])
      (h : ∀ p, shown blank (f, s) p = shown blank (g, u) p) :
      g ≤ f ∧ f + s.length ≤ g + u.length ∧ u ≠ [] := by
    obtain ⟨h1, h2⟩ := hb.shown_ne hs
    rw [h] at h1 h2
    have hpos : 0 < s.length := List.length_pos_iff.mpr hs
    have := bounds_of_shown_ne h1
    have := bounds_of_shown_ne h2
    refine ⟨by omega, by omega, ?_⟩
    rintro rfl
    simp at *
    omega
  by_cases hs : s = []
  · have hu : u = [] := by
      by_contra hu
      exact (hnil hc hu fun p => (h p).symm).2.2 hs
    have := hb.empty hs
    have := hc.empty hu
    simp_all
  · obtain ⟨h1, h2, hu⟩ := hnil hb hs h
    obtain ⟨h3, h4, -⟩ := hnil hc hu fun p => (h p).symm
    obtain rfl : f = g := by omega
    have hl : s.length = u.length := by omega
    refine Prod.ext rfl (List.ext_getElem hl fun i hi hi' => ?_)
    have hshown := h (f + i)
    rwa [shown_add (f, s) hi, shown_add (f, u) hi'] at hshown

/-- Tapes are alike exactly when they have the same blank and show the same symbols. -/
theorem equiv_iff_read {s t : Tape} : s ≈ t ↔ s.blank = t.blank ∧ ∀ p, s.read p = t.read p := by
  change s.blank = t.blank ∧ s.span = t.span ↔ _
  constructor
  · rintro ⟨hb, hs⟩
    exact ⟨hb, fun p => by rw [read_eq_shown_span, read_eq_shown_span, hb, hs]⟩
  · rintro ⟨hb, hr⟩
    have ht : Trimmed s.blank t.span := hb ▸ t.trimmed_span
    refine ⟨hb, s.trimmed_span.eq_of_shown_eq ht fun p => ?_⟩
    rw [← read_eq_shown_span, hr, read_eq_shown_span, hb]

/-- The normal form of a tape: a block without blanks at its ends that shows, between blanks, what
the tape shows. -/
structure NormalForm (t : Tape) (block : Int × List Symbol) : Prop
    extends Trimmed t.blank block where
  inside (i : Nat) (h : i < block.2.length) : t.read (block.1 + i) = block.2[i]
  outside (p : Int) (h : p < block.1 ∨ block.1 + block.2.length ≤ p) : t.read p = t.blank

theorem normalForm_span (t : Tape) : t.NormalForm t.span where
  toTrimmed := t.trimmed_span
  inside i h := by rw [read_eq_shown_span, shown_add _ h]
  outside p h := by rw [read_eq_shown_span, shown_outside h]

private theorem NormalForm.read_eq_shown {t : Tape} {block : Int × List Symbol}
    (h : t.NormalForm block) (p : Int) : t.read p = shown t.blank block p := by
  by_cases hp : p < block.1 ∨ block.1 + block.2.length ≤ p
  · rw [h.outside p hp, shown_outside hp]
  · obtain ⟨i, rfl⟩ : ∃ i : Nat, p = block.1 + i := ⟨(p - block.1).toNat, by omega⟩
    have hi : i < block.2.length := by omega
    rw [h.inside i hi, shown_add block hi]

/-- A tape has one normal form, its span. -/
theorem NormalForm.eq_span {t : Tape} {block : Int × List Symbol} (h : t.NormalForm block) :
    block = t.span :=
  h.toTrimmed.eq_of_shown_eq t.trimmed_span fun p => by
    rw [← h.read_eq_shown, read_eq_shown_span]

/-- Alike tapes stay alike when the same symbol is written at the same position. -/
theorem write_congr {s t : Tape} (h : s ≈ t) (p : Int) (x : Symbol) :
    s.write p x ≈ t.write p x := by
  obtain ⟨hb, hr⟩ := equiv_iff_read.mp h
  refine equiv_iff_read.mpr ⟨by simp [hb], fun q => ?_⟩
  rw [read_write, read_write, hr]

end TapeMachine.Tape
