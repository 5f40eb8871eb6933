import TapeMachine.Proofs.AlikeTapes
import TapeMachine.Proofs.WordArithmetic

/-!
# Tapes whose positions are words

Where overflow stops a computation, a tape shows a symbol at every position, as far as it can be
read. Where it wraps around, the positions form a circle, and a tape shows one symbol for all
numbers that stand for the same position. In either case the span of a tape, when it is computed, is
a normal form of what the tape shows, and so tapes that are compared are the same exactly when they
have the same blank and show the same symbols.
-/

namespace TapeMachine.Tape

/-- The symbol that a tape shows at a position. -/
def shows (o : Overflow) (t : Tape) (p : Int) : Symbol :=
  match o with
  | .stops => t.read p
  | .wraps => t.readWrapped p

variable {o : Overflow} {s t : Tape} {p q : Int} {b c : Int × List Symbol}

theorem readWrapped_eq (t : Tape) (p : Int) :
    t.readWrapped p = t.read (t.offset + wrap (p - t.offset)) := by
  have hlt : t.offset + wrap (p - t.offset) < t.offset ↔ wrap (p - t.offset) < 0 := by omega
  have hindex : t.offset + wrap (p - t.offset) - t.offset = wrap (p - t.offset) := by omega
  rw [readWrapped, read, hindex, if_congr hlt rfl rfl]

/-- A tape shows one symbol for all numbers that stand for a position. -/
theorem shows_congr (h : o.Same p q) (t : Tape) : t.shows o p = t.shows o q := by
  cases o with
  | stops => exact congrArg t.read h
  | wraps =>
    have hsub : wrap (p - t.offset) = wrap (q - t.offset) := h.add (-t.offset)
    rw [shows, shows, readWrapped, readWrapped, hsub]

/-- What is read is what the tape shows. -/
theorem readBy?_eq_some {a : Symbol} (h : t.readBy? o p = some a) : a = t.shows o p := by
  cases o with
  | stops =>
    obtain ⟨-, h⟩ : IsWord (p - t.offset) ∧ t.read p = a := by simpa [readBy?, readWord?] using h
    exact h.symm
  | wraps => exact (Option.some.inj h).symm

theorem readBy?_eq_none_iff : t.readBy? o p = none ↔ o = .stops ∧ ¬ IsWord (p - t.offset) := by
  cases o <;> simp [readBy?, readWord?]

/-- What is near the stored cells is read as it is. -/
theorem readBy?_of_isWord (h : IsWord (p - t.offset)) : t.readBy? o p = some (t.read p) := by
  cases o with
  | stops => exact if_pos h
  | wraps =>
    have hp : t.offset + (p - t.offset) = p := by omega
    rw [readBy?, readWrapped_eq, wrap_of_isWord h, hp]

/-- There are no more leading blanks than stored cells. -/
theorem size_leading_le (t : Tape) :
    ((t.cells.popWhile (· == t.blank)).takeWhile (· == t.blank)).size ≤ t.cells.size := by
  obtain ⟨-, ⟨cells⟩, blank⟩ := t
  simp only [List.popWhile_toArray, List.takeWhile_toArray, List.size_toArray]
  exact Nat.le_trans (List.takeWhile_prefix _).length_le
    (List.rdropWhile_prefix (· == blank) cells).length_le

/-- The symbols of the span are stored one after the other. -/
theorem span_within (t : Tape) (h : t.span.2 ≠ []) :
    t.offset ≤ t.span.1 ∧ t.span.1 + t.span.2.length ≤ t.offset + t.cells.size := by
  obtain ⟨k, j, hcells, hfirst⟩ := t.exists_cells_eq
  have hsize : t.cells.size = k + t.span.2.length + j := by
    rw [← Array.length_toList, hcells, List.length_append, List.length_append,
      List.length_replicate, List.length_replicate]
  rw [hfirst h]
  omega

private theorem length_span_le (t : Tape) : t.span.2.length ≤ t.cells.size := by
  by_cases h : t.span.2 = []
  · simp [h]
  · have := t.span_within h
    omega

/-- The span of a tape is computed up to the position of its first symbol. -/
theorem spanBy?_eq (h : IsWord t.cells.size) :
    t.spanBy? o = (o.word? t.span.1).map fun first => (first, t.span.2) := by
  have hleading := isWord_zero.between h (Int.natCast_nonneg _) (Int.ofNat_le.mpr t.size_leading_le)
  have hempty : o.word? 0 = some 0 := Overflow.word?_of_isWord isWord_zero
  cases o with
  | stops =>
    rw [spanBy?, spanWord?, span]
    dsimp only
    split_ifs with hkept hwords
    · rw [hempty, Option.map_some]
    · rw [Overflow.word?_of_isWord hwords.2, Option.map_some]
    · have hfirst : ¬ IsWord _ := fun hfirst => hwords ⟨hleading, hfirst⟩
      rw [Overflow.word?, if_neg hfirst, Option.map_none]
  | wraps =>
    rw [spanBy?, spanWrapped, span]
    dsimp only
    rw [wrap_of_isWord hleading]
    split_ifs
    · rw [hempty, Option.map_some]
    · rfl

/-- The normal form of what a tape shows: a block without blanks at its ends that stands, between
blanks, on positions from a word on. -/
structure NormalFormBy (o : Overflow) (t : Tape) (block : Int × List Symbol) : Prop
    extends Trimmed t.blank block where
  isWord : IsWord block.1
  isWord_length : IsWord block.2.length
  inside {i : Nat} {p : Int} (h : i < block.2.length) (hp : o.Same p (block.1 + i)) :
    t.shows o p = block.2[i]
  outside {p : Int} (h : ∀ i < block.2.length, ¬ o.Same p (block.1 + i)) : t.shows o p = t.blank

/-- The span that is computed for a tape is a normal form of it. -/
theorem normalFormBy_of_spanBy? (hsize : IsWord t.cells.size) (h : t.spanBy? o = some b) :
    t.NormalFormBy o b := by
  rw [spanBy?_eq hsize, Option.map_eq_some_iff] at h
  obtain ⟨first, hfirst, rfl⟩ := h
  obtain ⟨hword, hsame⟩ := Overflow.word?_eq_some hfirst
  obtain ⟨⟨hhead, hlast, hempty⟩, hinside, houtside⟩ := t.normalForm_span
  -- the cell of a wrapped position is the one that shows it
  have hshows {i : Nat} (hi : i < t.span.2.length) : t.shows o (t.span.1 + i) = t.span.2[i] := by
    rw [← hinside i hi]
    cases o with
    | stops => rfl
    | wraps =>
      have hwithin := t.span_within (List.ne_nil_of_length_pos (by omega))
      have hindex : IsWord (t.span.1 + i - t.offset) :=
        isWord_zero.between hsize (by omega) (by omega)
      rw [shows, readWrapped_eq, wrap_of_isWord hindex]
      congr 1
      omega
  refine ⟨⟨hhead, hlast, fun he => ?_⟩, hword, ?_, fun {i p} hi hp => ?_, fun {p} hp => ?_⟩
  · rw [hempty he] at hsame
    exact hsame.eq_of_isWord hword isWord_zero
  · exact isWord_zero.between hsize (Int.natCast_nonneg _) (Int.ofNat_le.mpr t.length_span_le)
  · rw [shows_congr (hp.trans (hsame.add i)), hshows hi]
  · have hnot : ∀ i < t.span.2.length, ¬ o.Same p (t.span.1 + i) :=
      fun i hi hc => hp i hi (hc.trans (hsame.symm.add i))
    cases o with
    | stops =>
      refine houtside p ?_
      by_contra hc
      exact hnot (p - t.span.1).toNat (by omega) (by change p = _; omega)
    | wraps =>
      rw [shows, readWrapped_eq]
      refine houtside _ ?_
      by_contra hc
      refine hnot (t.offset + wrap (p - t.offset) - t.span.1).toNat (by omega) ?_
      have := wrap_sub_self_emod (p - t.offset)
      exact wrap_eq_wrap_iff.mpr (by omega)

namespace NormalFormBy

theorem exists_same (h : t.NormalFormBy o b) (hp : t.shows o p ≠ t.blank) :
    ∃ i < b.2.length, o.Same p (b.1 + i) := by
  by_contra hc
  exact hp (h.outside fun i hi hsame => hc ⟨i, hi, hsame⟩)

private theorem isWord_index (h : t.NormalFormBy o b) {i : Nat} (hi : i < b.2.length) : IsWord i :=
  isWord_zero.between h.isWord_length (Int.natCast_nonneg i) (by omega)

private theorem shows_first_ne (h : t.NormalFormBy o b) (hb : b.2 ≠ []) :
    t.shows o b.1 ≠ t.blank := by
  have hpos : 0 < b.2.length := List.length_pos_iff.mpr hb
  rw [h.inside (i := 0) hpos (by simpa using .refl o b.1)]
  intro hc
  exact h.head (by rw [List.head?_eq_getElem?, List.getElem?_eq_getElem hpos, hc])

private theorem shows_last_ne (h : t.NormalFormBy o b) (hb : b.2 ≠ []) :
    t.shows o (b.1 + (b.2.length - 1 : Nat)) ≠ t.blank := by
  have hpos : b.2.length - 1 < b.2.length := by
    have := List.length_pos_iff.mpr hb
    omega
  rw [h.inside hpos (.refl ..)]
  intro hc
  exact h.last (by rw [List.getLast?_eq_getElem?, List.getElem?_eq_getElem hpos, hc])

/-- Tapes with the same normal form show the same symbols. -/
theorem shows_eq (hs : s.NormalFormBy o b) (ht : t.NormalFormBy o b) (hblank : s.blank = t.blank)
    (p : Int) : s.shows o p = t.shows o p := by
  by_cases h : ∃ i, ∃ hi : i < b.2.length, o.Same p (b.1 + i)
  · obtain ⟨i, hi, hp⟩ := h
    rw [hs.inside hi hp, ht.inside hi hp]
  · have hnone : ∀ i < b.2.length, ¬ o.Same p (b.1 + i) := fun i hi hp => h ⟨i, hi, hp⟩
    rw [hs.outside hnone, ht.outside hnone, hblank]

/-- Blocks that show the same and have symbols begin on the same word: the first symbol of each is
one of the other. -/
theorem begin_eq (hs : s.NormalFormBy o b) (ht : t.NormalFormBy o c) (hblank : s.blank = t.blank)
    (h : ∀ p, s.shows o p = t.shows o p) (hb : b.2 ≠ []) (hc : c.2 ≠ []) : b.1 = c.1 := by
  have hfirst := hs.shows_first_ne hb
  have hfirst' := ht.shows_first_ne hc
  rw [h, hblank] at hfirst
  rw [← h, ← hblank] at hfirst'
  obtain ⟨j, hj, hsame⟩ := ht.exists_same hfirst
  obtain ⟨i, hi, hsame'⟩ := hs.exists_same hfirst'
  have := Overflow.same_of_add hsame hsame' (hs.isWord_index hi) (ht.isWord_index hj)
  exact this.eq_of_isWord hs.isWord ht.isWord

private theorem ne_nil (hs : s.NormalFormBy o b) (ht : t.NormalFormBy o c)
    (hblank : s.blank = t.blank) (h : ∀ p, s.shows o p = t.shows o p) (hb : b.2 ≠ []) :
    c.2 ≠ [] := by
  have hfirst := hs.shows_first_ne hb
  rw [h, hblank] at hfirst
  obtain ⟨j, hj, -⟩ := ht.exists_same hfirst
  exact List.ne_nil_of_length_pos (by omega)

theorem length_le (hs : s.NormalFormBy o b) (ht : t.NormalFormBy o c) (hblank : s.blank = t.blank)
    (h : ∀ p, s.shows o p = t.shows o p) (hb : b.2 ≠ []) : b.2.length ≤ c.2.length := by
  have hbegin := hs.begin_eq ht hblank h hb (hs.ne_nil ht hblank h hb)
  have hpos := List.length_pos_iff.mpr hb
  have hlast := hs.shows_last_ne hb
  rw [h, hblank, hbegin] at hlast
  obtain ⟨k, hk, hsame⟩ := ht.exists_same hlast
  have := hsame.eq_of_add (hs.isWord_index (by omega)) (ht.isWord_index hk)
  omega

/-- There is one normal form of what a tape shows. -/
theorem unique (hs : s.NormalFormBy o b) (ht : t.NormalFormBy o c) (hblank : s.blank = t.blank)
    (h : ∀ p, s.shows o p = t.shows o p) : b = c := by
  have hsymm : ∀ p, t.shows o p = s.shows o p := fun p => (h p).symm
  obtain ⟨f, u⟩ := b
  obtain ⟨g, v⟩ := c
  by_cases hu : u = []
  · have hv : v = [] := by
      by_contra hv
      exact ht.ne_nil hs hblank.symm hsymm hv hu
    exact Prod.ext ((hs.empty hu).trans (ht.empty hv).symm) (hu.trans hv.symm)
  · have hv := hs.ne_nil ht hblank h hu
    obtain rfl : f = g := hs.begin_eq ht hblank h hu hv
    have hlength : u.length = v.length :=
      Nat.le_antisymm (hs.length_le ht hblank h hu) (ht.length_le hs hblank.symm hsymm hv)
    refine Prod.ext rfl (List.ext_getElem hlength fun i hi hi' => ?_)
    have hsame : o.Same (f + (i : Int)) (f + i) := .refl ..
    rw [← hs.inside hi hsame, ← ht.inside hi' hsame, h]

end NormalFormBy

private theorem spanBy?_eq_none_iff (h : IsWord t.cells.size) :
    t.spanBy? o = none ↔ o = .stops ∧ ¬ IsWord t.span.1 := by
  rw [spanBy?_eq h, Option.map_eq_none_iff, Overflow.word?_eq_none_iff]

/-- The span of a tape ends on a position that is a word. -/
def EndsOnWord (t : Tape) : Prop := IsWord (t.span.1 + t.span.2.length - 1)

instance (t : Tape) : Decidable t.EndsOnWord := inferInstanceAs (Decidable (IsWord _))

private theorem read_of_not_isWord (hfirst : IsWord t.span.1) (hlast : t.EndsOnWord)
    (hp : ¬ IsWord p) : t.read p = t.blank := by
  refine t.normalForm_span.outside p ?_
  by_contra hc
  exact hp (hfirst.between hlast (by omega) (by omega))

/-- What tapes show on words is what they show, where overflow wraps positions around or their spans
are on words. -/
private theorem shows_eq_of_isWord (hblank : s.blank = t.blank)
    (hs : o = .stops → IsWord s.span.1 ∧ s.EndsOnWord)
    (ht : o = .stops → IsWord t.span.1 ∧ t.EndsOnWord)
    (h : ∀ p, IsWord p → s.shows o p = t.shows o p) (p : Int) : s.shows o p = t.shows o p := by
  by_cases hp : IsWord p
  · exact h p hp
  · cases o with
    | stops =>
      obtain ⟨hfirst, hlast⟩ := hs rfl
      obtain ⟨hfirst', hlast'⟩ := ht rfl
      calc s.read p = s.blank := read_of_not_isWord hfirst hlast hp
        _ = t.blank := hblank
        _ = t.read p := (read_of_not_isWord hfirst' hlast' hp).symm
    | wraps =>
      have hsame : Overflow.wraps.Same (wrap p) p := isWord_wrap p
      rw [← shows_congr hsame, ← shows_congr hsame]
      exact h _ (isWord_wrap p)

/-- A comparison answers whether the tapes have the same blank and show the same symbols. -/
theorem equalBy?_eq_some (hs : IsWord s.cells.size) (ht : IsWord t.cells.size) {same : Bool}
    (h : s.equalBy? o t = some same) :
    same = true ↔ s.blank = t.blank ∧ ∀ p, s.shows o p = t.shows o p := by
  rw [equalBy?] at h
  split at h
  · rename_i hblank
    obtain ⟨b, hb, h⟩ := Option.bind_eq_some_iff.mp h
    obtain ⟨c, hc, rfl⟩ := Option.map_eq_some_iff.mp h
    have hnormal := normalFormBy_of_spanBy? hs hb
    have hnormal' := normalFormBy_of_spanBy? ht hc
    rw [decide_eq_true_iff]
    constructor
    · rintro rfl
      exact ⟨hblank, hnormal.shows_eq hnormal' hblank⟩
    · rintro ⟨-, hshows⟩
      exact hnormal.unique hnormal' hblank hshows
  · rename_i hblank
    cases h
    exact iff_of_false Bool.false_ne_true fun hc => hblank hc.1

/-- A comparison has no answer only where a span begins at a position that is not a word. -/
theorem equalBy?_eq_none_iff (hs : IsWord s.cells.size) (ht : IsWord t.cells.size) :
    s.equalBy? o t = none ↔
      o = .stops ∧ s.blank = t.blank ∧ ¬ (IsWord s.span.1 ∧ IsWord t.span.1) := by
  rw [equalBy?]
  split
  · rename_i hblank
    cases hb : s.spanBy? o with
    | none =>
      obtain ⟨ho, hfirst⟩ := (spanBy?_eq_none_iff hs).mp hb
      exact iff_of_true rfl ⟨ho, hblank, fun hc => hfirst hc.1⟩
    | some b =>
      have hs' : ¬ (o = .stops ∧ ¬ IsWord s.span.1) := by
        rw [← spanBy?_eq_none_iff hs, hb]
        exact Option.some_ne_none b
      rw [Option.bind_some, Option.map_eq_none_iff, spanBy?_eq_none_iff ht]
      grind
  · rename_i hblank
    exact iff_of_false (Option.some_ne_none false) fun hc => hblank hc.2.1

/-- Positions that are words tell tapes apart, unless overflow stops computations and a span goes on
beyond the last word. -/
private theorem equalBy?_eq_some_of_endsOnWord (hs : IsWord s.cells.size) (ht : IsWord t.cells.size)
    {same : Bool} (h : s.equalBy? o t = some same)
    (hlast : o = .stops → s.EndsOnWord ∧ t.EndsOnWord) :
    same = true ↔ s.blank = t.blank ∧ ∀ p, IsWord p → s.shows o p = t.shows o p := by
  rw [equalBy?_eq_some hs ht h]
  refine and_congr_right fun hblank => ⟨fun hshows p _ => hshows p, fun hshows => ?_⟩
  have hfirst (ho : o = .stops) : IsWord s.span.1 ∧ IsWord t.span.1 := by
    by_contra hc
    rw [(equalBy?_eq_none_iff hs ht).mpr ⟨ho, hblank, hc⟩] at h
    cases h
  exact shows_eq_of_isWord hblank (fun ho => ⟨(hfirst ho).1, (hlast ho).1⟩)
    (fun ho => ⟨(hfirst ho).2, (hlast ho).2⟩) hshows

/-- A span that is computed has the symbols of the contents. Where overflow stops computations, it
is the span. -/
theorem eq_span_of_spanBy? (hsize : IsWord t.cells.size) (h : t.spanBy? o = some b) :
    (o = .stops → b = t.span) ∧ t.contentsBy? o = some t.contents ∧
      t.contents = String.ofList b.2 := by
  have hspan := spanBy?_eq (o := o) hsize
  rw [h] at hspan
  obtain ⟨first, hfirst, rfl⟩ := Option.map_eq_some_iff.mp hspan.symm
  refine ⟨?_, by rw [contentsBy?, h, Option.map_some, contents], by rw [contents]⟩
  rintro rfl
  obtain ⟨-, rfl⟩ := Overflow.word?_eq_some hfirst
  rfl

/-- A tape whose second cell is not on a word. -/
def beyond : Tape := ⟨2 ^ 63 - 1, #['_', 'a'], '_'⟩

/-- The tape with the same symbol on the position that this one is wrapped to. -/
def around : Tape := ⟨-2 ^ 63, #['a'], '_'⟩

end TapeMachine.Tape
