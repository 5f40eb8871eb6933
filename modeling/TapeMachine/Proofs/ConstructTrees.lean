import Mathlib.Data.List.Forall2
import TapeMachine.Proofs.PegMeaning

/-!
# Constructs and what is read from them

`Peg.Yields` relates the value that an expression reads to the constructs that are found meanwhile.
There is a lemma for each way to form expressions, so that what is known of the constructs of a
grammar follows its rules.
-/

namespace TapeMachine

/-- The cursor is somewhere in a text. -/
def Cursor.In (text : List Char) (c : Cursor) : Prop :=
  ∃ passed, text = passed ++ c.rest ∧ c.offset = passed.length

namespace Cursor

variable {text s : List Char} {c d : Cursor}

theorem in_atStart (text : List Char) : (atStart text).In text := ⟨[], rfl, rfl⟩

theorem In.passes (hc : c.In text) (h : c.Passes s d) : d.In text := by
  obtain ⟨passed, htext, hoffset⟩ := hc
  refine ⟨passed ++ s, ?_, ?_⟩
  · rw [htext, h.rest, List.append_assoc]
  · rw [h.offset, hoffset, List.length_append]

/-- What is passed over is the part of the text between the cursors. -/
theorem In.slice (hc : c.In text) (h : c.Passes s d) :
    (text.drop c.offset).take (d.offset - c.offset) = s := by
  obtain ⟨passed, htext, hoffset⟩ := hc
  rw [htext, hoffset, List.drop_left, h.offset, hoffset, Nat.add_sub_cancel_left, h.rest,
    List.take_left]

theorem In.offset_of_end (hc : c.In text) (h : c.rest = []) : c.offset = text.length := by
  obtain ⟨passed, htext, hoffset⟩ := hc
  rw [hoffset, htext, h, List.append_nil]

end Cursor

namespace Peg

variable {ν α β : Type} {text : List Char}

/-- In a given text, all that an expression reads is related to the constructs that it finds. -/
structure Yields (text : List Char) (e : Peg ν α) (R : α → List (Piece ν) → Prop) : Prop where
  wellFormed : e.wellFormed = true
  related (c : Cursor) (v : α) (d : Cursor) (hc : c.In text) (h : e.Reads c v d) : R v (e.pieces c)

variable {e first : Peg ν α} {second : Peg ν β} {R S : α → List (Piece ν) → Prop}
  {T : β → List (Piece ν) → Prop}

theorem Yields.mono (h : Yields text e R) (hRS : ∀ v ps, R v ps → S v ps) : Yields text e S where
  wellFormed := h.wellFormed
  related c v d hc hv := hRS _ _ (h.related c v d hc hv)

/-- No construct has its name here. -/
def unnamed : {α : Type} → Peg ν α → Bool
  | _, done | _, endOfText | _, span _ | _, char _ | _, literal _ => true
  | _, both first second | _, either first second => first.unnamed && second.unnamed
  | _, star body | _, map _ body | _, located body => body.unnamed
  | _, named _ _ => false

private theorem repeatPieces_eq_nil {read : Cursor → Option (α × Cursor)}
    {pieces : Cursor → List (Piece ν)} (h : ∀ c, pieces c = []) (c : Cursor) (bound : List Char) :
    repeatPieces read pieces c bound = [] := by
  induction bound generalizing c with
  | nil => rfl
  | cons x bound ih =>
    cases hc : read c with
    | none => simp [repeatPieces, hc]
    | some next => simp [repeatPieces, hc, h, ih]

private theorem pieces_of_unnamed {e : Peg ν α} (he : e.unnamed = true) (c : Cursor) :
    e.pieces c = [] := by
  induction e generalizing c with
  | done | endOfText | span _ | char _ | literal _ => rfl
  | both first second ihfirst ihsecond =>
    obtain ⟨hfirst, hsecond⟩ := Bool.and_eq_true_iff.mp he
    cases hc : first.run? c with
    | none => simp [pieces, hc]
    | some next => simp [pieces, hc, ihfirst hfirst, ihsecond hsecond]
  | either first second ihfirst ihsecond =>
    obtain ⟨hfirst, hsecond⟩ := Bool.and_eq_true_iff.mp he
    cases hc : first.run? c with
    | none => simp [pieces, hc, ihsecond hsecond]
    | some next => simp [pieces, hc, ihfirst hfirst]
  | star body ih => exact repeatPieces_eq_nil (ih he) c c.rest
  | map f body ih => exact ih he c
  | located body ih => exact ih he c
  | named name body => cases he

theorem yields_unnamed (hwf : e.wellFormed = true) (he : e.unnamed = true) :
    Yields text e fun _ ps => ps = [] where
  wellFormed := hwf
  related c _ _ _ _ := pieces_of_unnamed he c

/-- The constructs of one value behind those of another. -/
def Then (R : α → List (Piece ν) → Prop) (T : β → List (Piece ν) → Prop) (v : α × β)
    (ps : List (Piece ν)) : Prop :=
  ∃ qs rs, ps = qs ++ rs ∧ R v.1 qs ∧ T v.2 rs

/-- The constructs of one value after the other. -/
inductive Each (R : α → List (Piece ν) → Prop) : List α → List (Piece ν) → Prop where
  | nil : Each R [] []
  | cons {v : α} {vs : List α} {ps qs : List (Piece ν)} (h : R v ps) (hrest : Each R vs qs) :
      Each R (v :: vs) (ps ++ qs)

/-- One construct with a name. -/
def Single (name : ν) (P : α → Piece ν → Prop) (v : α) (ps : List (Piece ν)) : Prop :=
  ∃ p, ps = [p] ∧ p.name = name ∧ P v p

theorem Each.forall₂ {P : α → Piece ν → Prop} (h : ∀ v ps, R v ps → ∃ p, ps = [p] ∧ P v p)
    {vs : List α} {ps : List (Piece ν)} (he : Each R vs ps) : List.Forall₂ P vs ps := by
  induction he with
  | nil => exact .nil
  | cons hv _ ih =>
    obtain ⟨p, rfl, hp⟩ := h _ _ hv
    exact .cons hp ih

theorem Yields.both (hfirst : Yields text first R) (hsecond : Yields text second T) :
    Yields text (both first second) (Then R T) where
  wellFormed := Bool.and_eq_true_iff.mpr ⟨hfirst.wellFormed, hsecond.wellFormed⟩
  related c v e hc h := by
    obtain ⟨d, hv, hw⟩ := h
    obtain ⟨s, hs, -⟩ := hv.exists_passes
    have hrun := (run?_eq_some_iff hfirst.wellFormed).mpr hv
    refine ⟨first.pieces c, second.pieces d, ?_, hfirst.related c _ d hc hv,
      hsecond.related d _ e (hc.passes hs) hw⟩
    simp [pieces, hrun]

theorem Yields.either {second : Peg ν α} (hfirst : Yields text first R)
    (hsecond : Yields text second R) : Yields text (either first second) R where
  wellFormed := Bool.and_eq_true_iff.mpr ⟨hfirst.wellFormed, hsecond.wellFormed⟩
  related c v d hc h := by
    rcases h with h | ⟨hno, h⟩
    · have hrun := (run?_eq_some_iff hfirst.wellFormed).mpr h
      simpa [pieces, hrun] using hfirst.related c v d hc h
    · have hrun := (run?_eq_none_iff hfirst.wellFormed).mpr hno
      simpa [pieces, hrun] using hsecond.related c v d hc h

theorem Yields.map {f : α → β} (h : Yields text e R) (hT : ∀ v ps, R v ps → T (f v) ps) :
    Yields text (map f e) T where
  wellFormed := h.wellFormed
  related c v d hc hv := by
    obtain ⟨w, hw, rfl⟩ := hv
    exact hT _ _ (h.related c w d hc hw)

theorem Yields.named {name : ν} {P : α → Piece ν → Prop} (h : Yields text e R)
    (hP : ∀ v p, R v p.inner → P v p) : Yields text (named name e) (Single name P) where
  wellFormed := h.wellFormed
  related c v d hc hv := by
    have hrun := (run?_eq_some_iff h.wellFormed).mpr hv
    refine ⟨⟨name, c.offset, d.offset, e.pieces c⟩, ?_, rfl, hP _ _ (h.related c v d hc hv)⟩
    simp [pieces, hrun]

/-- A construct without others in it, of which the text is known. -/
theorem yields_token {name : ν} (hwf : e.wellFormed = true) (he : e.unnamed = true)
    {P : α → List Char → Prop} (hP : ∀ c v d, e.Reads c v d → ∃ s, c.Passes s d ∧ P v s) :
    Yields text (.named name e) (Single name fun v p => P v (p.chars text)) where
  wellFormed := hwf
  related c v d hc hv := by
    have hrun := (run?_eq_some_iff hwf).mpr hv
    obtain ⟨s, hs, hPs⟩ := hP c v d hv
    refine ⟨⟨name, c.offset, d.offset, []⟩, ?_, rfl, ?_⟩
    · simp [pieces, hrun, pieces_of_unnamed he]
    · change P v ((text.drop c.offset).take (d.offset - c.offset))
      rwa [hc.slice hs]

/-- The expression is a construct, or one of several. -/
def framed : {α : Type} → Peg ν α → Bool
  | _, either first second => first.framed && second.framed
  | _, named _ _ => true
  | _, _ => false

theorem exists_piece_of_framed {e : Peg ν α} (hwf : e.wellFormed = true) (he : e.framed = true)
    {c d : Cursor} {v : α} (h : e.Reads c v d) :
    ∃ p, e.pieces c = [p] ∧ p.start = c.offset ∧ p.stop = d.offset := by
  induction e generalizing c d with
  | either first second ihfirst ihsecond =>
    obtain ⟨hfirst, hsecond⟩ := Bool.and_eq_true_iff.mp he
    obtain ⟨hfirst', hsecond'⟩ := Bool.and_eq_true_iff.mp hwf
    rcases h with h | ⟨hno, h⟩
    · have hrun := (run?_eq_some_iff hfirst').mpr h
      simpa [pieces, hrun] using ihfirst hfirst' hfirst h
    · have hrun := (run?_eq_none_iff hfirst').mpr hno
      simpa [pieces, hrun] using ihsecond hsecond' hsecond h
  | named name body =>
    have hrun : body.run? c = some (v, d) := (run?_eq_some_iff hwf).mpr h
    exact ⟨⟨name, c.offset, d.offset, body.pieces c⟩, by simp [pieces, hrun], rfl, rfl⟩
  | _ => cases he

/-- A construct has the place of the value that is read from it. -/
theorem Yields.located (h : Yields text e R) (he : e.framed = true) :
    Yields text (located e) fun l ps =>
      ∃ p, ps = [p] ∧ p.start = l.start ∧ p.stop = l.stop ∧ R l.value [p] where
  wellFormed := h.wellFormed
  related c v d hc hv := by
    obtain ⟨hv, hstart, hstop⟩ := hv
    obtain ⟨p, hp, hpstart, hpstop⟩ := exists_piece_of_framed h.wellFormed he hv
    refine ⟨p, hp, hpstart.trans hstart.symm, hpstop.trans hstop.symm, ?_⟩
    rw [← hp]
    exact h.related c _ d hc hv

/-- A construct around one construct has its text. -/
theorem Yields.framed_chars {name inner : ν} {P : α → List Char → Prop}
    (h : Yields text e (Single inner fun v p => P v (p.chars text))) (he : e.framed = true) :
    Yields text (.named name e) (Single name fun v p => P v (p.chars text)) where
  wellFormed := h.wellFormed
  related c v d hc hv := by
    have hrun := (run?_eq_some_iff h.wellFormed).mpr hv
    obtain ⟨p, hp, hstart, hstop⟩ := exists_piece_of_framed h.wellFormed he hv
    obtain ⟨q, hq, -, hP⟩ := h.related c v d hc hv
    obtain rfl : p = q := List.singleton_inj.mp (hp.symm.trans hq)
    refine ⟨⟨name, c.offset, d.offset, e.pieces c⟩, by simp [pieces, hrun], rfl, ?_⟩
    rw [Piece.chars, hstart, hstop] at hP
    exact hP

/-- The rounds of a repetition and those of reading its constructs are the same. -/
theorem each_repeatPieces (h : Yields text e R) (he : e.consumes = true) {c d : Cursor}
    {vs : List α} (hc : c.In text) (hv : Rounds e.Reads c vs d) {bound : List Char}
    (hb : c.rest.length ≤ bound.length) :
    Each R vs (repeatPieces e.run? e.pieces c bound) := by
  induction hv generalizing bound with
  | @stop c hno =>
    have hrun := (run?_eq_none_iff h.wellFormed).mpr hno
    cases bound with
    | nil => exact .nil
    | cons x bound =>
      simp only [repeatPieces, hrun]
      exact .nil
  | @round c d _ v vs hv hrest ih =>
    have hrun := (run?_eq_some_iff h.wellFormed).mpr hv
    obtain ⟨s, hs, hne⟩ := hv.exists_passes
    have hpos := List.length_pos_iff.mpr (hne he)
    have hlength := hs.length_eq
    cases bound with
    | nil =>
      rw [List.length_nil] at hb
      omega
    | cons x bound =>
      simp only [repeatPieces, hrun]
      rw [List.length_cons] at hb
      exact .cons (h.related c v d hc hv) (ih (hc.passes hs) (by omega))

theorem Yields.star (h : Yields text e R) (he : e.consumes = true) :
    Yields text (star e) (Each R) where
  wellFormed := Bool.and_eq_true_iff.mpr ⟨he, h.wellFormed⟩
  related _ _ _ hc hv := each_repeatPieces h he hc hv (Nat.le_refl _)

theorem Yields.skipTo (hfirst : Yields text first fun _ ps => ps = [])
    (hsecond : Yields text second T) : Yields text (skipTo first second) T := by
  refine (hfirst.both hsecond).map fun v ps h => ?_
  obtain ⟨qs, rs, rfl, rfl, h⟩ := h
  exact h

theorem Yields.optional (h : Yields text e R) :
    Yields text (optional e) fun v ps => (v = none ∧ ps = []) ∨ ∃ w, v = some w ∧ R w ps :=
  .either (h.map fun v _ h => .inr ⟨v, rfl, h⟩)
    ((yields_unnamed rfl rfl).map fun _ _ h => .inl ⟨rfl, h⟩)

theorem Yields.starWith {filler : Peg ν Unit} (h : Yields text e R) (he : e.consumes = true)
    (hfiller : Yields text filler fun _ ps => ps = []) :
    Yields text (starWith filler e) (Each R) := by
  have hround : (Peg.skipTo filler e).consumes = true := by
    simp [Peg.skipTo, consumes, he]
  refine .either ((h.both ((hfiller.skipTo h).star hround)).map fun v ps hv => ?_)
    ((yields_unnamed rfl rfl).map fun _ _ hps => hps ▸ .nil)
  obtain ⟨qs, rs, rfl, hv, hrest⟩ := hv
  exact .cons hv hrest

end Peg

end TapeMachine
