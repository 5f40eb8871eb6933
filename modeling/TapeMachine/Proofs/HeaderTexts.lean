import TapeMachine.Proofs.ListTexts

/-!
# Header sections are read back

The grammar reads each line of a section as the section, up to white space behind a name, and all
sections of a header up to the label of the rules. No label is the start of another one, so at most
one kind of section is found on a line.
-/

namespace TapeMachine.Listing

open Peg
open scoped Computability

variable {α : Type}

/-- A text that is not empty and has no white space at its ends. -/
structure Compact (s : List Char) : Prop where
  head : ∃ x r, s = x :: r ∧ Text.isSpace x = false
  last : ∃ r x, s = r ++ [x] ∧ Text.isSpace x = false

theorem Compact.of_trim {s : List Char} (hne : s ≠ []) (h : Text.trim s = s) : Compact s := by
  have hstart : Text.trimStart s = s := by
    have hprefix : Text.trim s <+: Text.trimStart s := List.rdropWhile_prefix ..
    have hsuffix : Text.trimStart s <:+ s := List.dropWhile_suffix _
    rw [h] at hprefix
    exact hsuffix.eq_of_length (Nat.le_antisymm hsuffix.length_le hprefix.length_le)
  have hend : s.rdropWhile Text.isSpace = s := by
    rw [Text.trim, hstart] at h
    exact h
  refine ⟨?_, s.dropLast, s.getLast hne, (List.dropLast_append_getLast hne).symm, ?_⟩
  · obtain ⟨x, r, rfl⟩ := List.exists_cons_of_ne_nil hne
    exact ⟨x, r, rfl, Bool.eq_false_iff.mpr (List.dropWhile_eq_self_iff.mp hstart (by simp))⟩
  · simpa using List.rdropWhile_eq_self_iff.mp hend hne

/-- White space is taken from the end of what follows a compact text. -/
theorem Compact.trim_append {s : List Char} (h : Compact s) (t : List Char) :
    Text.trim (s ++ t) = s ++ t.rdropWhile Text.isSpace := by
  have hstart : Text.trimStart (s ++ t) = s ++ t := by
    obtain ⟨x, r, rfl, hx⟩ := h.head
    rw [List.cons_append, Text.trimStart, List.dropWhile_cons_of_neg (by simp [hx])]
  obtain ⟨r, x, rfl, hx⟩ := h.last
  rw [Text.trim, hstart, List.rdropWhile, List.reverse_append, List.dropWhile_append]
  split
  case isTrue h =>
    rw [List.isEmpty_iff.mp h]
    simp [hx]
  case isFalse => simp

theorem isSpace_of_isGap {x : Char} (h : isGap x = true) : Text.isSpace x = true := by
  rcases isGap_iff.mp h with rfl | rfl <;> rfl

private theorem isBreak_of_isGap {x : Char} (h : isGap x = true) : isBreak x = false := by
  rcases isGap_iff.mp h with rfl | rfl <;> rfl

/-- A section with the name in it trimmed. -/
def Section.trimmed : Section → Section
  | .name chars => .name (Text.trim chars)
  | s => s

/-- What a section says can be written down. -/
def WritableSection : Section → Prop
  | .name chars => Compact chars ∧ chars.head? ≠ some '#' ∧ ∀ x ∈ chars, isBreak x = false
  | .kind _ => True
  | .blank c => c ≠ '\x27'
  | .input cs | .tape cs => ∀ c ∈ cs, c ≠ '\x27'
  | .start q => IsStateName q
  | .states qs | .accept qs | .reject qs => ∀ q ∈ qs, IsStateName q

section Sections

variable {L F : Language Char}

private theorem refuses_sectionOf {own other : Construct} {value : Expr α} {make : α → Section}
    (h : ¬ own.label.toList <+: other.label.toList ∧ ¬ other.label.toList <+: own.label.toList)
    (L : Language Char) : Refuses (sectionOf own value make) ({other.label.toList} * L) := by
  rintro _ ⟨_, rfl, s, -, rfl⟩
  refine ((((rejectsAt_literal fun hprefix => ?_).both _).map _).map _).named _
  exact (List.prefix_or_prefix_of_prefix hprefix (List.prefix_append _ _)).elim h.1 h.2

private theorem takesTo_sectionOf (construct : Construct) (make : α → Section) {value : Expr α}
    {P : α → Prop} {Q : Section → Prop} (h : TakesTo value L F P) (hL : L * F ≤ words)
    (hQ : ∀ v, P v → Q (make v)) :
    TakesTo (sectionOf construct value make) (labelTexts construct * L) F Q := by
  have hcolon : TakesTo (after (word ":") value) ({[':']} * gap * L) F P :=
    (takesTo_word ":" (gap_fills hL)).after h
  have hlabel := (takesTo_word construct.label
    (by simp only [mul_assoc]; exact gap_fills_char rfl _)).after hcolon
  simp only [labelTexts, mul_assoc] at hlabel ⊢
  exact (hlabel.map hQ).named _

private theorem takesTo_text {chars : List Char} (h : Compact chars)
    (hbreak : ∀ x ∈ chars, isBreak x = false) :
    TakesTo text ({chars} * gap) lineEnds fun v => Text.trim v = chars := by
  have hfill : Fills (1 : Language Char) lineEnds := by
    rintro _ rfl r hr
    exact takes_filler_gap nil_mem_gap (stops_of_lineEnds hr)
  rw [← mul_one ({chars} * gap)]
  refine takesTo_of_takes ?_ hfill
  rw [one_mul]
  rintro _ ⟨s, hs, g, hg, rfl⟩ r hr
  obtain rfl : chars = s := hs.symm
  have hgap : g.rdropWhile Text.isSpace = [] :=
    List.rdropWhile_eq_nil_iff.mpr fun x hx => isSpace_of_isGap (hg x hx)
  have htrim : Text.trim (chars ++ g) = chars := by rw [h.trim_append, hgap, List.append_nil]
  have hline : ∀ x ∈ chars ++ g, isBreak x = false := fun x hx =>
    (List.mem_append.mp hx).elim (hbreak x) fun hx => isBreak_of_isGap (hg x hx)
  obtain ⟨x, xs, rfl, -⟩ := h.head
  rw [List.cons_append, List.forall_mem_cons] at hline
  have htake : (both (char (!isBreak ·)) (span (!isBreak ·)) : Expr _).Takes ([x] ++ (xs ++ g)) r
      fun v => v.1 = x ∧ v.2 = xs ++ g :=
    (takes_char (by simp [hline.1])).both
      (takes_span (fun y hy => by simp [hline.2 y hy]) fun y hy => by simp [hr y hy])
  refine (htake.map fun v hv => ?_).named _
  obtain ⟨y, ys⟩ := v
  obtain ⟨rfl, rfl⟩ := hv
  exact htrim

private theorem takesTo_kindValue (k : Kind) :
    TakesTo kindValue ({k.label.toList} * lineTail) lineEnds (· = k) := by
  refine takesTo_of_takes (fun s hs r _ c hc => ?_) (lineTail_fills le_rfl)
  obtain rfl : s = k.label.toList := hs
  have hrun : kindValue.run? ⟨c.offset, k.label.toList ++ r⟩ =
      some (k, ⟨c.offset + k.label.toList.length, r⟩) := by
    cases k <;> rfl
  rw [← hc] at hrun
  exact ⟨k, _, (run?_eq_some_iff rfl).mp hrun, rfl, rfl⟩

/-- The line of a section that has a value with one language of texts. -/
theorem takesTo_section (construct : Construct) (make : α → Section) {value : Expr α} {v : α}
    (hvalue : TakesTo value (L * lineTail) lineEnds (· = v)) (hL : L ≤ words)
    (hmake : (make v).trimmed = make v) :
    TakesTo (sectionOf construct value make) (labelTexts construct * L * lineTail) lineEnds
      (·.trimmed = make v) := by
  rw [mul_assoc]
  have hwords : L * lineTail * lineEnds ≤ words := words_mul (words_mul hL _) _
  exact takesTo_sectionOf construct make hvalue hwords fun w hw => hw ▸ hmake

private theorem takesTo_header {s : Section} (h : WritableSection s) :
    TakesTo header (sectionTexts s) lineEnds (·.trimmed = s) := by
  have miss {γ : Type} {own other : Construct} {value : Expr γ} {make : γ → Section}
      {L M F : Language Char}
      (h : ¬ own.label.toList <+: other.label.toList ∧ ¬ other.label.toList <+: own.label.toList) :
      Refuses (sectionOf own value make) (labelTexts other * L * M * F) := by
    simp only [labelTexts, mul_assoc]
    exact refuses_sectionOf h _
  cases s with
  | name chars =>
    obtain ⟨hcompact, hhead, hbreak⟩ := h
    have hwords : ({chars} : Language Char) ≤ words := by
      obtain ⟨x, r, rfl, hx⟩ := hcompact.head
      refine char_le_words ?_ r
      have hgap : isGap x = false := Bool.eq_false_iff.mpr fun hgap => by
        simp [isSpace_of_isGap hgap] at hx
      have hsign : x ≠ '#' := by simpa using hhead
      simp [isWordStart, hgap, hbreak x (.head _), hsign]
    have hline := takesTo_sectionOf .name .name (takesTo_text hcompact hbreak)
      (words_mul (words_mul hwords _) _) (Q := (·.trimmed = .name chars))
      fun v hv => by rw [Section.trimmed, hv]
    rw [sectionTexts, mul_assoc]
    exact hline.left _
  | kind k =>
    have hwords : ({k.label.toList} : Language Char) ≤ words := by
      cases k <;> exact char_le_words rfl _
    have hline := takesTo_section .kind .kind (takesTo_kindValue k) hwords rfl
    exact .right (.left hline _) (miss (by decide))
  | blank c =>
    have hline := takesTo_section .blank .blank (takesTo_symbol h (lineTail_fills le_rfl))
      (symbolTexts_le_words c) rfl
    refine .right (.right (.left hline _) ?_) ?_ <;> exact miss (by decide)
  | input cs =>
    have hline := takesTo_section .input .input (takesTo_symbols h)
      (listTexts_le_words fun c hc => readsItem_symbol (h c hc)) rfl
    refine .right (.right (.right (.left hline _) ?_) ?_) ?_ <;> exact miss (by decide)
  | tape cs =>
    have hline := takesTo_section .tape .tape (takesTo_symbols h)
      (listTexts_le_words fun c hc => readsItem_symbol (h c hc)) rfl
    refine .right (.right (.right (.right (.left hline _) ?_) ?_) ?_) ?_ <;> exact miss (by decide)
  | states qs =>
    have hline := takesTo_section .states .states (takesTo_identifiers h)
      (listTexts_le_words fun q hq => readsItem_state (h q hq)) rfl
    refine .right (.right (.right (.right (.right (.left hline _) ?_) ?_) ?_) ?_) ?_ <;>
      exact miss (by decide)
  | start q =>
    have hline := takesTo_section .start .start
      (takesTo_identifier h (lineTail_fills le_rfl) le_rfl lineEnds_le_apart)
      (stateTexts_le_words h) rfl
    refine .right (.right (.right (.right (.right (.right (.left hline _) ?_) ?_) ?_) ?_) ?_) ?_ <;>
      exact miss (by decide)
  | accept qs =>
    have hline := takesTo_section .accept .accept (takesTo_identifiers h)
      (listTexts_le_words fun q hq => readsItem_state (h q hq)) rfl
    refine .right (.right (.right (.right (.right (.right (.right
      (.left hline _) ?_) ?_) ?_) ?_) ?_) ?_) ?_ <;> exact miss (by decide)
  | reject qs =>
    have hline := takesTo_section .reject .reject (takesTo_identifiers h)
      (listTexts_le_words fun q hq => readsItem_state (h q hq)) rfl
    refine .right (.right (.right (.right (.right (.right (.right (.right
      hline ?_) ?_) ?_) ?_) ?_) ?_) ?_) ?_ <;> exact miss (by decide)

private theorem labelTexts_le_words (construct : Construct) : labelTexts construct ≤ words := by
  simp only [labelTexts, mul_assoc]
  refine words_mul ?_ _
  cases construct <;> exact char_le_words rfl _

theorem sectionTexts_le_words (s : Section) : sectionTexts s ≤ words := by
  cases s <;> simp only [sectionTexts, mul_assoc] <;> exact words_mul (labelTexts_le_words _) _

/-- All sections of a header are read, up to the label of the rules. -/
theorem takesTo_sections {sections : List Section} (h : ∀ s ∈ sections, WritableSection s)
    (L : Language Char) :
    TakesTo (many (before (.located header) newlines))
      (sections.map fun s => sectionTexts s * lineBreaks).prod ({Construct.rules.label.toList} * L)
      fun v => v.map (·.value.trimmed) = sections := by
  have hstop : Refuses (before (.located header) newlines)
      ({Construct.rules.label.toList} * L) := by
    intro r hr
    have miss {γ : Type} {own : Construct} {value : Expr γ} {make : γ → Section}
        (h : ¬ own.label.toList <+: Construct.rules.label.toList ∧
          ¬ Construct.rules.label.toList <+: own.label.toList) :
        (sectionOf own value make).RejectsAt r := refuses_sectionOf h L r hr
    have hheader : header.RejectsAt r := by
      refine .either ?_ <| .either ?_ <| .either ?_ <| .either ?_ <| .either ?_ <| .either ?_ <|
        .either ?_ <| .either ?_ ?_ <;> exact miss (by decide)
    exact ((hheader.located).both _).map _
  have hround (s) (hs : s ∈ sections) : TakesTo (before (.located header) newlines)
      (sectionTexts s * lineBreaks) words (·.value.trimmed = s) :=
    ((takesTo_header (h s hs)).mono (lineBreaks_mul _) fun _ h => h).located.before
      (takesTo_lineBreaks le_rfl)
  have hnext (s) (_ : s ∈ sections) : sectionTexts s * lineBreaks * words ≤ words :=
    words_mul (words_mul (sectionTexts_le_words s) _) _
  exact takesTo_many_prod hround hnext (words_mul (char_le_words rfl _) L) hstop

end Sections

end TapeMachine.Listing
