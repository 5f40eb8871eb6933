import TapeMachine.Proofs.LineTexts

/-!
# Symbols, states and lists are read back

The grammar reads each text of a symbol or a state as that symbol or state, and each text of a list,
with brackets or without, as the list. A state is read up to a character that cannot be part of it;
what follows a symbol does not matter.
-/

namespace TapeMachine.Listing

open Peg
open scoped Computability

variable {α : Type}

/-- Texts that do not go on with the name of a state. -/
def apart : Language Char := {s | ∀ x ∈ s.head?, isIdentifierChar x = false}

section Words

variable {F T : Language Char} {c : Symbol} {q : State}

theorem char_le_words {x : Char} (h : isWordStart x = true) (s : List Char) :
    ({x :: s} : Language Char) ≤ words := by
  rintro _ rfl
  exact ⟨x, s, rfl, h⟩

theorem isWordStart_of_isBareSymbol {x : Char} (h : isBareSymbol x = true) :
    isWordStart x = true := by
  grind [isBareSymbol, isWordStart]

theorem isBareSymbol_of_isIdentifierChar {x : Char} (h : isIdentifierChar x = true) :
    isBareSymbol x = true := by
  by_contra hbare
  have : x = ' ' ∨ x = '\t' ∨ x = '\n' ∨ x = '\r' ∨ x = ',' ∨ x = '[' ∨ x = ']' ∨ x = '\x27' ∨
      x = '#' := by
    grind [isBareSymbol, isGap, isBreak]
  rcases this with rfl | rfl | rfl | rfl | rfl | rfl | rfl | rfl | rfl <;> cases h

theorem isWordStart_of_isIdentifierChar {x : Char} (h : isIdentifierChar x = true) :
    isWordStart x = true :=
  isWordStart_of_isBareSymbol (isBareSymbol_of_isIdentifierChar h)

theorem symbolTexts_le_words (c : Symbol) : symbolTexts c ≤ words := by
  rintro _ (rfl | ⟨hc, rfl⟩)
  · exact char_le_words rfl _ rfl
  · exact char_le_words (isWordStart_of_isBareSymbol hc) _ rfl

theorem exists_toList_eq_cons (hq : IsStateName q) : ∃ x xs, q.toList = x :: xs :=
  List.exists_cons_of_ne_nil fun h => hq.1 (String.toList_eq_nil_iff.mp h)

theorem stateTexts_le_words (hq : IsStateName q) : stateTexts q ≤ words := by
  obtain ⟨x, xs, hx⟩ := exists_toList_eq_cons hq
  rw [stateTexts, hx]
  exact char_le_words (isWordStart_of_isIdentifierChar (hq.2 x (hx ▸ .head _))) _

theorem lineEnds_le_apart : lineEnds ≤ apart := by
  intro s hs x hx
  rcases isBreak_iff.mp (hs x hx) with rfl | rfl <;> rfl

theorem char_mul_le_apart {x : Char} (hx : isIdentifierChar x = false) (L : Language Char) :
    {[x]} * L ≤ apart := by
  rintro _ ⟨_, rfl, s, -, rfl⟩ _ ⟨⟩
  exact hx

private theorem lineTail_mul_le_apart (hF : F ≤ apart) : lineTail * F ≤ apart := by
  rintro _ ⟨t, ht, r, hr, rfl⟩
  cases t with
  | nil => exact hF hr
  | cons y t =>
    rintro _ ⟨⟩
    rcases head_lineTail ht with hy | rfl
    · rcases isGap_iff.mp hy with rfl | rfl <;> rfl
    · rfl

theorem takes_symbol (hc : c ≠ '\x27') {s r : List Char} (hs : s ∈ symbolTexts c) :
    symbol.Takes s r (· = c) := by
  rcases hs with rfl | ⟨hbare, rfl⟩
  · exact (((takes_literal ['\x27']).skipTo
      ((takes_char (by simpa using hc)).endBy (takes_literal ['\x27']))).left _).named _
  · refine ((takes_char hbare).right (((rejectsAt_literal ?_).both _).map _)).named _
    rintro ⟨s, hs⟩
    exact hc (List.cons.inj hs).1.symm

private theorem takes_identifier (hq : IsStateName q) {r : List Char} (hr : r ∈ apart) :
    identifier.Takes q.toList r (· = q) := by
  obtain ⟨x, xs, hx⟩ := exists_toList_eq_cons hq
  have hall := hq.2
  rw [hx, List.forall_mem_cons] at hall
  have h := (takes_char (ν := Construct) hall.1).both (takes_span hall.2 hr)
  rw [hx]
  refine (h.map fun v hv => ?_).named _
  change String.ofList (v.1 :: v.2) = q
  rw [hv.1, hv.2, ← hx, String.ofList_toList]

theorem takesTo_word (w : String) (hT : Fills T F) :
    TakesTo (word w) ({w.toList} * T) F fun _ => True :=
  takesTo_of_takes (fun _ hs _ _ => hs ▸ takes_literal _) hT

theorem takesTo_symbol (hc : c ≠ '\x27') (hT : Fills T F) :
    TakesTo symbol (symbolTexts c * T) F (· = c) :=
  takesTo_of_takes (fun _ hs _ _ => takes_symbol hc hs) hT

theorem takesTo_identifier (hq : IsStateName q) (hT : Fills T F) (hle : T ≤ lineTail)
    (hF : F ≤ apart) : TakesTo identifier (stateTexts q * T) F (· = q) := by
  refine takesTo_of_takes (fun s hs r hr => ?_) hT
  obtain rfl : s = q.toList := hs
  exact takes_identifier hq (lineTail_mul_le_apart hF (mul_le_mul_left hle F hr))

end Words

section Lists

variable {item : Expr α} {texts : α → Language Char} {x : α} {xs : List α} {T F : Language Char}

/-- An item of a list, which starts with no bracket, is read up to a comma, a bracket or the end of
a line. -/
structure ReadsItem (item : Expr α) (texts : α → Language Char) (x : α) : Prop where
  takesTo {T F : Language Char} (hT : Fills T F) (hle : T ≤ lineTail) (hF : F ≤ apart) :
    TakesTo item (texts x * T) F (· = x)
  words : texts x ≤ words
  unbracketed : ∀ s ∈ texts x, s.head? ≠ some '['

theorem gap_fills_char {y : Char} (hy : isWordStart y = true) (L : Language Char) :
    Fills gap ({[y]} * L) :=
  gap_fills (words_mul (char_le_words hy []) L)

section CommaList

variable (h : ∀ y ∈ x :: xs, ReadsItem item texts y)

include h

private theorem commaTexts_le_words : commaTexts texts x xs ≤ words := by
  cases xs with
  | nil => exact (h x (.head _)).words
  | cons y ys =>
    simp only [commaTexts, mul_assoc]
    exact words_mul (h x (.head _)).words _

private theorem head_commaTexts {s : List Char} (hs : s ∈ commaTexts texts x xs * F) :
    s.head? ≠ some '[' := by
  have hx := h x (.head _)
  have hsplit : ∃ M, commaTexts texts x xs * F = texts x * M := by
    cases xs with
    | nil => exact ⟨F, rfl⟩
    | cons y ys =>
      exact ⟨gap * {[',']} * gap * commaTexts texts y ys * F, by simp only [commaTexts, mul_assoc]⟩
  obtain ⟨M, hM⟩ := hsplit
  rw [hM] at hs
  obtain ⟨t, ht, r, -, rfl⟩ := hs
  have hhead := hx.unbracketed t ht
  obtain ⟨y, t, rfl, -⟩ := hx.words ht
  exact hhead

variable (hT : Fills T F) (hle : T ≤ lineTail) (hF : F ≤ apart)
  (hstop : ∀ r ∈ F, r.head? ≠ some ',')

include hT hle hF hstop

/-- The first item takes the space behind it, and each further one is read with the comma before
it. -/
theorem exists_takesTo_items :
    ∃ U M, commaTexts texts x xs * T = texts x * U * M ∧
      TakesTo item (texts x * U) (M * F) (· = x) ∧
      RepeatsTo (after (word ",") item) M F (· = xs) := by
  induction xs generalizing x with
  | nil =>
    refine ⟨T, 1, (mul_one _).symm, ?_, repeatsTo_nil (refuses_after_word ?_ item)⟩
    rotate_left
    · rintro _ hr ⟨s, rfl⟩
      exact hstop _ hr rfl
    rw [one_mul]
    exact (h x (.head _)).takesTo hT hle hF
  | cons y ys ih =>
    obtain ⟨U, M, hM, hitem, hrest⟩ := ih fun z hz => h z (.tail _ hz)
    have hy : texts y ≤ words := (h y (.tail _ (.head _))).words
    have hcomma : TakesTo (word ",") ({[',']} * gap) (texts y * U * (M * F)) fun _ => True :=
      takesTo_word "," (gap_fills (words_mul (words_mul hy U) _))
    refine ⟨gap, {[',']} * gap * (texts y * U) * M, ?_, ?_, ?_⟩
    · simp only [commaTexts, mul_assoc] at hM ⊢
      rw [hM]
    · simp only [mul_assoc]
      exact (h x (.head _)).takesTo (gap_fills_char rfl _) gap_le_lineTail (char_mul_le_apart rfl _)
    · refine ((hcomma.after hitem).cons hrest).mono le_rfl fun vs hvs => ?_
      obtain ⟨_, _, rfl, rfl, rfl⟩ := hvs
      rfl

private theorem takesTo_commaList :
    TakesTo (commaList item) (commaTexts texts x xs * T) F (· = x :: xs) := by
  obtain ⟨U, M, hM, hitem, hrest⟩ := exists_takesTo_items h hT hle hF hstop
  rw [hM]
  refine (hitem.seq hrest.many).map fun v hv => ?_
  obtain ⟨y, ys⟩ := v
  obtain ⟨rfl, rfl⟩ := hv
  rfl

end CommaList

theorem TakesTo.optional {e : Expr α} {L : Language Char} {P : α → Prop} (h : TakesTo e L F P) :
    TakesTo (optional e) L F fun v => ∃ x, v = some x ∧ P x :=
  (h.map fun x hx => ⟨x, rfl, hx⟩).left _

theorem takesTo_optional_none {e : Expr α} (h : Refuses e F) :
    TakesTo (Peg.optional e) 1 F (· = none) := by
  refine TakesTo.right ?_ fun r hr => (h r (one_mul F ▸ hr)).map _
  rintro _ rfl r hr c hc hstops
  exact ⟨none, c, c, ⟨(), rfl, rfl⟩, reads_filler_of_stops hstops, hc, rfl⟩

private theorem takesTo_list (h : ∀ y ∈ xs, ReadsItem item texts y)
    (hclosed : ∀ r, item.RejectsAt (']' :: r)) :
    TakesTo (list item) (listTexts texts xs * lineTail) lineEnds (· = xs) := by
  have hopen (L : Language Char) (hL : L ≤ words) :
      TakesTo (word "[") ({['[']} * gap) L fun _ => True := takesTo_word "[" (gap_fills hL)
  have hclose : TakesTo (word "]") ({[']']} * lineTail) lineEnds fun _ => True :=
    takesTo_word "]" (lineTail_fills le_rfl)
  have hbracket : ({[']']} * lineTail * lineEnds : Language Char) ≤ words :=
    words_mul (words_mul (char_le_words rfl []) _) _
  cases xs with
  | nil =>
    have hrefuse : Refuses (commaList item) ({[']']} * lineTail * lineEnds) := by
      rintro _ ⟨_, ⟨_, rfl, t, -, rfl⟩, r, -, rfl⟩
      exact ((hclosed _).both _).map _
    have hnone : TakesTo (.map (·.getD []) (optional (commaList item))) 1
        ({[']']} * lineTail * lineEnds) (· = []) :=
      (takesTo_optional_none hrefuse).map fun v hv => by rw [hv, Option.getD_none]
    have hlist := (hopen _ (by rwa [one_mul])).after (hnone.before hclose)
    simp only [listTexts, mul_assoc, one_mul] at hlist ⊢
    exact hlist.left _
  | cons x xs =>
    have hrefuse : Refuses (after (word "[") (before (.map (·.getD []) (optional (commaList item)))
        (word "]"))) (commaTexts texts x xs * lineTail * lineEnds) := by
      rw [mul_assoc]
      refine refuses_after_word ?_ _
      rintro _ hr ⟨s, rfl⟩
      exact head_commaTexts h hr rfl
    have hbare := (takesTo_commaList h (lineTail_fills le_rfl) le_rfl lineEnds_le_apart
      fun r hr hcomma => nomatch hr _ hcomma).right hrefuse
    have hitems := takesTo_commaList (F := {[']']} * lineTail * lineEnds) h (gap_fills hbracket)
      gap_le_lineTail (mul_assoc _ lineTail _ ▸ char_mul_le_apart rfl _)
      (by rintro _ ⟨_, ⟨_, rfl, t, -, rfl⟩, r, -, rfl⟩; simp)
    have hsome : TakesTo (.map (·.getD []) (optional (commaList item)))
        (commaTexts texts x xs * gap) ({[']']} * lineTail * lineEnds) (· = x :: xs) :=
      hitems.optional.map fun v ⟨vs, hv, hvs⟩ => by rw [hv, Option.getD_some, hvs]
    have hwords : commaTexts texts x xs * gap * ({[']']} * lineTail) * lineEnds ≤ words :=
      words_mul (words_mul (words_mul (commaTexts_le_words h) _) _) _
    have hbracketed := (hopen _ hwords).after (hsome.before hclose)
    rw [listTexts, add_mul]
    rintro s (hs | hs)
    · exact hbare s hs
    · simp only [mul_assoc] at hs hbracketed
      exact hbracketed.left _ s hs

theorem listTexts_le_words (h : ∀ y ∈ xs, ReadsItem item texts y) : listTexts texts xs ≤ words := by
  have hbracket : ({['[']} : Language Char) ≤ words := char_le_words rfl _
  cases xs with
  | nil =>
    simp only [listTexts, mul_assoc]
    exact words_mul hbracket _
  | cons x xs =>
    simp only [listTexts, mul_assoc]
    rintro s (hs | hs)
    · exact commaTexts_le_words h hs
    · exact words_mul hbracket _ hs

theorem readsItem_symbol {c : Symbol} (hc : c ≠ '\x27') : ReadsItem symbol symbolTexts c where
  takesTo hT _ _ := takesTo_symbol hc hT
  words := symbolTexts_le_words c
  unbracketed := by
    rintro _ (rfl | ⟨hbare, rfl⟩) hhead
    · cases hhead
    · cases hhead
      cases hbare

theorem readsItem_state {q : State} (hq : IsStateName q) : ReadsItem identifier stateTexts q where
  takesTo hT hle hF := takesTo_identifier hq hT hle hF
  words := stateTexts_le_words hq
  unbracketed := by
    rintro _ rfl hhead
    obtain ⟨x, xs, hx⟩ := exists_toList_eq_cons hq
    rw [hx] at hhead
    cases hhead
    cases hq.2 '[' (hx ▸ .head _)

theorem rejectsAt_symbol {r : List Char} (h : ∀ x ∈ r.head?, x ≠ '\x27' ∧ isBareSymbol x = false) :
    symbol.RejectsAt r := by
  refine ((((rejectsAt_literal ?_).both _).map _).either
    (rejectsAt_char fun x hx => (h x hx).2)).named _
  rintro ⟨s, rfl⟩
  exact (h '\x27' rfl).1 rfl

theorem rejectsAt_identifier {r : List Char} (h : r ∈ apart) : identifier.RejectsAt r :=
  (((rejectsAt_char h).both _).map _).named _

theorem takesTo_symbols {cs : List Symbol} (h : ∀ c ∈ cs, c ≠ '\x27') :
    TakesTo symbols (listTexts symbolTexts cs * lineTail) lineEnds (· = cs) :=
  (takesTo_list (fun c hc => readsItem_symbol (h c hc)) fun r => rejectsAt_symbol fun x hx => by
    cases hx
    exact ⟨by decide, rfl⟩).named _

theorem takesTo_identifiers {qs : List State} (h : ∀ q ∈ qs, IsStateName q) :
    TakesTo identifiers (listTexts stateTexts qs * lineTail) lineEnds (· = qs) :=
  (takesTo_list (fun q hq => readsItem_state (h q hq)) fun r => rejectsAt_identifier fun x hx => by
    cases hx
    rfl).named _

end Lists

end TapeMachine.Listing
