import TapeMachine.Proofs.ListTexts

/-!
# Rules and blocks are read back

The grammar reads each text of a rule as the rule, and each text of a block as its state with its
rules. A line that starts another block is no rule, although its first character may be a symbol, so
the rules of a block end where the next block or the end of the text is.
-/

namespace TapeMachine.Listing

open Peg
open scoped Computability

variable {α β : Type}

section Rules

/-- The symbols and the state of a rule can be written down. -/
structure WritableRule (r : Rule) : Prop where
  read : r.read ≠ '\x27'
  write : r.write ≠ '\x27'
  nextState : IsStateName r.nextState

private theorem takesTo_direction (d : Direction) {T F : Language Char} (hT : Fills T F) :
    TakesTo direction (directionTexts d * T) F (· = d) := by
  refine takesTo_of_takes (fun s hs r _ c hc => ?_) hT
  have hrun : direction.run? ⟨c.offset, s ++ r⟩ = some (d, ⟨c.offset + 1, r⟩) := by
    cases d with
    | left | right => rcases hs with rfl | rfl <;> rfl
    | stay => rcases hs with rfl | rfl | rfl <;> rfl
  rw [← hc] at hrun
  exact ⟨d, _, (run?_eq_some_iff rfl).mp hrun, rfl, rfl⟩

private theorem directionTexts_le_words (d : Direction) : directionTexts d ≤ words := by
  intro s hs
  cases d with
  | left | right => rcases hs with rfl | rfl <;> exact char_le_words rfl _ rfl
  | stay => rcases hs with rfl | rfl | rfl <;> exact char_le_words rfl _ rfl

variable {r : Rule}

private theorem writeTexts_mul_le_words (L : Language Char) :
    writeTexts r * ({[',']} * L) ≤ words := by
  have hcomma : ({[',']} : Language Char) ≤ words := char_le_words rfl _
  have harrow : {['-', '>']} * gap * symbolTexts r.write * gap * ({[',']} * L) ≤ words := by
    simp only [mul_assoc]
    exact words_mul (char_le_words rfl _) _
  rw [writeTexts]
  split
  · rw [add_mul, one_mul]
    rintro s (hs | hs)
    · exact words_mul hcomma _ hs
    · exact harrow hs
  · exact harrow

/-- In front of a comma, the symbol to write is read, or there is none and the rule writes what it
reads. -/
theorem takesTo_write (hr : WritableRule r) (L : Language Char) :
    TakesTo (optional (after (word "->") (.named .write symbol))) (writeTexts r) ({[',']} * L)
      fun v => v.getD r.read = r.write := by
  have hsymbol : TakesTo (.named .write symbol) (symbolTexts r.write * gap) ({[',']} * L)
      (· = r.write) := (takesTo_symbol hr.write (gap_fills_char rfl L)).named _
  have hword : TakesTo (word "->") ({['-', '>']} * gap)
      (symbolTexts r.write * gap * ({[',']} * L)) fun _ => True :=
    takesTo_word "->" (gap_fills (words_mul (words_mul (symbolTexts_le_words _) _) _))
  have harrow : TakesTo (optional (after (word "->") (.named .write symbol)))
      ({['-', '>']} * gap * symbolTexts r.write * gap) ({[',']} * L)
      fun v => v.getD r.read = r.write := by
    rw [mul_assoc]
    refine (hword.after hsymbol).optional.mono le_rfl fun v hv => ?_
    obtain ⟨w, rfl, rfl⟩ := hv
    rfl
  have hrefuse : Refuses (after (word "->") (.named .write symbol)) ({[',']} * L) := by
    refine refuses_after_word ?_ _
    rintro _ ⟨_, rfl, s, -, rfl⟩ ⟨t, ht⟩
    cases (List.cons.inj ht).1
  rw [writeTexts]
  split
  case isTrue h =>
    rintro s (hs | hs)
    · exact (takesTo_optional_none hrefuse).mono le_rfl (fun v hv => by rw [hv, h]; rfl) s hs
    · exact harrow s hs
  case isFalse => exact harrow

private theorem takesTo_transition (hr : WritableRule r) :
    TakesTo transition (ruleTexts r * lineTail) lineEnds (· = r) := by
  have hcomma (L : Language Char) (hL : L ≤ words) :
      TakesTo (word ",") ({[',']} * gap) L fun _ => True := takesTo_word "," (gap_fills hL)
  have hstate : TakesTo identifier (stateTexts r.nextState * lineTail) lineEnds (· = r.nextState) :=
    takesTo_identifier hr.nextState (lineTail_fills le_rfl) le_rfl lineEnds_le_apart
  have hstate' := (hcomma _ (words_mul (words_mul (stateTexts_le_words hr.nextState) _) _)).after
    hstate
  have hdirection := (takesTo_direction r.direction
    (by simp only [mul_assoc]; exact gap_fills_char rfl _)).seq hstate'
  have hdirection' := (hcomma _ (words_mul (words_mul (words_mul (directionTexts_le_words _) _) _)
    _)).after hdirection
  have hwrite := ((takesTo_write hr _).mono (by simp only [mul_assoc]; rfl) fun _ h => h).seq
    hdirection'
  have hread := ((takesTo_symbol hr.read (gap_fills
    (by simp only [mul_assoc]; exact writeTexts_mul_le_words _))).named .read).seq hwrite
  simp only [ruleTexts, mul_assoc] at hread ⊢
  refine (hread.map fun v hv => ?_).named _
  obtain ⟨_, _, _, _⟩ := v
  obtain ⟨rfl, hw, rfl, rfl⟩ := hv
  simp only at hw ⊢
  rw [hw]

/-- The rules of a block can be written down, and its state. -/
structure WritableBlock (b : State × List Rule) : Prop where
  state : IsStateName b.1
  rules : ∀ r ∈ b.2, WritableRule r

variable {b : State × List Rule}

/-- The lines of several values, each of which starts a new line, end where a line ends. The rest of
a line may as well be counted to the value behind it as to the one before. -/
theorem prod_lines (f : α → Language Char) (xs : List α) :
    (xs.map fun x => lineTail * lineBreaks * f x).prod * lineTail =
      lineTail * (xs.map fun x => lineBreaks * f x * lineTail).prod := by
  induction xs with
  | nil => simp
  | cons x xs ih => simp only [List.map_cons, List.prod_cons, mul_assoc] at ih ⊢; rw [ih]

theorem prod_lines_le_lineEnds (f : α → Language Char) (xs : List α) {F : Language Char}
    (hF : F ≤ lineEnds) : (xs.map fun x => lineBreaks * f x * lineTail).prod * F ≤ lineEnds := by
  cases xs with
  | nil => simpa using hF
  | cons x xs =>
    simp only [List.map_cons, List.prod_cons, mul_assoc]
    exact lineBreaks_mul _

private theorem ruleTexts_le_words (r : Rule) : ruleTexts r ≤ words := by
  simp only [ruleTexts, mul_assoc]
  exact words_mul (symbolTexts_le_words _) _

/-- Texts at the end of a line behind which no line with a rule follows. -/
def ruleless : Language Char := {s | s ∈ lineEnds ∧ (after newlines transition).RejectsAt s}

private theorem ruleless_le_lineEnds : ruleless ≤ lineEnds := fun _ h => h.1

private theorem takesTo_rules {rules : List Rule} (h : ∀ r ∈ rules, WritableRule r) :
    TakesTo (many (after newlines transition))
      (rules.map fun r => lineBreaks * ruleTexts r * lineTail).prod ruleless (· = rules) := by
  have hround (r) (hr : r ∈ rules) : TakesTo (after newlines transition)
      (lineBreaks * ruleTexts r * lineTail) lineEnds (id · = r) := by
    rw [mul_assoc]
    exact (takesTo_lineBreaks (words_mul (words_mul (ruleTexts_le_words r) _) _)).after
      (takesTo_transition (h r hr))
  have hnext (r) (_ : r ∈ rules) : lineBreaks * ruleTexts r * lineTail * lineEnds ≤ lineEnds := by
    simp only [mul_assoc]
    exact lineBreaks_mul _
  refine (takesTo_many_prod hround hnext ruleless_le_lineEnds fun s hs => hs.2).mono le_rfl ?_
  exact fun vs hvs => by rwa [List.map_id] at hvs

private theorem blockTexts_le_words (hb : WritableBlock b) : blockTexts b ≤ words := by
  simp only [blockTexts, mul_assoc]
  exact words_mul (stateTexts_le_words hb.state) _

private theorem takesTo_stateBlock (hb : WritableBlock b) :
    TakesTo stateBlock (blockTexts b * lineTail) ruleless (· = { state := b.1, rules := b.2 }) := by
  have hcolon : TakesTo (after (word ":") (many (after newlines transition)))
      ({[':']} * lineTail * (b.2.map fun r => lineBreaks * ruleTexts r * lineTail).prod) ruleless
      (· = b.2) :=
    (takesTo_word ":" (lineTail_fills (prod_lines_le_lineEnds ruleTexts b.2
      ruleless_le_lineEnds))).after (takesTo_rules hb.rules)
  have hstate := (takesTo_identifier hb.state
    (by simp only [mul_assoc]; exact gap_fills_char rfl _) gap_le_lineTail
    (by simp only [mul_assoc]; exact char_mul_le_apart rfl _)).seq hcolon
  rw [blockTexts, mul_assoc _ _ lineTail, prod_lines]
  simp only [mul_assoc] at hstate ⊢
  refine (hstate.map fun v hv => ?_).named _
  obtain ⟨q, rules⟩ := v
  obtain ⟨rfl, rfl⟩ := hv
  rfl

/-- A character that a state may start with is a symbol, but with neither an arrow nor a comma
behind it there is no rule. -/
theorem refuses_transition {x : Char} {T F : Language Char} (hx : isIdentifierChar x = true)
    (hT : Fills T F) (hF : F ≤ words) (hhead : ∀ r ∈ F, r.head? ≠ some '-' ∧ r.head? ≠ some ',') :
    Refuses transition ({[x]} * T * F) := by
  have hbare := isBareSymbol_of_isIdentifierChar hx
  have hquote : x ≠ '\x27' := by
    rintro rfl
    cases hx
  have hsymbol : TakesTo (.named .read symbol) ({[x]} * T) F (· = x) :=
    takesTo_of_takes (fun s hs r _ => takes_symbol hquote (.inr ⟨hbare, hs⟩)) hT
  have harrow : Refuses (after (word "->") (.named .write symbol)) F := by
    refine refuses_after_word ?_ _
    rintro _ hr ⟨s, rfl⟩
    exact (hhead _ hr).1 rfl
  have hcomma : Refuses (after (word ",") (seq direction (after (word ",") identifier))) F := by
    refine refuses_after_word ?_ _
    rintro _ hr ⟨s, rfl⟩
    exact (hhead _ hr).2 rfl
  have hrest : Refuses (seq (optional (after (word "->") (.named .write symbol)))
      (after (word ",") (seq direction (after (word ",") identifier)))) F := by
    have h := (takesTo_optional_none harrow).refuses_seq hcomma
    rw [one_mul] at h
    exact h fun r hr => stops_of_words (hF hr)
  have hwords : {[x]} * T * F ≤ words :=
    words_mul (words_mul (char_le_words (isWordStart_of_isBareSymbol hbare) _) _) _
  have hall := hsymbol.refuses_seq hrest fun r hr => stops_of_words (hwords hr)
  exact fun r hr => ((hall r hr).map _).named _

private theorem refuses_transition_block (hb : WritableBlock b) (F : Language Char) :
    Refuses transition (blockTexts b * F) := by
  obtain ⟨x, xs, hq⟩ := exists_toList_eq_cons hb.state
  have hall := hb.state.2
  rw [hq, List.forall_mem_cons] at hall
  simp only [blockTexts, stateTexts, hq, mul_assoc]
  cases xs with
  | nil =>
    rw [← mul_assoc]
    refine refuses_transition hall.1 (gap_fills_char rfl _) (words_mul (char_le_words rfl _) _) ?_
    rintro _ ⟨_, rfl, s, -, rfl⟩
    simp
  | cons y ys =>
    have hy := hall.2 y (.head _)
    have hword := char_le_words (isWordStart_of_isIdentifierChar hy) ys
    have hsplit : ({x :: y :: ys} : Language Char) = {[x]} * 1 * {y :: ys} := by
      rw [mul_one, singleton_mul_singleton]
      rfl
    rw [hsplit, mul_assoc _ {y :: ys}]
    refine refuses_transition hall.1 ?_ (words_mul hword _) ?_
    · rintro _ rfl r hr
      exact takes_filler_gap nil_mem_gap (stops_of_words (words_mul hword _ hr))
    · rintro _ ⟨_, rfl, s, -, rfl⟩
      constructor <;> rintro ⟨⟩ <;> cases hy

private theorem refuses_transition_nil : Refuses transition {[]} := by
  rintro _ rfl
  exact ((((rejectsAt_symbol (r := []) nofun).named .read).both _).map _).named _

private theorem refuses_stateBlock_nil : Refuses stateBlock {[]} := by
  rintro _ rfl
  exact (((rejectsAt_identifier (lineEnds_le_apart nil_mem_lineEnds)).both _).map _).named _

/-- Behind empty lines at the end of a text nothing is read that needs a character. -/
theorem refuses_after_newlines {e : Expr α} (h : Refuses e {[]}) :
    Refuses (after newlines e) lastLines := by
  have hnone : ∀ r ∈ ({[]} : Language Char), ∀ x ∈ r.head?, isBreak x = false := by
    rintro _ rfl x hx
    cases hx
  have hfill : Fills lineTail {[]} := lineTail_fills fun r hr => hr ▸ nil_mem_lineEnds
  have hlines := (takesTo_newlines le_rfl hfill hnone).refuses_seq h
  rw [show ({[]} : Language Char) = 1 from rfl, mul_one] at hlines
  rw [lastLines_eq]
  rintro r (rfl | hr)
  · exact ((((refuses_newline hnone [] rfl).both _).map _).both _).map _
  · exact (hlines (fun s hs => stops_of_lineEnds (emptyLines_le_lineEnds lineTail hs)) r hr).map _

private theorem lastLines_le_ruleless : lastLines ≤ ruleless := fun s hs =>
  ⟨lastLines_le_lineEnds hs, refuses_after_newlines refuses_transition_nil s hs⟩

private theorem block_mul_le_ruleless (hb : WritableBlock b) (F : Language Char) :
    lineBreaks * blockTexts b * F ≤ ruleless := by
  rw [mul_assoc]
  have hlines := (takesTo_lineBreaks (words_mul (blockTexts_le_words hb) F)).refuses_seq
    (refuses_transition_block hb F) fun s hs => stops_of_lineEnds (lineBreaks_mul _ hs)
  exact fun s hs => ⟨lineBreaks_mul _ hs, (hlines s hs).map _⟩

/-- All blocks of a text are read, up to the empty lines behind the last one. -/
theorem takesTo_blocks {blocks : List (State × List Rule)} (h : ∀ b ∈ blocks, WritableBlock b) :
    TakesTo (many (after newlines (.located stateBlock)))
      (blocks.map fun b => lineBreaks * blockTexts b * lineTail).prod lastLines
      fun v => v.map (fun b => (b.value.state, b.value.rules)) = blocks := by
  have hround (b) (hb : b ∈ blocks) : TakesTo (after newlines (.located stateBlock))
      (lineBreaks * blockTexts b * lineTail) ruleless
      fun l => (l.value.state, l.value.rules) = b := by
    rw [mul_assoc]
    refine (takesTo_lineBreaks (words_mul (words_mul (blockTexts_le_words (h b hb)) _) _)).after
      ((takesTo_stateBlock (h b hb)).located.mono le_rfl fun l hl => ?_)
    rw [hl]
  have hnext (b) (hb : b ∈ blocks) :
      lineBreaks * blockTexts b * lineTail * ruleless ≤ ruleless := by
    rw [mul_assoc]
    exact block_mul_le_ruleless (h b hb) _
  exact takesTo_many_prod hround hnext lastLines_le_ruleless
    (refuses_after_newlines fun r hr => (refuses_stateBlock_nil r hr).located)

end Rules

end TapeMachine.Listing
