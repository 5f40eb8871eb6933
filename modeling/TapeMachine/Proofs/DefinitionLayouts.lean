import TapeMachine.Proofs.BlockTexts
import TapeMachine.Proofs.HeaderTexts
import TapeMachine.Proofs.ListingOutcome
import TapeMachine.Proofs.ResolvedSets

/-!
# Every layout of a definition reads back as the definition

A text that writes a definition is a listing with the sections and blocks that it writes, also when
white space at its ends is taken away first. So the builder finds every section once, one start
state and no block twice, and what it puts together is the definition, up to the order of its
blocks.
-/

namespace TapeMachine.Listing

open Peg
open scoped Computability

section Reading

variable {sections : List Section} {blocks : List (State × List Rule)}

private theorem takesTo_end :
    TakesTo (after (many newline) (.named .endOfText .endOfText)) lastLines {[]} fun _ => True := by
  have hend : TakesTo (.named .endOfText .endOfText : Expr Unit) 1 {[]} fun _ => True := by
    rintro _ rfl _ rfl c hc hstops
    exact ⟨(), c, c, ⟨hc, rfl⟩, reads_filler_of_stops hstops, hc, trivial⟩
  have hlines : TakesTo (many newline) lastLines (1 * {[]}) fun _ => True := by
    rw [lastLines_eq, one_mul]
    exact takesTo_many_newline le_rfl (lineTail_fills fun r hr => hr ▸ nil_mem_lineEnds)
      fun r hr x hx => by rw [hr] at hx; cases hx
  have hboth := hlines.after hend
  rwa [mul_one] at hboth

private theorem takesTo_rulesSection (h : ∀ b ∈ blocks, WritableBlock b) :
    TakesTo rules ({Construct.rules.label.toList} * gap * {[':']} *
        (blocks.map fun b => lineTail * lineBreaks * blockTexts b).prod * lineTail) lastLines
      fun v => v.map (fun b => (b.value.state, b.value.rules)) = blocks := by
  have hcolon : TakesTo (after (word ":") (many (after newlines (.located stateBlock))))
      ({[':']} * lineTail * (blocks.map fun b => lineBreaks * blockTexts b * lineTail).prod)
      lastLines fun v => v.map (fun b => (b.value.state, b.value.rules)) = blocks :=
    (takesTo_word ":" (lineTail_fills (prod_lines_le_lineEnds blockTexts blocks
      lastLines_le_lineEnds))).after (takesTo_blocks h)
  have hlabel := (takesTo_word "rules"
    (by simp only [mul_assoc]; exact gap_fills_char rfl _)).after hcolon
  rw [mul_assoc _ _ lineTail, prod_lines]
  simp only [mul_assoc] at hlabel ⊢
  exact hlabel.named _

/-- The sections and the blocks of a listing are read, and nothing is left. -/
theorem takesTo_listing (hs : ∀ s ∈ sections, WritableSection s)
    (hb : ∀ b ∈ blocks, WritableBlock b) :
    TakesTo (seq (many (before (.located header) newlines))
        (before rules (after (many newline) (.named .endOfText .endOfText))))
      (coreTexts sections blocks * trailing) {[]}
      fun v => v.1.map (·.value.trimmed) = sections ∧
        v.2.map (fun b => (b.value.state, b.value.rules)) = blocks := by
  have hrules := ((takesTo_rulesSection hb).mono (mul_one lastLines).le fun _ h => h).before
    takesTo_end
  have hall := ((takesTo_sections hs _).mono (by simp only [mul_assoc]; rfl) fun _ h => h).seq
    hrules
  simp only [coreTexts, trailing, mul_assoc] at hall ⊢
  exact hall

private theorem coreTexts_le_words (sections : List Section) (blocks : List (State × List Rule)) :
    coreTexts sections blocks ≤ words := by
  simp only [coreTexts, mul_assoc]
  cases sections with
  | nil => exact (one_mul _).le.trans (words_mul (char_le_words rfl _) _)
  | cons s sections =>
    simp only [List.map_cons, List.prod_cons, mul_assoc]
    exact words_mul (sectionTexts_le_words s) _

private theorem exists_matches (hs : ∀ s ∈ sections, WritableSection s)
    (hb : ∀ b ∈ blocks, WritableBlock b) {text : List Char}
    (h : text ∈ leading * coreTexts sections blocks * trailing) :
    ∃ l, Matches text l ∧ l.sections.map (·.value.trimmed) = sections ∧
      l.blocks.map (fun b => (b.value.state, b.value.rules)) = blocks := by
  rw [mul_assoc] at h
  obtain ⟨a, ha, s, hs', rfl⟩ := h
  have hwords : coreTexts sections blocks * trailing * {[]} ≤ words :=
    words_mul (words_mul (coreTexts_le_words _ _) _) _
  have hlisting := (takesTo_many_newline gap_le_lineTail (gap_fills hwords) (fun r hr x hx => by
    obtain ⟨y, r, rfl, hy⟩ := hwords hr
    cases hx
    grind [isWordStart])).after (takesTo_listing hs hb)
  -- filler takes what stands in front of the first line break or, without one, of the first word
  obtain ⟨t, w, hw, rfl, hfill⟩ : ∃ t w, w ∈ 1 + lineBreaks ∧ t ++ w = a ∧
      filler.Takes t (w ++ s) fun _ => True := by
    rcases ha with ha | ⟨t, ht, w, hw, rfl⟩
    · have hs : s ∈ words := words_mul (coreTexts_le_words _ _) _ hs'
      exact ⟨a, [], .inl rfl, List.append_nil a, takes_filler_gap ha (stops_of_words hs)⟩
    · exact ⟨t, w, .inr hw, rfl, lineTail_fills (lineBreaks_mul _) t ht _ ⟨w, hw, s, hs', rfl⟩⟩
  let c := Cursor.atStart (t ++ w ++ s)
  obtain ⟨_, d, hd, hrest, -⟩ := hfill c (List.append_assoc t w s)
  obtain ⟨v, e, _, hv, -, -, hsections, hblocks⟩ := hlisting _ ⟨w, hw, s, hs', rfl⟩ [] rfl d
    (hrest.trans (List.append_nil _).symm) (stops_of_reads_filler hd)
  have hafter : (after .done (after (many newline) (seq (many (before (.located header) newlines))
      (before rules (after (many newline) (.named .endOfText .endOfText)))))).Reads c v e :=
    ⟨((), v), ⟨c, rfl, ((), v), ⟨d, hd, hv⟩, rfl⟩, rfl⟩
  exact ⟨{ sections := v.1, blocks := v.2 }, ⟨e, v, hafter, rfl⟩, hsections, hblocks⟩

end Reading

section Trimming

variable {L M : Language Char} {s t : List Char}

private theorem compact_append {r : List Char} (hs : ∃ x r, s = x :: r ∧ Text.isSpace x = false)
    (hr : Compact r) : Compact (s ++ r) := by
  obtain ⟨x, s, rfl, hx⟩ := hs
  obtain ⟨r, y, rfl, hy⟩ := hr.last
  exact ⟨⟨x, _, rfl, hx⟩, x :: s ++ r, y, by simp, hy⟩

private theorem trim_append_of_spaces (h : ∀ x ∈ s, Text.isSpace x = true) (t : List Char) :
    Text.trim (s ++ t) = Text.trim t := by
  rw [Text.trim, Text.trim, Text.trimStart, List.dropWhile_append_of_pos h, Text.trimStart]

private theorem isSpace_of_isBreak {x : Char} (h : isBreak x = true) : Text.isSpace x = true := by
  rcases isBreak_iff.mp h with rfl | rfl <;> rfl

/-- Without white space in front there is nothing, or a comment comes first. -/
def Bare (a : List Char) : Prop := a ∈ leading ∧ ∀ x ∈ a.head?, x = '#'

/-- A comment with empty lines behind it. -/
theorem bare_remark (hs : s ∈ remark) (ht : Broken gap t) : Bare (s ++ t) := by
  refine ⟨.inr ⟨s, .inr ⟨[], nil_mem_gap, s, hs, rfl⟩, t, emptyLines_of_broken ht, rfl⟩, ?_⟩
  obtain ⟨body, rfl, -⟩ := hs
  rintro x ⟨⟩
  rfl

private theorem exists_bare_of_broken (h : Broken gap s) :
    ∃ g a, s = g ++ a ∧ (∀ x ∈ g, Text.isSpace x = true) ∧ Bare a := by
  have hspaces {b : Char} {g : List Char} (hb : isBreak b = true) (hg : g ∈ gap) :
      ∀ x ∈ b :: g, Text.isSpace x = true :=
    List.forall_mem_cons.mpr ⟨isSpace_of_isBreak hb, fun x hx => isSpace_of_isGap (hg x hx)⟩
  induction h with
  | @last b t hb ht => exact ⟨b :: t, [], by simp, hspaces hb ht, .inl nil_mem_gap, nofun⟩
  | @next b t s hb ht hs ih =>
    rcases ht with ht | ⟨g, hg, c, hc, rfl⟩
    · obtain ⟨g, a, rfl, hg, ha⟩ := ih
      refine ⟨b :: t ++ g, a, by simp, fun x hx => ?_, ha⟩
      exact (List.mem_append.mp hx).elim (hspaces hb ht x) (hg x)
    · exact ⟨b :: g, c ++ s, by simp, hspaces hb hg, bare_remark hc hs⟩

private theorem exists_bare_of_leading (h : s ∈ leading) :
    ∃ g a, s = g ++ a ∧ (∀ x ∈ g, Text.isSpace x = true) ∧ Bare a := by
  rcases h with hs | ⟨t, ht | ⟨g, hg, c, hc, rfl⟩, w, hw, rfl⟩
  · exact ⟨s, [], by simp, fun x hx => isSpace_of_isGap (hs x hx), .inl nil_mem_gap, nofun⟩
  · obtain ⟨g, a, rfl, hg, ha⟩ := exists_bare_of_broken (broken_of_emptyLines hw)
    refine ⟨t ++ g, a, by simp, fun x hx => ?_, ha⟩
    exact (List.mem_append.mp hx).elim (fun hx => isSpace_of_isGap (ht x hx)) (hg x)
  · exact ⟨g, c ++ w, by simp, fun x hx => isSpace_of_isGap (hg x hx),
      bare_remark hc (broken_of_emptyLines hw)⟩

private theorem prefix_append_cases {p : List Char} (h : p <+: s ++ t) :
    p <+: s ∨ ∃ q, p = s ++ q ∧ q <+: t := by
  obtain ⟨r, hr⟩ := h
  rcases List.append_eq_append_iff.mp hr with ⟨q, rfl, -⟩ | ⟨q, rfl, hq⟩
  · exact .inl ⟨q, rfl⟩
  · exact .inr ⟨q, rfl, r, hq.symm⟩

private theorem prefix_lineTail {p : List Char} (ht : t ∈ lineTail) (hp : p <+: t) :
    p ∈ lineTail := by
  have hgap {g q : List Char} (hg : g ∈ gap) (hq : q <+: g) : q ∈ lineTail :=
    gap_le_lineTail fun x hx => hg x (hq.subset hx)
  rcases ht with ht | ⟨g, hg, _, ⟨body, rfl, hbody⟩, rfl⟩
  · exact hgap ht hp
  · rcases prefix_append_cases hp with hp | ⟨q, rfl, hq⟩
    · exact hgap hg hp
    · rcases List.prefix_cons_iff.mp hq with rfl | ⟨r, rfl, hr⟩
      · exact hgap hg (by simp)
      · exact .inr ⟨g, hg, _, ⟨r, rfl, fun x hx => hbody x (hr.subset hx)⟩, rfl⟩

private theorem mem_trailing (ht : t ∈ lineTail) : t ∈ trailing :=
  ⟨t, ht, [], Language.nil_mem_kstar _, List.append_nil t⟩

private theorem append_break_mem_trailing {b : Char} (ht : t ∈ lineTail) (hb : isBreak b = true)
    (hs : s ∈ trailing) : t ++ b :: s ∈ trailing := by
  obtain ⟨u, hu, w, hw, rfl⟩ := hs
  have hlines : lineEnd * lineTail * lastLines ≤ lastLines := mul_kstar_le_kstar
  exact ⟨t, ht, _, hlines ⟨b :: u, ⟨[b], break_mem_lineEnd hb, u, hu, rfl⟩, w, hw, rfl⟩, rfl⟩

private theorem prefix_trailing_of_broken {p : List Char} (ht : t ∈ lineTail)
    (hs : Broken lineTail s) (hp : p <+: t ++ s) : p ∈ trailing := by
  induction hs generalizing t p with
  | @last b u hb hu =>
    rcases prefix_append_cases hp with hp | ⟨q, rfl, hq⟩
    · exact mem_trailing (prefix_lineTail ht hp)
    · rcases List.prefix_cons_iff.mp hq with rfl | ⟨r, rfl, hr⟩
      · simpa using mem_trailing ht
      · exact append_break_mem_trailing ht hb (mem_trailing (prefix_lineTail hu hr))
  | @next b u s hb hu _ ih =>
    rcases prefix_append_cases hp with hp | ⟨q, rfl, hq⟩
    · exact mem_trailing (prefix_lineTail ht hp)
    · rcases List.prefix_cons_iff.mp hq with rfl | ⟨r, rfl, hr⟩
      · simpa using mem_trailing ht
      · exact append_break_mem_trailing ht hb (ih hu hr)

/-- What is left of the end of a text when characters behind it are taken away is another end. -/
theorem prefix_trailing {p : List Char} (h : s ∈ trailing) (hp : p <+: s) : p ∈ trailing := by
  obtain ⟨t, ht, w, hw, rfl⟩ := h
  rw [lastLines_eq] at hw
  rcases hw with rfl | hw
  · exact mem_trailing (prefix_lineTail ht (by simpa using hp))
  · exact prefix_trailing_of_broken ht (broken_of_emptyLines hw) hp

/-- Texts that do not start with white space. -/
def inkedStarts : Language Char := {s | ∃ x r, s = x :: r ∧ Text.isSpace x = false}

/-- Texts that do not end with white space. -/
def inkedEnds : Language Char := {s | ∃ r x, s = r ++ [x] ∧ Text.isSpace x = false}

private theorem inkedStarts_mul (h : L ≤ inkedStarts) (M : Language Char) :
    L * M ≤ inkedStarts := by
  rintro _ ⟨s, hs, t, -, rfl⟩
  obtain ⟨x, r, rfl, hx⟩ := h hs
  exact ⟨x, r ++ t, rfl, hx⟩

private theorem mul_inkedEnds (h : M ≤ inkedEnds) (L : Language Char) : L * M ≤ inkedEnds := by
  rintro _ ⟨s, -, t, ht, rfl⟩
  obtain ⟨r, x, rfl, hx⟩ := h ht
  exact ⟨s ++ r, x, (List.append_assoc ..).symm, hx⟩

private theorem mul_prod_inkedEnds {α : Type} {f : α → Language Char} {xs : List α}
    (h : L ≤ inkedEnds) (hf : ∀ x ∈ xs, f x ≤ inkedEnds) : L * (xs.map f).prod ≤ inkedEnds := by
  induction xs generalizing L with
  | nil => simpa using h
  | cons x xs ih =>
    rw [List.map_cons, List.prod_cons, ← mul_assoc]
    exact ih (mul_inkedEnds (hf x (.head _)) L) fun y hy => hf y (.tail _ hy)

private theorem label_le_inkedStarts (construct : Construct) :
    ({construct.label.toList} : Language Char) ≤ inkedStarts := by
  rintro _ rfl
  cases construct <;> exact ⟨_, _, rfl, rfl⟩

private theorem coreTexts_le_inkedStarts (sections : List Section)
    (blocks : List (State × List Rule)) :
    coreTexts sections blocks ≤ inkedStarts := by
  simp only [coreTexts, mul_assoc]
  cases sections with
  | nil => exact (one_mul _).le.trans (inkedStarts_mul (label_le_inkedStarts _) _)
  | cons s sections =>
    cases s <;> simp only [List.map_cons, List.prod_cons, sectionTexts, labelTexts, mul_assoc] <;>
      exact inkedStarts_mul (label_le_inkedStarts _) _

private theorem isSpace_of_isIdentifierChar {x : Char} (h : isIdentifierChar x = true) :
    Text.isSpace x = false := by
  have hcode : (65 ≤ x.toNat ∧ x.toNat ≤ 90) ∨ (97 ≤ x.toNat ∧ x.toNat ≤ 122) ∨
      (48 ≤ x.toNat ∧ x.toNat ≤ 57) ∨ x.toNat = 95 := by
    simp only [isIdentifierChar, Char.isAlphanum, Char.isAlpha, Char.isUpper, Char.isLower,
      Char.isDigit, Bool.or_eq_true, Bool.and_eq_true, decide_eq_true_eq, beq_iff_eq, ge_iff_le,
      UInt32.le_iff_toNat_le, Char.toNat_val] at h
    rcases h with ((h | h) | h) | rfl
    · exact .inl h
    · exact .inr (.inl h)
    · exact .inr (.inr (.inl h))
    · exact .inr (.inr (.inr rfl))
  simp [Text.isSpace]
  omega

private theorem stateTexts_le_inkedEnds {q : State} (hq : IsStateName q) :
    stateTexts q ≤ inkedEnds := by
  rintro _ rfl
  have hne : q.toList ≠ [] := fun h => hq.1 (String.toList_eq_nil_iff.mp h)
  exact ⟨_, _, (List.dropLast_append_getLast hne).symm,
    isSpace_of_isIdentifierChar (hq.2 _ (List.getLast_mem hne))⟩

private theorem coreTexts_le_inkedEnds {sections : List Section} {blocks : List (State × List Rule)}
    (hb : ∀ b ∈ blocks, WritableBlock b) : coreTexts sections blocks ≤ inkedEnds := by
  have hcolon : ({[':']} : Language Char) ≤ inkedEnds := by
    rintro _ rfl
    exact ⟨[], ':', rfl, rfl⟩
  refine mul_prod_inkedEnds (mul_inkedEnds hcolon _) fun b hmem => mul_inkedEnds ?_ _
  refine mul_prod_inkedEnds (mul_inkedEnds hcolon _) fun r hr => mul_inkedEnds ?_ _
  exact mul_inkedEnds (stateTexts_le_inkedEnds ((hb b hmem).rules r hr).nextState) _

/-- Trimming a text of a listing leaves a text of the same listing. -/
theorem trim_mem {sections : List Section} {blocks : List (State × List Rule)}
    (hb : ∀ b ∈ blocks, WritableBlock b) {text : List Char}
    (h : text ∈ leading * coreTexts sections blocks * trailing) :
    Text.trim text ∈ leading * coreTexts sections blocks * trailing := by
  obtain ⟨_, ⟨a, ha, s, hs, rfl⟩, z, hz, rfl⟩ := h
  obtain ⟨g, a, rfl, hg, ha, hsign⟩ := exists_bare_of_leading ha
  have hcore : Compact s := ⟨coreTexts_le_inkedStarts _ _ hs, coreTexts_le_inkedEnds hb hs⟩
  have hcompact : Compact (a ++ s) := by
    cases a with
    | nil => exact hcore
    | cons x a => exact compact_append ⟨x, a, rfl, hsign x rfl ▸ rfl⟩ hcore
  have htrim : Text.trim (g ++ (a ++ s ++ z)) = a ++ s ++ z.rdropWhile Text.isSpace := by
    rw [trim_append_of_spaces hg, hcompact.trim_append]
  simp only [← List.append_assoc] at htrim
  simp only [htrim]
  exact ⟨_, ⟨a, ha, s, hs, rfl⟩, _, prefix_trailing hz (List.rdropWhile_prefix ..), rfl⟩

end Trimming

section Building

private theorem not_noRepeats_of_firstRepeat {κ : Type} {key : α → Option κ} {xs : List α} {x : α}
    (h : FirstRepeat key xs x) : ¬ NoRepeats key xs := by
  obtain ⟨before, after, rfl, -, k, hk, hmem⟩ := h
  intro hnodup
  have hbefore : k ∈ before.filterMap key := by simpa [List.mem_filterMap] using hmem
  rw [NoRepeats, List.filterMap_append, List.nodup_append] at hnodup
  exact hnodup.2.2 k hbefore k (by simp [hk]) rfl

/-- The state that a section names as the start state. -/
def Section.start? : Section → Option State
  | .start state => some state
  | _ => none

variable {d : Definition} {l : Listing} {sections omitted : List Section}
  {blocks : List (State × List Rule)}

/-- A listing says what a definition says, where default sections may be omitted. -/
structure SaysAll (l : Listing) (d : Definition) : Prop where
  sections : ∃ omitted ⊆ defaultSections,
    (l.sections.map (·.value.trimmed) ++ omitted).Perm d.sections
  blocks : (l.blocks.map fun b => (b.value.state, b.value.rules)).Perm d.rules.entries

namespace SaysAll

variable (h : SaysAll l d)

include h

private theorem mem_sections {s : Section} (hs : s ∈ l.sections.map (·.value.trimmed)) :
    s ∈ d.sections := by
  obtain ⟨omitted, -, hperm⟩ := h.sections
  exact hperm.subset (List.mem_append_left _ hs)

private theorem mem_or_default {s : Section} (hs : s ∈ d.sections) :
    s ∈ l.sections.map (·.value.trimmed) ∨ s ∈ defaultSections := by
  obtain ⟨omitted, hdefault, hperm⟩ := h.sections
  exact (List.mem_append.mp (hperm.mem_iff.mpr hs)).imp id (hdefault ·)

private theorem noRepeats_sections : NoRepeats sectionKey l.sections := by
  obtain ⟨omitted, -, hperm⟩ := h.sections
  have hconstruct (s : Section) : s.trimmed.construct = s.construct := by cases s <;> rfl
  have hnodup : (d.sections.map Section.construct).Nodup := by
    simp [Definition.sections, Section.construct]
  have hvalues : (l.sections.map (·.value.construct)).Nodup := by
    rw [← (hperm.map _).nodup_iff, List.map_append, List.nodup_append] at hnodup
    simpa [Function.comp_def, hconstruct] using hnodup.1
  have hkeys : l.sections.filterMap sectionKey = (l.sections.map (·.value.construct)).filterMap
      fun c => if c = .start then none else some c := by
    rw [List.filterMap_map]
    rfl
  rw [NoRepeats, hkeys]
  exact hvalues.filterMap fun c c' k hk hk' => by grind

private theorem noRepeats_blocks : NoRepeats blockKey l.blocks := by
  have hkeys : l.blocks.filterMap blockKey =
      (l.blocks.map fun b => (b.value.state, b.value.rules)).map Prod.fst := by
    rw [List.map_map]
    exact congrFun (List.filterMap_eq_map (f := fun b : Located Block => b.value.state)) l.blocks
  rw [NoRepeats, hkeys, (h.blocks.map _).nodup_iff]
  exact d.rules.nodup

private theorem starts_eq : starts l.sections = [d.startState] := by
  obtain ⟨omitted, hdefault, hperm⟩ := h.sections
  have hstarts : starts l.sections =
      (l.sections.map (·.value.trimmed)).filterMap Section.start? := by
    rw [List.filterMap_map, starts]
    refine List.filterMap_congr fun s _ => ?_
    cases hs : s.value <;> simp [Section.start?, hs, Section.trimmed]
  have homitted : omitted.filterMap Section.start? = [] := by
    refine List.filterMap_eq_nil_iff.mpr fun s hs => ?_
    have := hdefault hs
    simp only [defaultSections, List.mem_cons, List.not_mem_nil, or_false] at this
    rcases this with rfl | rfl | rfl | rfl | rfl | rfl | rfl <;> rfl
  have hall := hperm.filterMap Section.start?
  rw [List.filterMap_append, homitted, List.append_nil, ← hstarts] at hall
  exact List.perm_singleton.mp hall

private theorem exists_name : ∃ chars, .name chars ∈ l.sections.map (·.value) := by
  have hname : .name d.name.toList ∈ d.sections := .head _
  rcases h.mem_or_default hname with hmem | hmem
  · obtain ⟨s, hs, htrimmed⟩ := List.mem_map.mp hmem
    cases hv : s.value with
    | name chars => exact ⟨chars, List.mem_map.mpr ⟨s, hs, hv⟩⟩
    | _ =>
      rw [hv] at htrimmed
      cases htrimmed
  · simp [defaultSections] at hmem

/-- What is given for a section other than the name is what the definition says. -/
theorem given_eq {α : Type} {make : α → Section} {default v x : α}
    (hgiven : l.Given make default v) (hx : ∀ w, make w ∈ d.sections ↔ w = x)
    (hdefault : make x ∈ defaultSections → x = default) (hname : ∀ w chars, make w ≠ .name chars) :
    v = x := by
  have htrim (s : Section) (w : α) : s.trimmed = make w ↔ s = make w := by
    cases s with
    | name chars => exact ⟨fun h => absurd h.symm (hname w _), fun h => absurd h.symm (hname w _)⟩
    | _ => rfl
  have hmem (w : α) : make w ∈ l.sections.map (·.value) ↔
      make w ∈ l.sections.map (·.value.trimmed) := by
    simp only [List.mem_map, htrim]
  rcases hgiven with hsaid | ⟨hnone, rfl⟩
  · exact (hx v).mp (h.mem_sections ((hmem v).mp hsaid))
  · rcases h.mem_or_default ((hx x).mpr rfl) with hsaid | hsaid
    · exact absurd ((hmem x).mpr hsaid) (hnone x)
    · exact (hdefault hsaid).symm

private theorem eq_of_assembles {d' : Definition} (hd' : Assembles l d') :
    d' = { d with rules := d'.rules } := by
  have hname : d'.name = d.name := by
    obtain ⟨chars, hchars, hname⟩ := hd'.name
    obtain ⟨s, hs, hvalue⟩ := List.mem_map.mp hchars
    have hmem := h.mem_sections (List.mem_map.mpr ⟨s, hs, congrArg Section.trimmed hvalue⟩)
    have hchars : Text.trim chars = d.name.toList := by
      simpa [Section.trimmed, Definition.sections] using hmem
    rw [hname, hchars, String.ofList_toList]
  have hstart : d'.startState = d.startState := by
    simpa using hd'.startState.symm.trans h.starts_eq
  have hkind : d'.kind = d.kind :=
    h.given_eq hd'.kind (by simp [Definition.sections]) (by simp [defaultSections])
      (by simp)
  have hstates : d'.states = d.states :=
    h.given_eq hd'.states (by simp [Definition.sections]) (by simp [defaultSections])
      (by simp)
  have hinput : d'.inputAlphabet = d.inputAlphabet :=
    h.given_eq hd'.inputAlphabet (by simp [Definition.sections]) (by simp [defaultSections])
      (by simp)
  have htape : d'.tapeAlphabet = d.tapeAlphabet :=
    h.given_eq hd'.tapeAlphabet (by simp [Definition.sections]) (by simp [defaultSections])
      (by simp)
  have hblank : d'.blank = d.blank :=
    h.given_eq hd'.blank (by simp [Definition.sections]) (by simp [defaultSections])
      (by simp)
  have haccept : d'.acceptStates = d.acceptStates :=
    h.given_eq hd'.acceptStates (by simp [Definition.sections]) (by simp [defaultSections])
      (by simp)
  have hreject : d'.rejectStates = d.rejectStates :=
    h.given_eq hd'.rejectStates (by simp [Definition.sections]) (by simp [defaultSections])
      (by simp)
  rw [← hname, ← hstart, ← hkind, ← hstates, ← hinput, ← htape, ← hblank, ← haccept, ← hreject]

/-- The builder answers with the definition. -/
theorem built {text : List Char} {answer : Except Failure Definition}
    (hbuilt : Built text l answer) :
    ∃ rules : Table (List Rule), rules.entries.Perm d.rules.entries ∧
      answer = .ok { d with rules } := by
  cases hbuilt with
  | repeatedSection hs => exact absurd h.noRepeats_sections (not_noRepeats_of_firstRepeat hs)
  | repeatedBlock _ hb => exact absurd h.noRepeats_blocks (not_noRepeats_of_firstRepeat hb)
  | missingName _ _ hname =>
    obtain ⟨chars, hchars⟩ := h.exists_name
    exact absurd hchars (hname chars)
  | missingStart _ _ _ hstart => exact absurd (h.starts_eq.symm.trans hstart) nofun
  | multipleStarts _ _ _ hstart =>
    rw [h.starts_eq] at hstart
    simp at hstart
  | @assembled d' _ _ hd' =>
    refine ⟨d'.rules, ?_, congrArg _ (h.eq_of_assembles hd')⟩
    rw [hd'.rules]
    exact h.blocks

end SaysAll

end Building

end TapeMachine.Listing

namespace TapeMachine.Definition

open Listing

variable {d : Definition}

/-- The order in which the states have their rules does not matter. -/
theorem sameMeaning_of_perm {rules : Table (List Rule)} (h : rules.entries.Perm d.rules.entries) :
    d.SameMeaning { d with rules } where
  kind := rfl
  blank := rfl
  startState := rfl
  rules q := Table.get?_of_perm h q
  acceptStates _ := .rfl
  rejectStates _ := .rfl
  stateSet := by
    have hkeys : rules.keys.Perm d.rules.keys := h.map _
    simp only [stateSet]
    split
    · refine sortedSet_congr fun q => ?_
      simp only [List.mem_filter, List.mem_append, hkeys.mem_iff]
    · rfl
  tapeSymbols := rfl
  inputSymbols := rfl

theorem Writable.section (h : d.Writable) : ∀ s ∈ d.sections, WritableSection s := by
  have hname : WritableSection (.name d.name.toList) :=
    ⟨.of_trim (mt String.toList_eq_nil_iff.mp h.name_ne) h.name_trim, h.name_sign, h.name_line⟩
  have hstates {qs : List State} (hqs : ∀ q ∈ qs, q ∈ d.namedStates) : ∀ q ∈ qs, IsStateName q :=
    fun q hq => h.states q (hqs q hq)
  have hsymbols {cs : List Symbol} (hcs : ∀ c ∈ cs, c ∈ d.namedSymbols) : ∀ c ∈ cs, c ≠ '\x27' :=
    fun c hc => h.symbols c (hcs c hc)
  simp only [sections, List.forall_mem_cons, WritableSection]
  refine ⟨hname, trivial, h.symbols _ ?_, hsymbols ?_, hsymbols ?_, hstates ?_, h.states _ ?_,
    hstates ?_, hstates ?_, nofun⟩ <;> simp +contextual [namedStates, namedSymbols]

theorem Writable.block (h : d.Writable) : ∀ b ∈ d.rules.entries, WritableBlock b := by
  rintro ⟨q, rules⟩ hb
  have hrule (r) (hr : r ∈ rules) : r ∈ d.allRules := List.mem_flatMap.mpr ⟨_, hb, hr⟩
  have hkey : q ∈ d.rules.keys := List.mem_map.mpr ⟨_, hb, rfl⟩
  refine ⟨h.states q (by simp [namedStates, hkey]), fun r hr => ?_⟩
  have hsymbols : r.read ∈ d.namedSymbols ∧ r.write ∈ d.namedSymbols := by
    simp only [namedSymbols, List.mem_append, List.mem_flatMap]
    exact ⟨.inr ⟨r, hrule r hr, by simp⟩, .inr ⟨r, hrule r hr, by simp⟩⟩
  have hstate : r.nextState ∈ d.namedStates :=
    List.mem_append_right _ (List.mem_map.mpr ⟨r, hrule r hr, rfl⟩)
  exact ⟨h.symbols _ hsymbols.1, h.symbols _ hsymbols.2, h.states _ hstate⟩

/-- Every layout of a definition reads back as the definition. -/
theorem parse_of_mem_texts (hd : d.validate = .ok ()) (hw : d.Writable) {text : String}
    (h : text.toList ∈ d.texts) : ∃ rules : Table (List Rule), rules.entries.Perm d.rules.entries ∧
      Definition.parse text = .ok { d with rules } := by
  obtain ⟨sections, omitted, blocks, hsections, homitted, hblocks, htext⟩ := h
  have hblock (b) (hb : b ∈ blocks) : WritableBlock b := hw.block b (hblocks.mem_iff.mp hb)
  have hsection (s) (hs : s ∈ sections) : WritableSection s :=
    hw.section s (hsections.subset (List.mem_append_left _ hs))
  obtain ⟨l, hmatches, hs, hb⟩ := exists_matches hsection hblock (trim_mem hblock htext)
  have hsays : SaysAll l d := ⟨⟨omitted, homitted, hs ▸ hsections⟩, hb ▸ hblocks⟩
  have hanswer {answer : Except Failure Definition} {l' : Listing}
      (hl : Matches (Text.trim text.toList) l') (hbuilt : Built (Text.trim text.toList) l' answer) :
      ∃ rules : Table (List Rule), rules.entries.Perm d.rules.entries ∧
        answer = .ok { d with rules } := by
    obtain ⟨_, hl⟩ := hl
    obtain ⟨_, hmatches⟩ := hmatches
    obtain ⟨rfl, -⟩ := hmatches.unique hl
    exact hsays.built hbuilt
  have houtcome : Outcome (Text.trim text.toList) (Definition.parse text) := outcome_parseChars _
  generalize Definition.parse text = answer at houtcome ⊢
  cases houtcome with
  | unmatched hrejects =>
    obtain ⟨_, hmatches⟩ := hmatches
    exact absurd hmatches (hrejects _ _)
  | refused hl hbuilt =>
    obtain ⟨_, -, herror⟩ := hanswer hl hbuilt
    cases herror
  | malformed hl hbuilt hfault =>
    obtain ⟨rules, hperm, hok⟩ := hanswer hl hbuilt
    cases hok
    rw [(sameMeaning_of_perm hperm).validate, hd] at hfault
    cases hfault
  | wellFormed hl hbuilt _ => exact hanswer hl hbuilt

/-- A definition whose name, states and symbols look like other parts of a text. -/
def lookalike : Definition where
  name := "rules: # name"
  tapeAlphabet := ['-', '\n']
  blank := '#'
  startState := "rules"
  acceptStates := ["name"]
  rules := ⟨[("rules", [⟨'-', '\n', .left, "rules"⟩, ⟨'#', '#', .stay, "name"⟩]), ("name", [])],
    by decide⟩

/-- A text that writes it, with the sections and the blocks in another order. -/
def lookalikeText : String :=
  "# a listing\r\n\tblank:'#'#quoted\nstart:rules\rname:rules: # name \n\ntape:-, '\n'\n" ++
    "accept:[name]\nrules: # unordered\nname:\nrules:\n--> '\n' ,<,rules\n'#',-,name\n"

section Lookalike

private theorem isBreak_of_all {s : List Char} (h : s.all (!isBreak ·) = true) :
    ∀ x ∈ s, isBreak x = false := fun x hx => by
  simpa using List.all_eq_true.mp h x hx

private theorem isStateName_of_all {q : State} (hne : q ≠ "")
    (h : q.toList.all isIdentifierChar = true) :
    IsStateName q := ⟨hne, List.all_eq_true.mp h⟩

private theorem writable_lookalike : lookalike.Writable where
  name_ne := by decide
  name_trim := by decide +kernel
  name_line := isBreak_of_all (by decide)
  name_sign := by decide
  states q hq := by
    have hmem : ∀ q ∈ lookalike.namedStates, q = "rules" ∨ q = "name" := by decide
    rcases hmem q hq with rfl | rfl <;> exact isStateName_of_all (by decide) (by decide)
  symbols c hc hquote := by
    have hmem : '\x27' ∉ lookalike.namedSymbols := by decide
    exact hmem (hquote ▸ hc)

private theorem mem_gap {g : List Char} (h : g.all isGap = true) : g ∈ gap := List.all_eq_true.mp h

private theorem mem_remark (body : List Char) (h : body.all (!isBreak ·) = true) :
    '#' :: body ∈ remark :=
  ⟨body, rfl, isBreak_of_all h⟩

private theorem mem_lineBreaks {e g : List Char} (he : e ∈ lineEnd) (hg : g ∈ gap) :
    e ++ g ∈ lineBreaks :=
  ⟨[], Language.nil_mem_kstar _, e ++ g, Language.append_mem_mul he hg, rfl⟩

private theorem newline_mem_lineBreaks : ['\n'] ∈ lineBreaks :=
  mem_lineBreaks (.inl rfl) nil_mem_gap

private theorem emptyLine_mem_lastLines {e : List Char} (he : e ∈ lineEnd) : e ∈ lastLines := by
  have h : [e].flatten ∈ lastLines := Language.join_mem_kstar fun s hs =>
    ⟨e, he, [], nil_mem_lineTail, (List.append_nil e).trans (List.mem_singleton.mp hs).symm⟩
  rwa [List.flatten_singleton] at h

private theorem label_mem_labelTexts (construct : Construct) :
    construct.label.toList ++ [':'] ∈ labelTexts construct :=
  ⟨_, ⟨_, ⟨_, rfl, _, nil_mem_gap, List.append_nil _⟩, _, rfl, rfl⟩, _, nil_mem_gap,
    List.append_nil _⟩

private theorem mem_texts_lookalike : lookalikeText.toList ∈ lookalike.texts := by
  have space : [' '] ∈ gap := mem_gap rfl
  have newline := newline_mem_lineBreaks
  have label := label_mem_labelTexts
  have hfirst : "# a listing\r\n\t".toList ∈ leading :=
    .inr ⟨_, .inr ⟨_, nil_mem_gap, _, mem_remark " a listing".toList rfl, rfl⟩, _,
      mem_lineBreaks (.inr (.inl rfl)) (mem_gap (g := ['\t']) rfl), rfl⟩
  have hblank : "blank:'#'#quoted\n".toList ∈ sectionTexts (.blank '#') * lineBreaks :=
    ⟨_, ⟨_, ⟨_, label .blank, _, .inl rfl, rfl⟩, _,
      .inr ⟨_, nil_mem_gap, _, mem_remark "quoted".toList rfl, rfl⟩, rfl⟩, _, newline, rfl⟩
  have hstart : "start:rules\r".toList ∈ sectionTexts (.start "rules") * lineBreaks :=
    ⟨_, ⟨_, ⟨_, label .start, _, rfl, rfl⟩, _, nil_mem_lineTail, rfl⟩, _,
      mem_lineBreaks (.inr (.inr rfl)) nil_mem_gap, rfl⟩
  have hname : "name:rules: # name \n\n".toList ∈
      sectionTexts (.name lookalike.name.toList) * lineBreaks :=
    ⟨_, ⟨_, ⟨_, label .name, _, rfl, rfl⟩, _, space, rfl⟩, _,
      ⟨_, emptyLine_mem_lastLines (.inl rfl), _, ⟨_, .inl rfl, _, nil_mem_gap, rfl⟩, rfl⟩, rfl⟩
  have htape : "tape:-, '\n'\n".toList ∈ sectionTexts (.tape ['-', '\n']) * lineBreaks :=
    ⟨_, ⟨_, ⟨_, label .tape, _, .inl ⟨_, ⟨_, ⟨_, ⟨_, .inr ⟨rfl, rfl⟩, _, nil_mem_gap, rfl⟩, _, rfl,
      rfl⟩, _, space, rfl⟩, _, .inl rfl, rfl⟩, rfl⟩, _, nil_mem_lineTail, rfl⟩, _, newline, rfl⟩
  have haccept : "accept:[name]\n".toList ∈ sectionTexts (.accept ["name"]) * lineBreaks :=
    ⟨_, ⟨_, ⟨_, label .accept, _, .inr ⟨_, ⟨_, ⟨_, ⟨_, rfl, _, nil_mem_gap, rfl⟩, _, rfl, rfl⟩, _,
      nil_mem_gap, rfl⟩, _, rfl, rfl⟩, rfl⟩, _, nil_mem_lineTail, rfl⟩, _, newline, rfl⟩
  have hleft : "--> '\n' ,<,rules".toList ∈ ruleTexts ⟨'-', '\n', .left, "rules"⟩ := by
    have hwrite : "-> '\n' ".toList ∈ writeTexts ⟨'-', '\n', .left, "rules"⟩ := by
      rw [writeTexts, if_neg (by decide)]
      exact ⟨_, ⟨_, ⟨_, rfl, _, space, rfl⟩, _, .inl rfl, rfl⟩, _, space, rfl⟩
    exact ⟨_, ⟨_, ⟨_, ⟨_, ⟨_, ⟨_, ⟨_, ⟨_, ⟨_, .inr ⟨rfl, rfl⟩, _, nil_mem_gap, rfl⟩, _, hwrite,
      rfl⟩, _, rfl, rfl⟩, _, nil_mem_gap, rfl⟩, _, .inr rfl, rfl⟩, _, nil_mem_gap, rfl⟩, _, rfl,
      rfl⟩, _, nil_mem_gap, rfl⟩, _, rfl, rfl⟩
  have hstay : "'#',-,name".toList ∈ ruleTexts ⟨'#', '#', .stay, "name"⟩ := by
    have hwrite : [] ∈ writeTexts ⟨'#', '#', .stay, "name"⟩ := by
      rw [writeTexts, if_pos rfl]
      exact .inl rfl
    exact ⟨_, ⟨_, ⟨_, ⟨_, ⟨_, ⟨_, ⟨_, ⟨_, ⟨_, .inl rfl, _, nil_mem_gap, rfl⟩, _, hwrite, rfl⟩, _,
      rfl, rfl⟩, _, nil_mem_gap, rfl⟩, _, .inr (.inr rfl), rfl⟩, _, nil_mem_gap, rfl⟩, _, rfl,
      rfl⟩, _, nil_mem_gap, rfl⟩, _, rfl, rfl⟩
  have hempty : "name:".toList ∈ blockTexts ("name", []) :=
    ⟨_, ⟨_, ⟨_, rfl, _, nil_mem_gap, rfl⟩, _, rfl, rfl⟩, _, rfl, rfl⟩
  have hrules : "rules:\n--> '\n' ,<,rules\n'#',-,name".toList ∈
      blockTexts ("rules", [⟨'-', '\n', .left, "rules"⟩, ⟨'#', '#', .stay, "name"⟩]) :=
    ⟨_, ⟨_, ⟨_, rfl, _, nil_mem_gap, rfl⟩, _, rfl, rfl⟩, _,
      ⟨_, ⟨_, ⟨_, nil_mem_lineTail, _, newline, rfl⟩, _, hleft, rfl⟩, _,
        ⟨_, ⟨_, ⟨_, nil_mem_lineTail, _, newline, rfl⟩, _, hstay, rfl⟩, _, rfl, rfl⟩, rfl⟩, rfl⟩
  have hlast : "\n".toList ∈ trailing :=
    ⟨_, nil_mem_lineTail, _, emptyLine_mem_lastLines (.inl rfl), rfl⟩
  have hremark : " # unordered".toList ∈ lineTail :=
    .inr ⟨_, space, _, mem_remark " unordered".toList rfl, rfl⟩
  have hheader := Language.append_mem_mul hblank <| Language.append_mem_mul hstart <|
    Language.append_mem_mul hname <| Language.append_mem_mul htape <|
    Language.append_mem_mul haccept Language.nil_mem_one
  have hblocks := Language.append_mem_mul (Language.append_mem_mul (Language.append_mem_mul
      hremark newline) hempty) <|
    Language.append_mem_mul (Language.append_mem_mul (Language.append_mem_mul nil_mem_lineTail
      newline) hrules) Language.nil_mem_one
  refine ⟨[.blank '#', .start "rules", .name lookalike.name.toList, .tape ['-', '\n'],
      .accept ["name"]], [.kind .deterministic, .input [], .states [], .reject []],
    [("name", []), ("rules", [⟨'-', '\n', .left, "rules"⟩, ⟨'#', '#', .stay, "name"⟩])],
    by decide, by decide, by decide,
    _, ⟨_, hfirst, _, ⟨_, ⟨_, ⟨_, ⟨_, hheader, _, rfl, rfl⟩, _, nil_mem_gap, rfl⟩, _, rfl, rfl⟩, _,
      hblocks, rfl⟩, rfl⟩, _, hlast, by decide +kernel⟩

end Lookalike

/-- The text reads back, with the blocks in the order of the text. -/
theorem parse_of_mem_texts_lookalike :
    (lookalike.validate = .ok () ∧ lookalike.Writable ∧ lookalikeText.toList ∈ lookalike.texts) ∧
      ∃ rules : Table (List Rule), rules.entries.Perm lookalike.rules.entries ∧
        Definition.parse lookalikeText = .ok { lookalike with rules } := by
  have hvalid : lookalike.validate = .ok () := by decide +kernel
  exact ⟨⟨hvalid, writable_lookalike, mem_texts_lookalike⟩,
    parse_of_mem_texts hvalid writable_lookalike mem_texts_lookalike⟩

end TapeMachine.Definition
