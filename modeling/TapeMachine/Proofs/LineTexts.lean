import TapeMachine.Proofs.Layouts
import TapeMachine.Proofs.ExpressionTexts

/-!
# Texts of lines

Between the words of a line there may be spaces and tabs, and at its end a comment. `TakesTo` says
that an expression takes the texts of a language up to the next word, that is together with the
filler behind them. In this form the expressions that allow filler between their parts can be taken
apart: what is left of a text always starts with a word, and it does not matter which expression
takes the filler in front of it.
-/

namespace TapeMachine.Listing

open Peg
open scoped Computability

theorem isGap_iff {x : Char} : isGap x = true ↔ x = ' ' ∨ x = '\t' := by simp [isGap]

theorem isBreak_iff {x : Char} : isBreak x = true ↔ x = '\n' ∨ x = '\r' := by simp [isBreak]

/-- The characters that words start with. -/
def isWordStart (x : Char) : Bool := !(isGap x || isBreak x || x == '#')

/-- Texts that start with a word. -/
def words : Language Char := {s | ∃ x r, s = x :: r ∧ isWordStart x = true}

/-- Texts that start where a line ends. -/
def lineEnds : Language Char := {s | ∀ x ∈ s.head?, isBreak x = true}

theorem nil_mem_gap : [] ∈ gap := nofun

theorem gap_le_lineTail : gap ≤ lineTail := fun _ h => .inl h

theorem nil_mem_lineTail : [] ∈ lineTail := gap_le_lineTail nil_mem_gap

theorem nil_mem_lineEnds : [] ∈ lineEnds := nofun

theorem head_lineTail {x : Char} {t : List Char} (h : x :: t ∈ lineTail) :
    isGap x = true ∨ x = '#' := by
  rcases h with h | ⟨g, hg, _, ⟨body, rfl, -⟩, hx⟩
  · exact .inl (h x (.head _))
  · cases g with
    | nil => exact .inr (List.cons.inj hx).1.symm
    | cons y g => exact .inl ((List.cons.inj hx).1 ▸ hg y (.head _))

section Inclusions

variable {L : Language Char}

theorem singleton_mul_singleton (s t : List Char) :
    ({s} : Language Char) * {t} = {s ++ t} := Set.image2_singleton

theorem words_mul (h : L ≤ words) (M : Language Char) : L * M ≤ words := by
  rintro _ ⟨s, hs, t, -, rfl⟩
  obtain ⟨x, r, rfl, hx⟩ := h hs
  exact ⟨x, r ++ t, rfl, hx⟩

private theorem lineEnd_mul (L : Language Char) : lineEnd * L ≤ lineEnds := by
  rintro _ ⟨s, hs, t, -, rfl⟩ x hx
  rcases hs with rfl | rfl | rfl <;> cases hx <;> rfl

theorem emptyLines_le_lineEnds (T : Language Char) : emptyLines T ≤ lineEnds :=
  kstar_mul_le (lineEnd_mul T) (mul_assoc lineEnd lineTail lineEnds ▸ lineEnd_mul _)

theorem lastLines_eq : lastLines = 1 + emptyLines lineTail :=
  (Language.one_add_kstar_mul_self_eq_kstar _).symm

theorem lastLines_le_lineEnds : lastLines ≤ lineEnds := by
  rw [lastLines_eq]
  rintro s (rfl | hs)
  · exact nil_mem_lineEnds
  · exact emptyLines_le_lineEnds lineTail hs

theorem lineBreaks_mul (L : Language Char) : lineBreaks * L ≤ lineEnds := by
  have h : (lineEnd * lineTail)∗ * (lineEnd * gap * L) ≤ lineEnds :=
    mul_assoc lineEnd gap L ▸ emptyLines_le_lineEnds (gap * L)
  rwa [lineBreaks, emptyLines, mul_assoc]

end Inclusions

variable {α β : Type}

/-- Filler takes a text, whatever text of a language follows. -/
def Fills (T F : Language Char) : Prop := ∀ t ∈ T, ∀ r ∈ F, filler.Takes t r fun _ => True

/-- Filler stops in front of a text. -/
def Stops (r : List Char) : Prop := ∀ x ∈ r.head?, isGap x = false ∧ x ≠ '#'

section Fills

variable {F : Language Char} {t r : List Char}

theorem stops_of_words (h : r ∈ words) : Stops r := by
  obtain ⟨x, r, rfl, hx⟩ := h
  rintro _ ⟨⟩
  simp only [isWordStart, Bool.not_eq_true', Bool.or_eq_false_iff] at hx
  exact ⟨hx.1.1, by simpa using hx.2⟩

theorem stops_of_lineEnds (h : r ∈ lineEnds) : Stops r := by
  intro x hx
  rcases isBreak_iff.mp (h x hx) with rfl | rfl <;> decide

private theorem rejectsAt_comment (h : Stops r)
    : (both comment (span isGap) : Expr _).RejectsAt r := by
  refine (((rejectsAt_literal fun hprefix => ?_).both _).map _).both _
  obtain ⟨s, rfl⟩ := hprefix
  exact (h '#' rfl).2 rfl

theorem takes_filler_gap (ht : t ∈ gap) (hr : Stops r) : filler.Takes t r fun _ => True := by
  have hspan : (span isGap : Expr _).Takes t ([] ++ r) fun _ => True :=
    (takes_span ht fun x hx => (hr x hx).1).mono fun _ _ => trivial
  have hfiller := hspan.both (takes_star_nil (rejectsAt_comment hr))
  rw [List.append_nil] at hfiller
  exact hfiller.map fun _ _ => trivial

private theorem takes_filler_remark (ht : t ∈ gap * remark) (hr : r ∈ lineEnds) :
    filler.Takes t r fun _ => True := by
  obtain ⟨s, hs, _, ⟨body, rfl, hbody⟩, rfl⟩ := ht
  have hstops := stops_of_lineEnds hr
  have hspan : (span isGap : Expr _).Takes s (('#' :: body) ++ r) fun _ => True :=
    (takes_span hs fun x hx => by cases hx; rfl).mono fun _ _ => trivial
  have hcomment : comment.Takes ('#' :: body) ([] ++ r) fun _ => True :=
    ((takes_literal ['#']).skipTo (takes_span (by simpa using hbody)
      fun x hx => by simp [hr x hx])).mono fun _ _ => trivial
  have hround := hcomment.both (takes_span (s := []) nofun fun x hx => (hstops x hx).1)
  have hrounds := hround.star_cons (t := []) (takes_star_nil (rejectsAt_comment hstops))
  rw [List.append_nil, List.append_nil] at hrounds
  exact (hspan.both hrounds).map fun _ _ => trivial

theorem gap_fills (hF : F ≤ words) : Fills gap F :=
  fun _ ht _ hr => takes_filler_gap ht (stops_of_words (hF hr))

theorem lineTail_fills (hF : F ≤ lineEnds) : Fills lineTail F := by
  rintro t (ht | ht) r hr
  · exact takes_filler_gap ht (stops_of_lineEnds (hF hr))
  · exact takes_filler_remark ht (hF hr)

/-- Behind filler there is no more of it. -/
theorem stops_of_reads_filler {c d : Cursor} (h : filler.Reads c () d) : Stops d.rest := by
  obtain ⟨⟨s, rs⟩, ⟨m, ⟨-, -, hm⟩, hrounds⟩, -⟩ := h
  simp only at hrounds
  induction hrounds with
  | @stop c hstop =>
    intro x hx
    refine ⟨hm x hx, ?_⟩
    rintro rfl
    -- a comment would still be read here
    obtain ⟨r, hr⟩ := List.head?_eq_some_iff.mp hx
    have hnone := (run?_eq_none_iff (e := both comment (span isGap)) rfl).mpr hstop
    simp [comment, Peg.skipTo, run?, word, hr, dropLiteral?] at hnone
  | round h _ ih =>
    obtain ⟨_, -, hspan⟩ := h
    exact ih hspan.2.2

theorem reads_filler_of_stops {c : Cursor} (h : Stops c.rest) : filler.Reads c () c := by
  obtain ⟨_, d, hd, hrest, -⟩ := takes_filler_gap nil_mem_gap h c rfl
  obtain ⟨s, hs, -⟩ := hd.exists_passes
  have hnil : s = [] := by
    have := hs.length_eq
    rw [hrest] at this
    exact List.eq_nil_of_length_eq_zero (by omega)
  subst hnil
  rwa [hs.unique (.refl c)] at hd

end Fills

/-- Where a word may start, the expression reads each text of a language, up to filler that it ends
with and in front of each text of another language, as a value with a property. -/
def TakesTo (e : Expr α) (L F : Language Char) (P : α → Prop) : Prop :=
  ∀ s ∈ L, ∀ r ∈ F, ∀ c : Cursor, c.rest = s ++ r → Stops c.rest →
    ∃ v d d', e.Reads c v d ∧ filler.Reads d () d' ∧ d'.rest = r ∧ P v

/-- The same for an expression that is repeated with filler in front of each round. -/
def RepeatsTo (e : Expr α) (L F : Language Char) (P : List α → Prop) : Prop :=
  ∀ s ∈ L, ∀ r ∈ F, ∀ c : Cursor, c.rest = s ++ r → Stops c.rest →
    ∃ vs d d', (star (skipTo filler e)).Reads c vs d ∧ filler.Reads d () d' ∧ d'.rest = r ∧ P vs

/-- An expression takes no text of a language. -/
def Refuses (e : Expr α) (F : Language Char) : Prop := ∀ r ∈ F, e.RejectsAt r

section TakesTo

variable {e first : Expr α} {second : Expr β} {L M F G T : Language Char} {P P' : α → Prop}
  {Q : β → Prop}

theorem takesTo_of_takes (h : ∀ s ∈ L, ∀ r ∈ T * F, e.Takes s r P) (hT : Fills T F) :
    TakesTo e (L * T) F P := by
  rintro _ ⟨s, hs, t, ht, rfl⟩ r hr c hc -
  obtain ⟨v, d, hv, hd, hP⟩ := h s hs (t ++ r) ⟨t, ht, r, hr, rfl⟩ c (by rw [hc, List.append_assoc])
  obtain ⟨_, d', hd', hr', -⟩ := hT t ht r hr d hd
  exact ⟨v, d, d', hv, hd', hr', hP⟩

theorem TakesTo.mono (h : TakesTo e L F P) (hF : G ≤ F) (hP : ∀ v, P v → P' v) :
    TakesTo e L G P' := fun s hs r hr c hc hstops =>
  let ⟨v, d, d', hv, hd, hrest, hPv⟩ := h s hs r (hF hr) c hc hstops
  ⟨v, d, d', hv, hd, hrest, hP v hPv⟩

theorem TakesTo.seq (hfirst : TakesTo first L (M * F) P) (hsecond : TakesTo second M F Q) :
    TakesTo (seq first second) (L * M) F fun v => P v.1 ∧ Q v.2 := by
  rintro _ ⟨s, hs, t, ht, rfl⟩ r hr c hc hstops
  rw [List.append_assoc] at hc
  obtain ⟨v, d, d', hv, hd, hrest, hP⟩ := hfirst s hs (t ++ r) ⟨t, ht, r, hr, rfl⟩ c hc hstops
  obtain ⟨w, e, e', hw, he, hrest', hQ⟩ := hsecond t ht r hr d' hrest (stops_of_reads_filler hd)
  exact ⟨(v, w), e, e', ⟨d, hv, ((), w), ⟨d', hd, hw⟩, rfl⟩, he, hrest', hP, hQ⟩

theorem TakesTo.map {f : α → β} (h : TakesTo e L F P) (hf : ∀ v, P v → Q (f v)) :
    TakesTo (.map f e) L F Q := fun s hs r hr c hc hstops =>
  let ⟨v, d, d', hv, hd, hrest, hP⟩ := h s hs r hr c hc hstops
  ⟨f v, d, d', ⟨v, hv, rfl⟩, hd, hrest, hf v hP⟩

theorem TakesTo.after (hfirst : TakesTo first L (M * F) P) (hsecond : TakesTo second M F Q) :
    TakesTo (after first second) (L * M) F Q :=
  (hfirst.seq hsecond).map fun _ h => h.2

theorem TakesTo.before (hfirst : TakesTo first L (M * F) P) (hsecond : TakesTo second M F Q) :
    TakesTo (before first second) (L * M) F P :=
  (hfirst.seq hsecond).map fun _ h => h.1

theorem TakesTo.named (h : TakesTo e L F P) (construct : Construct) :
    TakesTo (.named construct e) L F P := h

theorem TakesTo.located (h : TakesTo e L F P) :
    TakesTo (.located e) L F fun l => P l.value := fun s hs r hr c hc hstops =>
  let ⟨v, d, d', hv, hd, hrest, hP⟩ := h s hs r hr c hc hstops
  ⟨⟨c.offset, d.offset, v⟩, d, d', ⟨hv, rfl, rfl⟩, hd, hrest, hP⟩

theorem TakesTo.left (h : TakesTo e L F P) (second : Expr α) : TakesTo (.either e second) L F P :=
  fun s hs r hr c hc hstops =>
    let ⟨v, d, d', hv, hd, hrest, hP⟩ := h s hs r hr c hc hstops
    ⟨v, d, d', .inl hv, hd, hrest, hP⟩

theorem TakesTo.right (h : TakesTo e L F P) (hfirst : Refuses first (L * F)) :
    TakesTo (.either first e) L F P := fun s hs r hr c hc hstops =>
  let ⟨v, d, d', hv, hd, hrest, hP⟩ := h s hs r hr c hc hstops
  ⟨v, d, d', .inr ⟨hfirst (s ++ r) ⟨s, hs, r, hr, rfl⟩ c hc, hv⟩, hd, hrest, hP⟩

theorem refuses_after_word {w : String} (h : ∀ r ∈ F, ¬ w.toList <+: r) (e : Expr α) :
    Refuses (Listing.after (word w) e) F := fun r hr =>
  ((rejectsAt_literal (h r hr)).both _).map _

theorem TakesTo.refuses_seq (h : TakesTo first L F P) (hsecond : Refuses second F)
    (hstops : ∀ r ∈ L * F, Stops r) : Refuses (Listing.seq first second) (L * F) := by
  rintro _ ⟨s, hs, r, hr, rfl⟩ c hc v d ⟨m, hv, _, ⟨m', hm', hw⟩, -⟩
  obtain ⟨v', d', d'', hv', hd', hrest, -⟩ :=
    h s hs r hr c hc (hc ▸ hstops _ ⟨s, hs, r, hr, rfl⟩)
  obtain ⟨-, rfl⟩ := hv.unique hv'
  obtain ⟨-, rfl⟩ := hm'.unique hd'
  exact hsecond r hr _ hrest _ _ hw

/-- What a repetition finds does not depend on whether the filler in front of it has been read. -/
theorem exists_reads_star_of_filler {c d m m' : Cursor} {vs : List α} (hc : filler.Reads c () d)
    (h : (star (skipTo filler e)).Reads d vs m) (hm : filler.Reads m () m') :
    ∃ m₂, (star (skipTo filler e)).Reads c vs m₂ ∧ filler.Reads m₂ () m' := by
  have hd : filler.Reads d () d := reads_filler_of_stops (stops_of_reads_filler hc)
  have hbody {v : α} {k : Cursor} :
      (skipTo filler e).Reads d v k ↔ (skipTo filler e).Reads c v k := by
    constructor
    · rintro ⟨⟨_, _⟩, ⟨d', hd', hv⟩, rfl⟩
      obtain ⟨-, rfl⟩ := hd.unique hd'
      exact ⟨((), _), ⟨d, hc, hv⟩, rfl⟩
    · rintro ⟨⟨_, _⟩, ⟨d', hd', hv⟩, rfl⟩
      obtain ⟨-, rfl⟩ := hc.unique hd'
      exact ⟨((), _), ⟨d, hd, hv⟩, rfl⟩
  cases h with
  | stop hstop =>
    obtain ⟨-, rfl⟩ := hd.unique hm
    exact ⟨c, .stop fun v k hv => hstop v k (hbody.mpr hv), hc⟩
  | round hv hrest => exact ⟨m, .round (hbody.mp hv) hrest, hm⟩

theorem repeatsTo_nil (h : Refuses e F) : RepeatsTo e 1 F (· = []) := by
  rintro _ rfl r hr c hc hstops
  have hfiller := reads_filler_of_stops hstops
  refine ⟨[], c, c, .stop fun v d hv => ?_, hfiller, hc, rfl⟩
  obtain ⟨⟨_, _⟩, ⟨d', hd', hv⟩, rfl⟩ := hv
  obtain ⟨-, rfl⟩ := hfiller.unique hd'
  exact h r hr c hc _ _ hv

theorem RepeatsTo.mono {R R' : List α → Prop} (h : RepeatsTo e L F R) (hF : G ≤ F)
    (hR : ∀ vs, R vs → R' vs) : RepeatsTo e L G R' := fun s hs r hr c hc hstops =>
  let ⟨v, d, d', hv, hd, hrest, hRv⟩ := h s hs r (hF hr) c hc hstops
  ⟨v, d, d', hv, hd, hrest, hR v hRv⟩

theorem TakesTo.cons {R : List α → Prop} (h : TakesTo e L (M * F) P) (hrest : RepeatsTo e M F R) :
    RepeatsTo e (L * M) F fun vs => ∃ v ws, vs = v :: ws ∧ P v ∧ R ws := by
  rintro _ ⟨s, hs, t, ht, rfl⟩ r hr c hc hstops
  rw [List.append_assoc] at hc
  obtain ⟨v, d, d', hv, hd, hd', hP⟩ := h s hs (t ++ r) ⟨t, ht, r, hr, rfl⟩ c hc hstops
  obtain ⟨ws, m, m', hws, hm, hrest', hR⟩ := hrest t ht r hr d' hd' (stops_of_reads_filler hd)
  obtain ⟨m₂, hws, hm⟩ := exists_reads_star_of_filler hd hws hm
  exact ⟨v :: ws, m₂, m', .round ⟨((), v), ⟨c, reads_filler_of_stops hstops, hv⟩, rfl⟩ hws, hm,
    hrest', v, ws, rfl, hP, hR⟩

theorem RepeatsTo.many {R : List α → Prop} (h : RepeatsTo e L F R) : TakesTo (many e) L F R := by
  intro s hs r hr c hc hstops
  obtain ⟨vs, d, d', hvs, hd, hrest, hR⟩ := h s hs r hr c hc hstops
  have hfiller := reads_filler_of_stops hstops
  refine ⟨vs, d, d', ?_, hd, hrest, hR⟩
  cases hvs with
  | stop hstop =>
    refine .inr ⟨fun v m hv => ?_, (), rfl, rfl⟩
    obtain ⟨⟨w, ws⟩, ⟨k, hw, -⟩, -⟩ := hv
    exact hstop w k ⟨((), w), ⟨c, hfiller, hw⟩, rfl⟩
  | @round _ k _ v ws hv hrest =>
    obtain ⟨⟨_, _⟩, ⟨c', hc', hv⟩, rfl⟩ := hv
    obtain ⟨-, rfl⟩ := hfiller.unique hc'
    exact .inl ⟨(_, ws), ⟨k, hv, hrest⟩, rfl⟩

/-- A repetition takes one text after the other, if what may follow a round contains all texts that
start with another round. -/
theorem takesTo_many_prod {ι : Type} {f : ι → Language Char} {key : α → ι} {xs : List ι}
    (hround : ∀ x ∈ xs, TakesTo e (f x) G (key · = x)) (hnext : ∀ x ∈ xs, f x * G ≤ G) (hF : F ≤ G)
    (hstop : Refuses e F) : TakesTo (many e) (xs.map f).prod F (·.map key = xs) := by
  have hfollow (ys : List ι) (hys : ∀ y ∈ ys, f y * G ≤ G) : (ys.map f).prod * F ≤ G := by
    induction ys with
    | nil => simpa using hF
    | cons y ys ih =>
      rw [List.map_cons, List.prod_cons, mul_assoc]
      exact (mul_le_mul_right (ih fun z hz => hys z (.tail _ hz)) _).trans (hys y (.head _))
  suffices h : RepeatsTo e (xs.map f).prod F (·.map key = xs) from h.many
  induction xs with
  | nil => exact (repeatsTo_nil hstop).mono le_rfl fun vs hvs => hvs ▸ rfl
  | cons x xs ih =>
    have hrest := ih (fun y hy => hround y (.tail _ hy)) fun y hy => hnext y (.tail _ hy)
    have hx := (hround x (.head _)).mono (hfollow xs fun y hy => hnext y (.tail _ hy)) fun _ h => h
    refine (hx.cons hrest).mono le_rfl fun vs hvs => ?_
    obtain ⟨v, ws, rfl, rfl, rfl⟩ := hvs
    rfl

end TakesTo

/-- The texts of `emptyLines T`, with a line feed and a carriage return each for itself, so that a
pair of them is two ends of lines. -/
inductive Broken (T : Language Char) : List Char → Prop where
  | last {b : Char} {t : List Char} (hb : isBreak b = true) (ht : t ∈ T) : Broken T (b :: t)
  | next {b : Char} {t s : List Char} (hb : isBreak b = true) (ht : t ∈ lineTail)
      (hs : Broken T s) : Broken T (b :: (t ++ s))

section EmptyLines

variable {T F : Language Char} {s t r : List Char} {b : Char}

theorem break_mem_lineEnd (hb : isBreak b = true) : [b] ∈ lineEnd := by
  rcases isBreak_iff.mp hb with rfl | rfl
  · exact .inl rfl
  · exact .inr (.inr rfl)

theorem emptyLines_of_broken (h : Broken T s) : s ∈ emptyLines T := by
  induction h with
  | @last b t hb ht =>
    exact ⟨[], Language.nil_mem_kstar _, b :: t, ⟨[b], break_mem_lineEnd hb, t, ht, rfl⟩, rfl⟩
  | @next b t s hb ht _ ih =>
    have hstep : lineEnd * lineTail * emptyLines T ≤ emptyLines T := by
      rw [emptyLines, ← mul_assoc (lineEnd * lineTail)]
      exact mul_le_mul_left mul_kstar_le_kstar _
    exact hstep ⟨b :: t, ⟨[b], break_mem_lineEnd hb, t, ht, rfl⟩, s, ih, rfl⟩

theorem broken_of_emptyLines (h : s ∈ emptyLines T) : Broken T s := by
  let broken : Language Char := {s | Broken T s}
  have hlast : lineEnd * T ≤ broken := by
    rintro _ ⟨_, rfl | rfl | rfl, t, ht, rfl⟩
    · exact .last rfl ht
    · exact .next (t := []) rfl nil_mem_lineTail (.last rfl ht)
    · exact .last rfl ht
  have hnext : lineEnd * lineTail * broken ≤ broken := by
    rintro _ ⟨_, ⟨_, rfl | rfl | rfl, t, ht, rfl⟩, s, hs, rfl⟩
    · exact .next rfl ht hs
    · exact .next (t := []) rfl nil_mem_lineTail (.next rfl ht hs)
    · exact .next rfl ht hs
  exact kstar_mul_le hlast hnext h

/-- A line does not break before its end. -/
theorem eq_nil_of_head_lineTail (ht : t ∈ lineTail) (hb : isBreak b = true)
    (h : (t ++ r).head? = some b) : t = [] := by
  cases t with
  | nil => rfl
  | cons x t =>
    obtain rfl : x = b := by simpa using h
    have hhead := head_lineTail ht
    rcases isBreak_iff.mp hb with rfl | rfl <;> simp [isGap] at hhead

private theorem takes_newline (hb : isBreak b = true) (h : b = '\r' → r.head? ≠ some '\n') :
    newline.Takes [b] r fun _ => True := by
  rcases isBreak_iff.mp hb with rfl | rfl
  · exact (takes_literal _).left _
  · refine ((takes_literal _).right (rejectsAt_literal ?_)).right (rejectsAt_literal ?_)
    · rintro ⟨s, hs : ['\r', '\n'] ++ s = '\r' :: r⟩
      exact h rfl ((congrArg List.head? (List.cons.inj hs).2).symm)
    · rintro ⟨s, hs⟩
      cases (List.cons.inj hs).1

private theorem takes_newline_pair : newline.Takes ['\r', '\n'] r fun _ => True := by
  refine ((takes_literal _).left _).right (rejectsAt_literal ?_)
  rintro ⟨s, hs⟩
  cases (List.cons.inj hs).1

private theorem takesTo_newline {e : List Char} (he : newline.Takes e (t ++ r) fun _ => True)
    (ht : filler.Takes t r fun _ => True) : TakesTo newline {e ++ t} {r} fun _ => True := by
  rw [← singleton_mul_singleton]
  refine takesTo_of_takes ?_ ?_
  · rintro _ rfl _ ⟨_, rfl, _, rfl, rfl⟩
    exact he
  · rintro _ rfl _ rfl
    exact ht

theorem refuses_newline (hF : ∀ r ∈ F, ∀ x ∈ r.head?, isBreak x = false) : Refuses newline F := by
  intro r hr
  have hno (b : Char) (hb : isBreak b = true) (s : List Char) : ¬ b :: s <+: r := by
    rintro ⟨t, rfl⟩
    cases hb.symm.trans (hF _ hr b rfl)
  exact (rejectsAt_literal (hno '\n' rfl [])).either
    ((rejectsAt_literal (hno '\r' rfl ['\n'])).either (rejectsAt_literal (hno '\r' rfl [])))

variable (hT : T ≤ lineTail) (hfill : Fills T F)
  (hF : ∀ r ∈ F, ∀ x ∈ r.head?, isBreak x = false)

include hT hfill hF

/-- The first line break with the filler behind it, and the text that then begins. -/
theorem Broken.takesTo_newline (h : Broken T s) (hr : r ∈ F) : ∃ e w, s = e ++ w ∧
    w.length < s.length ∧ (w = [] ∨ Broken T w) ∧
      TakesTo newline {e} {w ++ r} fun _ => True := by
  have hlast {t : List Char} (ht : t ∈ T) : (t ++ r).head? ≠ some '\n' := fun h => by
    have hnil := eq_nil_of_head_lineTail (hT ht) rfl h
    subst hnil
    cases hF r hr '\n' h
  have hnext {t w : List Char} (ht : t ∈ lineTail) (hw : Broken T w) :
      filler.Takes t (w ++ r) fun _ => True := by
    refine lineTail_fills (F := {w ++ r}) ?_ t ht _ rfl
    rintro _ rfl x hx
    cases hw <;> cases hx <;> assumption
  cases h with
  | @last b t hb ht =>
    exact ⟨[b] ++ t, [], by simp, by simp, .inl rfl,
      Listing.takesTo_newline (takes_newline hb fun _ => hlast ht) (hfill t ht r hr)⟩
  | @next b t w hb ht hw =>
    by_cases hpair : b = '\r' ∧ (t ++ w).head? = some '\n'
    · obtain ⟨rfl, hhead⟩ := hpair
      obtain rfl := eq_nil_of_head_lineTail ht rfl hhead
      cases hw with
      | @last b t hb' ht =>
        obtain rfl : b = '\n' := by simpa using hhead
        exact ⟨['\r', '\n'] ++ t, [], by simp, by simp, .inl rfl,
          Listing.takesTo_newline takes_newline_pair (hfill t ht r hr)⟩
      | @next b t w hb' ht hw =>
        obtain rfl : b = '\n' := by simpa using hhead
        have hshort : w.length < ('\r' :: ([] ++ '\n' :: (t ++ w))).length := by
          simp only [List.length_cons, List.length_append]
          omega
        exact ⟨['\r', '\n'] ++ t, w, by simp, hshort, .inr hw,
          Listing.takesTo_newline takes_newline_pair (hnext ht hw)⟩
    · have hshort : w.length < (b :: (t ++ w)).length := by
        simp only [List.length_cons, List.length_append]
        omega
      refine ⟨[b] ++ t, w, by simp, hshort, .inr hw,
        Listing.takesTo_newline (takes_newline hb fun hcr h => hpair ⟨hcr, ?_⟩) (hnext ht hw)⟩
      cases hw <;> cases t <;> simpa using h

private theorem repeatsTo_newline (hs : s = [] ∨ Broken T s) (hr : r ∈ F) :
    RepeatsTo newline {s} {r} fun _ => True := by
  induction hn : s.length using Nat.strong_induction_on generalizing s with
  | _ n ih =>
    rcases hs with rfl | hs
    · refine (repeatsTo_nil ?_).mono le_rfl fun _ _ => trivial
      rintro _ rfl
      exact refuses_newline hF _ hr
    · obtain ⟨e, w, rfl, hlt, hw, hnewline⟩ := hs.takesTo_newline hT hfill hF hr
      rw [← singleton_mul_singleton] at hnewline ⊢
      exact (hnewline.cons (ih w.length (hn ▸ hlt) hw rfl)).mono le_rfl fun _ _ => trivial

theorem takesTo_many_newline : TakesTo (many newline) (1 + emptyLines T) F fun _ => True := by
  intro s hs r hr
  have hs : s = [] ∨ Broken T s := hs.imp id broken_of_emptyLines
  exact (repeatsTo_newline hT hfill hF hs hr).many s rfl r rfl

theorem takesTo_newlines : TakesTo newlines (emptyLines T) F fun _ => True := by
  intro s hs r hr
  obtain ⟨e, w, rfl, -, hw, hnewline⟩ :=
    (broken_of_emptyLines hs).takesTo_newline hT hfill hF hr
  rw [← singleton_mul_singleton] at hnewline
  have h := hnewline.seq (repeatsTo_newline hT hfill hF hw hr).many
  rw [singleton_mul_singleton] at h
  exact h.map (fun _ _ => trivial) _ rfl r rfl

end EmptyLines

/-- The line breaks in front of a word. -/
theorem takesTo_lineBreaks {F : Language Char} (hF : F ≤ words) :
    TakesTo newlines lineBreaks F fun _ => True := by
  refine takesTo_newlines gap_le_lineTail (gap_fills hF) fun r hr x hx => ?_
  obtain ⟨y, r, rfl, hy⟩ := hF hr
  cases hx
  grind [isWordStart]

end TapeMachine.Listing
