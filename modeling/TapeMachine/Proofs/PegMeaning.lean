import Mathlib.Data.List.TakeWhile
import TapeMachine.Peg

/-!
# What a grammar means

`Peg.Reads` says what an expression reads at a cursor without saying how it is found: the second
expression of a choice counts only where the first reads nothing at all, and a repetition ends only
where its body reads nothing. At most one value is read at a cursor, and for a grammar that repeats
nothing empty `Peg.run?` finds it exactly when there is one.
-/

namespace TapeMachine

/-- Passing over a text leads from one cursor to another. -/
structure Cursor.Passes (c : Cursor) (s : List Char) (d : Cursor) : Prop where
  rest : c.rest = s ++ d.rest
  offset : d.offset = c.offset + s.length

namespace Cursor

variable {c d e : Cursor} {s t : List Char}

theorem Passes.refl (c : Cursor) : c.Passes [] c := ⟨rfl, rfl⟩

theorem Passes.trans (h : c.Passes s d) (h' : d.Passes t e) : c.Passes (s ++ t) e where
  rest := by rw [h.rest, h'.rest, List.append_assoc]
  offset := by rw [h'.offset, h.offset, List.length_append, Nat.add_assoc]

theorem Passes.unique (h : c.Passes s d) (h' : c.Passes s e) : d = e := by
  obtain ⟨hr, ho⟩ := h
  obtain ⟨hr', ho'⟩ := h'
  cases d
  cases e
  rw [hr, List.append_cancel_left_eq] at hr'
  simp_all

theorem Passes.length_eq (h : c.Passes s d) : c.rest.length = s.length + d.rest.length := by
  rw [h.rest, List.length_append]

end Cursor

namespace Peg

variable {ν α β : Type}

/-- A relation holds in one round after the other, until there is a cursor at which it holds for
nothing. -/
inductive Rounds (R : Cursor → α → Cursor → Prop) : Cursor → List α → Cursor → Prop where
  | stop {c : Cursor} (h : ∀ v d, ¬ R c v d) : Rounds R c [] c
  | round {c d e : Cursor} {v : α} {vs : List α} (h : R c v d) (hrest : Rounds R d vs e) :
      Rounds R c (v :: vs) e

/-- What an expression reads at a cursor, with the cursor after its text. -/
def Reads : {α : Type} → Peg ν α → Cursor → α → Cursor → Prop
  | _, done, c, _, d => d = c
  | _, endOfText, c, _, d => c.rest = [] ∧ d = c
  | _, char ok, c, x, d => ok x = true ∧ c.Passes [x] d
  | _, span ok, c, s, d => (∀ x ∈ s, ok x = true) ∧ c.Passes s d ∧ ∀ x ∈ d.rest.head?, ok x = false
  | _, literal text, c, _, d => c.Passes text d
  | _, both first second, c, v, e => ∃ d, first.Reads c v.1 d ∧ second.Reads d v.2 e
  | _, either first second, c, v, d =>
    first.Reads c v d ∨ (∀ w e, ¬ first.Reads c w e) ∧ second.Reads c v d
  | _, star body, c, vs, d => Rounds body.Reads c vs d
  | _, map f body, c, v, d => ∃ w, body.Reads c w d ∧ f w = v
  | _, located body, c, v, d => body.Reads c v.value d ∧ v.start = c.offset ∧ v.stop = d.offset
  | _, named _ body, c, v, d => body.Reads c v d

/-- An expression reads nothing at a cursor. -/
def Rejects (e : Peg ν α) (c : Cursor) : Prop := ∀ v d, ¬ e.Reads c v d

theorem Rounds.unique {R : Cursor → α → Cursor → Prop}
    (hR : ∀ c v d v' d', R c v d → R c v' d' → v = v' ∧ d = d') {c d d' : Cursor} {vs vs' : List α}
    (h : Rounds R c vs d) (h' : Rounds R c vs' d') : vs = vs' ∧ d = d' := by
  induction h generalizing vs' with
  | stop h =>
    cases h' with
    | stop _ => exact ⟨rfl, rfl⟩
    | round h' _ => exact absurd h' (h _ _)
  | round h _ ih =>
    cases h' with
    | stop h' => exact absurd h (h' _ _)
    | round h' hrest =>
      obtain ⟨rfl, rfl⟩ := hR _ _ _ _ _ h h'
      obtain ⟨rfl, rfl⟩ := ih hrest
      exact ⟨rfl, rfl⟩

/-- A text of characters that pass a test is as long as it can be in only one way. -/
theorem span_unique {ok : Char → Bool} {s t r r' : List Char} (h : s ++ r = t ++ r')
    (hs : ∀ x ∈ s, ok x = true) (ht : ∀ x ∈ t, ok x = true) (hr : ∀ x ∈ r.head?, ok x = false)
    (hr' : ∀ x ∈ r'.head?, ok x = false) : s = t := by
  have hstop {r : List Char} (hr : ∀ x ∈ r.head?, ok x = false) : r.takeWhile ok = [] := by
    cases r with
    | nil => rfl
    | cons x r => simp [hr x rfl]
  have := congrArg (List.takeWhile ok) h
  rw [List.takeWhile_append_of_pos hs, List.takeWhile_append_of_pos ht, hstop hr, hstop hr'] at this
  simpa using this

/-- At most one value is read at a cursor. -/
theorem Reads.unique {e : Peg ν α} {c d d' : Cursor} {v v' : α} (h : e.Reads c v d)
    (h' : e.Reads c v' d') : v = v' ∧ d = d' := by
  induction e generalizing c d d' with
  | done => exact ⟨rfl, h.trans h'.symm⟩
  | endOfText => exact ⟨rfl, h.2.trans h'.2.symm⟩
  | char ok =>
    obtain ⟨-, h⟩ := h
    obtain ⟨-, h'⟩ := h'
    obtain rfl : v = v' := by
      have := h.rest.symm.trans h'.rest
      simp_all
    exact ⟨rfl, h.unique h'⟩
  | span ok =>
    obtain ⟨hs, h, hstop⟩ := h
    obtain ⟨hs', h', hstop'⟩ := h'
    obtain rfl := span_unique (h.rest.symm.trans h'.rest) hs hs' hstop hstop'
    exact ⟨rfl, h.unique h'⟩
  | literal text => exact ⟨rfl, Cursor.Passes.unique h h'⟩
  | both first second ihfirst ihsecond =>
    obtain ⟨m, hfirst, hsecond⟩ := h
    obtain ⟨m', hfirst', hsecond'⟩ := h'
    obtain ⟨hv, rfl⟩ := ihfirst hfirst hfirst'
    obtain ⟨hw, rfl⟩ := ihsecond hsecond hsecond'
    exact ⟨Prod.ext hv hw, rfl⟩
  | either first second ihfirst ihsecond =>
    rcases h with h | ⟨hno, h⟩ <;> rcases h' with h' | ⟨hno', h'⟩
    · exact ihfirst h h'
    · exact absurd h (hno' _ _)
    · exact absurd h' (hno _ _)
    · exact ihsecond h h'
  | star body ih => exact Rounds.unique (R := body.Reads) (fun _ _ _ _ _ => ih) h h'
  | map f body ih =>
    obtain ⟨w, h, rfl⟩ := h
    obtain ⟨w', h', rfl⟩ := h'
    obtain ⟨rfl, rfl⟩ := ih h h'
    exact ⟨rfl, rfl⟩
  | located body ih =>
    obtain ⟨h, hstart, hstop⟩ := h
    obtain ⟨h', hstart', hstop'⟩ := h'
    obtain ⟨hv, rfl⟩ := ih h h'
    cases v
    cases v'
    simp_all
  | named name body ih => exact ih h h'

/-- Every text that the expression reads has a character. -/
def consumes : {α : Type} → Peg ν α → Bool
  | _, done | _, endOfText | _, span _ | _, star _ => false
  | _, char _ => true
  | _, literal text => !text.isEmpty
  | _, both first second => first.consumes || second.consumes
  | _, either first second => first.consumes && second.consumes
  | _, map _ body | _, located body | _, named _ body => body.consumes

/-- Nothing empty is repeated. -/
def wellFormed : {α : Type} → Peg ν α → Bool
  | _, done | _, endOfText | _, span _ | _, char _ | _, literal _ => true
  | _, both first second | _, either first second => first.wellFormed && second.wellFormed
  | _, star body => body.consumes && body.wellFormed
  | _, map _ body | _, located body | _, named _ body => body.wellFormed

theorem Rounds.exists_passes {R : Cursor → α → Cursor → Prop}
    (hR : ∀ c v d, R c v d → ∃ s, c.Passes s d) {c d : Cursor} {vs : List α}
    (h : Rounds R c vs d) : ∃ s, c.Passes s d := by
  induction h with
  | stop _ => exact ⟨[], .refl _⟩
  | round h _ ih =>
    obtain ⟨s, hs⟩ := hR _ _ _ h
    obtain ⟨t, ht⟩ := ih
    exact ⟨s ++ t, hs.trans ht⟩

/-- Reading passes over a text, and over one with a character if the expression consumes. -/
theorem Reads.exists_passes {e : Peg ν α} {c d : Cursor} {v : α} (h : e.Reads c v d) :
    ∃ s, c.Passes s d ∧ (e.consumes = true → s ≠ []) := by
  induction e generalizing c d with
  | done =>
    obtain rfl : d = c := h
    exact ⟨[], .refl _, by simp [consumes]⟩
  | endOfText =>
    obtain ⟨-, rfl⟩ := h
    exact ⟨[], .refl _, by simp [consumes]⟩
  | char ok => exact ⟨[v], h.2, by simp⟩
  | span ok => exact ⟨v, h.2.1, by simp [consumes]⟩
  | literal text => exact ⟨text, h, by simp [consumes]⟩
  | both first second ihfirst ihsecond =>
    obtain ⟨m, hfirst, hsecond⟩ := h
    obtain ⟨s, hs, hs'⟩ := ihfirst hfirst
    obtain ⟨t, ht, ht'⟩ := ihsecond hsecond
    refine ⟨s ++ t, hs.trans ht, fun hc => ?_⟩
    rcases Bool.or_eq_true_iff.mp hc with hc | hc
    · simp [hs' hc]
    · simp [ht' hc]
  | either first second ihfirst ihsecond =>
    rcases h with h | ⟨-, h⟩
    · obtain ⟨s, hs, hs'⟩ := ihfirst h
      exact ⟨s, hs, fun hc => hs' (Bool.and_eq_true_iff.mp hc).1⟩
    · obtain ⟨s, hs, hs'⟩ := ihsecond h
      exact ⟨s, hs, fun hc => hs' (Bool.and_eq_true_iff.mp hc).2⟩
  | star body ih =>
    obtain ⟨s, hs⟩ := Rounds.exists_passes (fun _ _ _ h => (ih h).imp fun _ => And.left) h
    exact ⟨s, hs, by simp [consumes]⟩
  | map f body ih =>
    obtain ⟨w, h, -⟩ := h
    exact ih h
  | located body ih => exact ih h.1
  | named name body ih => exact ih h

private theorem dropLiteral?_eq_some {text s r : List Char} :
    dropLiteral? text s = some r ↔ s = text ++ r := by
  induction text generalizing s with
  | nil => simp [dropLiteral?, eq_comm]
  | cons c text ih =>
    cases s with
    | nil => simp [dropLiteral?]
    | cons x s =>
      by_cases hx : c = x
      · subst hx
        simp [dropLiteral?, ih]
      · simp [dropLiteral?, hx, Ne.symm hx]

/-- Running the expression finds what it reads, and nothing only where it reads nothing. -/
def Agrees (e : Peg ν α) : Prop :=
  ∀ c, (∀ v d, e.run? c = some (v, d) → e.Reads c v d) ∧ (e.run? c = none → e.Rejects c)

theorem Agrees.run?_eq_some_iff {e : Peg ν α} (h : e.Agrees) {c d : Cursor} {v : α} :
    e.run? c = some (v, d) ↔ e.Reads c v d := by
  refine ⟨(h c).1 v d, fun hv => ?_⟩
  cases hc : e.run? c with
  | none => exact absurd hv ((h c).2 hc v d)
  | some next =>
    obtain ⟨rfl, rfl⟩ := hv.unique ((h c).1 _ _ hc)
    rfl

theorem Agrees.run?_eq_none_iff {e : Peg ν α} (h : e.Agrees) {c : Cursor} :
    e.run? c = none ↔ e.Rejects c := by
  refine ⟨(h c).2, fun hno => ?_⟩
  cases hc : e.run? c with
  | none => rfl
  | some next => exact absurd ((h c).1 _ _ hc) (hno _ _)

private theorem agrees_endOfText : (endOfText : Peg ν Unit).Agrees := by
  intro c
  by_cases hc : c.rest.isEmpty = true
  · rw [run?, if_pos hc]
    exact ⟨fun _ _ h => by cases h; exact ⟨List.isEmpty_iff.mp hc, rfl⟩, nofun⟩
  · rw [run?, if_neg hc]
    exact ⟨nofun, fun _ _ _ h => hc (List.isEmpty_iff.mpr h.1)⟩

private theorem agrees_char (ok : Char → Bool) : (char ok : Peg ν Char).Agrees := by
  rintro ⟨offset, rest⟩
  cases rest with
  | nil => exact ⟨nofun, fun _ v d h => nomatch h.2.rest⟩
  | cons x rest =>
    by_cases hx : ok x = true
    · simp only [run?, if_pos hx]
      exact ⟨fun _ _ h => by cases h; exact ⟨hx, rfl, rfl⟩, nofun⟩
    · simp only [run?, if_neg hx]
      refine ⟨nofun, fun _ v d h => hx ?_⟩
      obtain rfl : x = v := (List.cons.inj h.2.rest).1
      exact h.1

private theorem agrees_span (ok : Char → Bool) : (span ok : Peg ν (List Char)).Agrees := by
  refine fun c => ⟨fun s d h => ?_, nofun⟩
  cases h
  refine ⟨fun x hx => List.mem_takeWhile_imp hx, ⟨List.takeWhile_append_dropWhile.symm, rfl⟩, ?_⟩
  intro x hx
  have hfind := (List.find?_not_eq_head?_dropWhile ok c.rest).trans hx
  simpa using List.find?_some hfind

private theorem agrees_literal (text : List Char) : (literal text : Peg ν Unit).Agrees := by
  intro c
  rw [run?]
  cases hc : dropLiteral? text c.rest with
  | none =>
    refine ⟨nofun, fun _ v d h => ?_⟩
    rw [dropLiteral?_eq_some.mpr h.rest] at hc
    cases hc
  | some rest =>
    exact ⟨fun _ _ h => by cases h; exact ⟨dropLiteral?_eq_some.mp hc, rfl⟩, nofun⟩

/-- A bounded repetition stops where its body reads nothing, and not before. -/
theorem rounds_repeatRead {read : Cursor → Option (α × Cursor)}
    (hread : ∀ c v d, read c = some (v, d) → d.rest.length < c.rest.length) (taken : List α)
    (c : Cursor) {bound : List Char} (hb : c.rest.length ≤ bound.length) :
    ∃ vs, (repeatRead read taken c bound).1 = taken.reverse ++ vs ∧
      Rounds (fun c v d => read c = some (v, d)) c vs (repeatRead read taken c bound).2 := by
  induction bound generalizing taken c with
  | nil =>
    refine ⟨[], by simp [repeatRead], .stop fun v d h => ?_⟩
    have := hread c v d h
    rw [List.length_nil] at hb
    omega
  | cons x bound ih =>
    cases hc : read c with
    | none =>
      refine ⟨[], by simp [repeatRead, hc], ?_⟩
      simp only [repeatRead, hc]
      exact .stop fun v d h => by simp [hc] at h
    | some next =>
      obtain ⟨v, d⟩ := next
      have hd := hread c v d hc
      rw [List.length_cons] at hb
      obtain ⟨vs, hvs, hrounds⟩ := ih (v :: taken) d (by omega)
      refine ⟨v :: vs, ?_, ?_⟩
      · simp [repeatRead, hc, hvs]
      · simp only [repeatRead, hc]
        exact .round hc hrounds

section Agrees

variable {first : Peg ν α} {second : Peg ν β} {body : Peg ν α}

theorem Agrees.both (hfirst : first.Agrees) (hsecond : second.Agrees) :
    (both first second).Agrees := by
  intro c
  cases hc : first.run? c with
  | none =>
    simp only [run?, hc, Option.bind_none]
    refine ⟨nofun, fun _ v e h => ?_⟩
    obtain ⟨d, h, -⟩ := h
    exact hfirst.run?_eq_none_iff.mp hc _ d h
  | some next =>
    obtain ⟨v, d⟩ := next
    have hv := hfirst.run?_eq_some_iff.mp hc
    simp only [run?, hc, Option.bind_some]
    cases hd : second.run? d with
    | none =>
      refine ⟨nofun, fun _ v' e h => ?_⟩
      obtain ⟨d', h, h'⟩ := h
      obtain ⟨-, rfl⟩ := hv.unique h
      exact hsecond.run?_eq_none_iff.mp hd _ _ h'
    | some last =>
      refine ⟨fun _ _ h => ?_, nofun⟩
      cases h
      exact ⟨d, hv, hsecond.run?_eq_some_iff.mp hd⟩

theorem Agrees.either {second : Peg ν α} (hfirst : first.Agrees) (hsecond : second.Agrees) :
    (either first second).Agrees := by
  intro c
  cases hc : first.run? c with
  | some next =>
    rw [run?, hc]
    exact ⟨fun v d h => .inl (hfirst.run?_eq_some_iff.mp (hc.trans h)), nofun⟩
  | none =>
    have hno := hfirst.run?_eq_none_iff.mp hc
    rw [run?, hc]
    refine ⟨fun v d h => .inr ⟨hno, hsecond.run?_eq_some_iff.mp h⟩, fun h v d hv => ?_⟩
    exact hv.elim (hno v d) fun hv => hsecond.run?_eq_none_iff.mp h v d hv.2

/-- A repetition ends because each round leaves a shorter text. -/
theorem Agrees.star (h : body.Agrees) (hconsumes : body.consumes = true) : (star body).Agrees := by
  have hshorter (c : Cursor) (v) (d : Cursor) (hv : body.run? c = some (v, d)) :
      d.rest.length < c.rest.length := by
    obtain ⟨s, hs, hne⟩ := (h.run?_eq_some_iff.mp hv).exists_passes
    have := List.length_pos_iff.mpr (hne hconsumes)
    rw [hs.length_eq]
    omega
  refine fun c => ⟨fun vs d hrun => ?_, nofun⟩
  obtain ⟨vs', hvs, hrounds⟩ := rounds_repeatRead hshorter [] c (Nat.le_refl _)
  rw [run?, Option.some.injEq] at hrun
  rw [hrun] at hvs hrounds
  obtain rfl : vs = vs' := hvs
  simp only [h.run?_eq_some_iff] at hrounds
  exact hrounds

theorem Agrees.map (h : body.Agrees) (f : α → β) : (map f body).Agrees := by
  refine fun c => ⟨fun v d hrun => ?_, fun hrun v d ⟨w, hw, _⟩ => ?_⟩
  · obtain ⟨⟨w, e⟩, hc, heq⟩ := Option.map_eq_some_iff.mp hrun
    cases heq
    exact ⟨w, h.run?_eq_some_iff.mp hc, rfl⟩
  · exact h.run?_eq_none_iff.mp (Option.map_eq_none_iff.mp hrun) _ _ hw

theorem Agrees.located (h : body.Agrees) : (located body).Agrees := by
  refine fun c => ⟨fun v d hrun => ?_, fun hrun v d hv => ?_⟩
  · obtain ⟨⟨w, e⟩, hc, heq⟩ := Option.map_eq_some_iff.mp hrun
    cases heq
    exact ⟨h.run?_eq_some_iff.mp hc, rfl, rfl⟩
  · exact h.run?_eq_none_iff.mp (Option.map_eq_none_iff.mp hrun) _ _ hv.1

end Agrees

/-- For a grammar that repeats nothing empty the reader finds what there is to be read, and fails
only where nothing is. -/
theorem agrees {e : Peg ν α} (he : e.wellFormed = true) : e.Agrees := by
  induction e with
  | done => exact fun c => ⟨fun _ _ h => by cases h; rfl, nofun⟩
  | endOfText => exact agrees_endOfText
  | char ok => exact agrees_char ok
  | span ok => exact agrees_span ok
  | literal text => exact agrees_literal text
  | both first second ihfirst ihsecond =>
    obtain ⟨hfirst, hsecond⟩ := Bool.and_eq_true_iff.mp he
    exact (ihfirst hfirst).both (ihsecond hsecond)
  | either first second ihfirst ihsecond =>
    obtain ⟨hfirst, hsecond⟩ := Bool.and_eq_true_iff.mp he
    exact (ihfirst hfirst).either (ihsecond hsecond)
  | star body ih =>
    obtain ⟨hconsumes, hbody⟩ := Bool.and_eq_true_iff.mp he
    exact (ih hbody).star hconsumes
  | map f body ih => exact (ih he).map f
  | located body ih => exact (ih he).located
  | named name body ih => exact ih he

theorem run?_eq_some_iff {e : Peg ν α} (he : e.wellFormed = true) {c d : Cursor} {v : α} :
    e.run? c = some (v, d) ↔ e.Reads c v d := (agrees he).run?_eq_some_iff

theorem run?_eq_none_iff {e : Peg ν α} (he : e.wellFormed = true) {c : Cursor} :
    e.run? c = none ↔ e.Rejects c := (agrees he).run?_eq_none_iff

end Peg

end TapeMachine
