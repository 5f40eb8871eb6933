import TapeMachine.Proofs.PegMeaning

/-!
# Texts that an expression takes

An expression takes a text when it reads it wherever it stands, up to what follows. There is a lemma
for each way to form expressions. A choice needs to know that its first expression finds nothing, so
that what an expression rejects is followed through its form as well.
-/

namespace TapeMachine.Peg

variable {ν α β : Type}

/-- In front of a rest the expression reads a text, as a value with a property. -/
def Takes (e : Peg ν α) (s rest : List Char) (P : α → Prop) : Prop :=
  ∀ c : Cursor, c.rest = s ++ rest → ∃ v d, e.Reads c v d ∧ d.rest = rest ∧ P v

/-- The expression reads nothing in front of a rest. -/
def RejectsAt (e : Peg ν α) (rest : List Char) : Prop := ∀ c : Cursor, c.rest = rest → e.Rejects c

variable {e first : Peg ν α} {second : Peg ν β} {s t rest : List Char} {P : α → Prop} {Q : β → Prop}

theorem exists_passes {c : Cursor} (h : c.rest = s ++ rest) :
    ∃ d : Cursor, c.Passes s d ∧ d.rest = rest :=
  ⟨⟨c.offset + s.length, rest⟩, ⟨h, rfl⟩, rfl⟩

theorem Takes.mono {P' : α → Prop} (h : e.Takes s rest P) (hP : ∀ v, P v → P' v) :
    e.Takes s rest P' := fun c hc =>
  let ⟨v, d, hv, hd, hPv⟩ := h c hc
  ⟨v, d, hv, hd, hP v hPv⟩

theorem takes_char {ok : Char → Bool} {x : Char} (hx : ok x = true) :
    (char ok : Peg ν Char).Takes [x] rest (· = x) := fun _ hc =>
  let ⟨d, hd, hrest⟩ := exists_passes hc
  ⟨x, d, ⟨hx, hd⟩, hrest, rfl⟩

theorem takes_span {ok : Char → Bool} (hs : ∀ x ∈ s, ok x = true)
    (hrest : ∀ x ∈ rest.head?, ok x = false) :
    (span ok : Peg ν (List Char)).Takes s rest (· = s) := fun _ hc =>
  let ⟨d, hd, hd'⟩ := exists_passes hc
  ⟨s, d, ⟨hs, hd, hd' ▸ hrest⟩, hd', rfl⟩

theorem takes_literal (text : List Char) :
    (literal text : Peg ν Unit).Takes text rest fun _ => True := fun _ hc =>
  let ⟨d, hd, hrest⟩ := exists_passes hc
  ⟨(), d, hd, hrest, trivial⟩

theorem Takes.both (hfirst : first.Takes s (t ++ rest) P) (hsecond : second.Takes t rest Q) :
    (both first second).Takes (s ++ t) rest fun v => P v.1 ∧ Q v.2 := by
  intro c hc
  rw [List.append_assoc] at hc
  obtain ⟨v, d, hv, hd, hPv⟩ := hfirst c hc
  obtain ⟨w, e, hw, he, hQw⟩ := hsecond d hd
  exact ⟨(v, w), e, ⟨d, hv, hw⟩, he, hPv, hQw⟩

theorem Takes.left (h : first.Takes s rest P) (second : Peg ν α) :
    (either first second).Takes s rest P := fun c hc =>
  let ⟨v, d, hv, hd, hPv⟩ := h c hc
  ⟨v, d, .inl hv, hd, hPv⟩

theorem Takes.right (h : e.Takes s rest P) (hfirst : first.RejectsAt (s ++ rest)) :
    (either first e).Takes s rest P := fun c hc =>
  let ⟨v, d, hv, hd, hPv⟩ := h c hc
  ⟨v, d, .inr ⟨hfirst c hc, hv⟩, hd, hPv⟩

theorem Takes.map {f : α → β} (h : e.Takes s rest P) (hf : ∀ v, P v → Q (f v)) :
    (map f e).Takes s rest Q := fun c hc =>
  let ⟨v, d, hv, hd, hPv⟩ := h c hc
  ⟨f v, d, ⟨v, hv, rfl⟩, hd, hf v hPv⟩

theorem Takes.named (h : e.Takes s rest P) (name : ν) : (named name e).Takes s rest P := h

theorem takes_star_nil (h : e.RejectsAt rest) : (star e).Takes [] rest (· = []) :=
  fun c hc => ⟨[], c, .stop (h c hc), hc, rfl⟩

theorem Takes.star_cons {Q : List α → Prop} (h : e.Takes s (t ++ rest) P)
    (hrest : (star e).Takes t rest Q) :
    (star e).Takes (s ++ t) rest fun vs => ∃ v ws, vs = v :: ws ∧ P v ∧ Q ws := by
  intro c hc
  rw [List.append_assoc] at hc
  obtain ⟨v, d, hv, hd, hPv⟩ := h c hc
  obtain ⟨ws, d', hws, hd', hQ⟩ := hrest d hd
  exact ⟨v :: ws, d', .round hv hws, hd', v, ws, rfl, hPv, hQ⟩

theorem Takes.skipTo {Q' : α → Prop} (hfirst : first.Takes s (t ++ rest) Q')
    (hsecond : second.Takes t rest Q) : (skipTo first second).Takes (s ++ t) rest Q :=
  (hfirst.both hsecond).map fun _ h => h.2

theorem Takes.endBy {Q' : β → Prop} (hfirst : first.Takes s (t ++ rest) P)
    (hsecond : second.Takes t rest Q') : (endBy first second).Takes (s ++ t) rest P :=
  (hfirst.both hsecond).map fun _ h => h.1

theorem rejectsAt_char {ok : Char → Bool} (h : ∀ x ∈ rest.head?, ok x = false) :
    (char ok : Peg ν Char).RejectsAt rest := by
  rintro c rfl x d ⟨hx, hpasses⟩
  have hhead : c.rest.head? = some x := by rw [hpasses.rest]; rfl
  rw [h x hhead] at hx
  cases hx

theorem rejectsAt_literal {text : List Char} (h : ¬ text <+: rest) :
    (literal text : Peg ν Unit).RejectsAt rest := by
  rintro c rfl _ d hpasses
  exact h ⟨d.rest, hpasses.rest.symm⟩

theorem RejectsAt.both (h : first.RejectsAt rest) (second : Peg ν β) :
    (both first second).RejectsAt rest := by
  rintro c hc v e ⟨d, hv, -⟩
  exact h c hc _ _ hv

theorem RejectsAt.either {second : Peg ν α} (hfirst : first.RejectsAt rest)
    (hsecond : second.RejectsAt rest) : (either first second).RejectsAt rest := by
  rintro c hc v d (h | ⟨-, h⟩)
  · exact hfirst c hc v d h
  · exact hsecond c hc v d h

theorem RejectsAt.map (h : e.RejectsAt rest) (f : α → β) : (map f e).RejectsAt rest := by
  rintro c hc v d ⟨w, hw, -⟩
  exact h c hc w d hw

theorem RejectsAt.named (h : e.RejectsAt rest) (name : ν) : (named name e).RejectsAt rest := h

theorem RejectsAt.located (h : e.RejectsAt rest) : (located e).RejectsAt rest :=
  fun c hc v d hv => h c hc v.value d hv.1

end TapeMachine.Peg
