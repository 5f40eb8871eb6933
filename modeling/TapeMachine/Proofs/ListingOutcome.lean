import TapeMachine.Proofs.ListingTrees

/-!
# What comes of a text

Every text is either no listing, or it is one and says something twice, or lacks its name, or does
not name one start state, or its definition is put together and checked. `Outcome` lists these ways
in the order in which they are looked for, and `outcome_parseChars` shows that reading a text ends
in one of them. So the builder never misses a construct that the grammar has promised.
-/

namespace TapeMachine.Listing

open Peg

section Repetitions

variable {α β σ ε κ : Type} {key : α → Option κ} {xs before : List α} {x : α}

/-- A value has the key of one before it. -/
def Repeats (key : α → Option κ) (before : List α) (x : α) : Prop :=
  ∃ k, key x = some k ∧ some k ∈ before.map key

/-- No value has the key of one before it. -/
def NoRepeats (key : α → Option κ) (xs : List α) : Prop := (xs.filterMap key).Nodup

/-- A value is the first of several that has the key of one before it. -/
def FirstRepeat (key : α → Option κ) (xs : List α) (x : α) : Prop :=
  ∃ before after, xs = before ++ x :: after ∧ NoRepeats key before ∧ Repeats key before x

private theorem noRepeats_concat (h : NoRepeats key before) (hx : ¬ Repeats key before x) :
    NoRepeats key (before ++ [x]) := by
  cases hk : key x with
  | none => simpa [NoRepeats, hk] using h
  | some k =>
    have hnew : k ∉ before.filterMap key := fun hmem => hx ⟨k, hk, by
      simpa [List.mem_filterMap] using hmem⟩
    simp only [NoRepeats, List.filterMap_append, List.filterMap_cons, hk, List.filterMap_nil]
    exact List.nodup_append.mpr ⟨h, by simp, by
      intro a ha b hb
      obtain rfl := List.mem_singleton.mp hb
      exact fun hab => hnew (hab ▸ ha)⟩

/-- A loop that refuses repeated values stops at the first of them or goes on to the end, with its
invariant. -/
theorem foldlM_firstRepeat {step : σ → β → Except ε σ} {fault : α → ε} {R : α → β → Prop}
    {I : List α → σ → Prop}
    (hrepeat : ∀ done s x y, I done s → R x y → Repeats key done x → step s y = .error (fault x))
    (hnew : ∀ done s x y, I done s → R x y → ¬ Repeats key done x →
      ∃ s', step s y = .ok s' ∧ I (done ++ [x]) s')
    {ys : List β} (h : List.Forall₂ R xs ys) (done : List α) {s : σ} (hs : I done s)
    (hdone : NoRepeats key done) :
    (∃ x, FirstRepeat key (done ++ xs) x ∧ ys.foldlM step s = .error (fault x)) ∨
      NoRepeats key (done ++ xs) ∧ ∃ s', ys.foldlM step s = .ok s' ∧ I (done ++ xs) s' := by
  induction h generalizing done s with
  | nil => exact .inr ⟨by simpa using hdone, s, rfl, by simpa using hs⟩
  | @cons x y xs ys hxy _ ih =>
    by_cases hx : Repeats key done x
    · refine .inl ⟨x, ⟨done, xs, rfl, hdone, hx⟩, ?_⟩
      simp [hrepeat done s x y hs hxy hx, bind, Except.bind]
    · obtain ⟨s', hstep, hs'⟩ := hnew done s x y hs hxy hx
      have := ih (done ++ [x]) hs' (noRepeats_concat hdone hx)
      simpa [hstep, bind, Except.bind] using this

end Repetitions

def blockKey (b : Located Block) : Option State := some b.value.state

/-- The table of the rules in several blocks. -/
def Tabled (blocks : List (Located Block)) (table : Table (List Rule)) : Prop :=
  table.entries = blocks.map fun b => (b.value.state, b.value.rules)

variable {text : List Char}

private theorem mapM_buildRule {rules : List Rule} {ps : List (Piece Construct)}
    (h : Items .transition (fun r q => buildRule text q = .ok r) rules ps) :
    ps.mapM (buildRule text) = .ok rules := by
  induction h with
  | nil => rfl
  | cons h _ ih => simp [List.mapM_cons, h.2, ih, bind, Except.bind, pure, Except.pure]

/-- A complaint about the part of a text that a value was read from. -/
def blame {α : Type} (text : List Char) (l : Located α) (problem : Problem) : Complaint :=
  { text, start := l.start, stop := some l.stop, problem }

private theorem buildBlock_eq {b : Located Block} {p : Piece Construct} (h : LocatedBlock text b p)
    (table : Table (List Rule)) :
    buildBlock text table p =
      if b.value.state ∈ table.keys then .error (blame text b (.repeatedBlock b.value.state))
      else .ok (table.insert b.value.state b.value.rules) := by
  obtain ⟨hstart, hstop, first, parts, hp, hstate, hrules⟩ := h
  simp only [buildBlock, hp, hstate, hrules.filter, mapM_buildRule hrules, complaintAt, hstart,
    hstop, Table.isSome_get?]
  split <;> rfl

private theorem repeats_blockKey {done : List (Located Block)} {table : Table (List Rule)}
    (h : Tabled done table) (b : Located Block) :
    Repeats blockKey done b ↔ b.value.state ∈ table.keys := by
  rw [Table.keys, h]
  simp [Repeats, blockKey]

/-- The rules are built up to the first block of a state that has one already. -/
theorem buildRules_spec {blocks : List (Located Block)} {p : Piece Construct}
    (h : List.Forall₂ (LocatedBlock text) blocks p.inner) :
    (∃ b, FirstRepeat blockKey blocks b ∧
      buildRules text p = .error (blame text b (.repeatedBlock b.value.state))) ∨
    NoRepeats blockKey blocks ∧ ∃ table, buildRules text p = .ok table ∧ Tabled blocks table := by
  refine foldlM_firstRepeat (I := Tabled) (fun done table b q hdone hb hrepeat => ?_)
    (fun done table b q hdone hb hnew => ?_) h [] rfl List.nodup_nil
  · rw [buildBlock_eq hb, if_pos ((repeats_blockKey hdone b).mp hrepeat)]
  · have hkey := mt (repeats_blockKey hdone b).mpr hnew
    rw [buildBlock_eq hb, if_neg hkey]
    refine ⟨_, rfl, ?_⟩
    rw [Tabled, Table.entries_insert _ hkey, hdone, List.map_append]
    rfl

/-- A header may have one section of each construct, but any number of start states. -/
def sectionKey (s : Located Section) : Option Construct :=
  if s.value.construct = .start then none else some s.value.construct

/-- A value is known exactly when some section says it. -/
def Says {α : Type} (sections : List (Located Section)) (make : α → Section) (value : Option α) :
    Prop :=
  ∀ v, value = some v ↔ make v ∈ sections.map (·.value)

/-- The start states that the sections name. -/
def starts (sections : List (Located Section)) : List State :=
  sections.filterMap fun s =>
    match s.value with
    | .start state => some state
    | _ => none

/-- A draft holds what several sections say. -/
structure Noted (done : List (Located Section)) (draft : Draft) : Prop where
  name (n : String) : draft.name = some n ↔
    ∃ chars, .name chars ∈ done.map (·.value) ∧ String.ofList (Text.trim chars) = n
  kind : Says done .kind draft.kind
  blank : Says done .blank draft.blank
  input : Says done .input draft.input
  tape : Says done .tape draft.tape
  states : Says done .states draft.states
  accept : Says done .accept draft.accept
  reject : Says done .reject draft.reject
  starts : draft.starts = starts done
  rules : draft.rules = none
  seen (c : Construct) : c ∈ draft.seen ↔ some c ∈ done.map sectionKey

private theorem noted_nil : Noted [] {} := by
  constructor <;> simp [Says, Listing.starts]

/-- The draft with what one more section says. -/
def Draft.say (draft : Draft) : Section → Draft
  | .name chars => { draft with
      name := some (String.ofList (Text.trim chars)), seen := .name :: draft.seen }
  | .kind kind => { draft with kind := some kind, seen := .kind :: draft.seen }
  | .blank symbol => { draft with blank := some symbol, seen := .blank :: draft.seen }
  | .input symbols => { draft with input := some symbols, seen := .input :: draft.seen }
  | .tape symbols => { draft with tape := some symbols, seen := .tape :: draft.seen }
  | .states states => { draft with states := some states, seen := .states :: draft.seen }
  | .start state => { draft with starts := draft.starts ++ [state] }
  | .accept states => { draft with accept := some states, seen := .accept :: draft.seen }
  | .reject states => { draft with reject := some states, seen := .reject :: draft.seen }

section Notes

variable {done : List (Located Section)} {draft : Draft} {s : Located Section}
  {p : Piece Construct}

private theorem Noted.repeats_iff (h : Noted done draft) (s : Located Section) :
    Repeats sectionKey done s ↔ s.value.construct ≠ .start ∧ s.value.construct ∈ draft.seen := by
  by_cases hs : s.value.construct = .start
  · simp [Repeats, sectionKey, hs]
  · simp [Repeats, h.seen, sectionKey, hs]

private theorem note_eq_error (hs : LocatedSection text s p) (hstart : s.value.construct ≠ .start)
    (hseen : s.value.construct ∈ draft.seen) :
    draft.note text p = .error (blame text s (.repeatedSection s.value.construct)) := by
  have hunique : Construct.unique.contains s.value.construct = true := by
    cases hv : s.value <;> simp_all [Construct.unique, Section.construct]
  have hsee : draft.see text p = .error (blame text s (.repeatedSection s.value.construct)) := by
    rw [Draft.see, hs.piece.name, hunique]
    simp [hseen, blame, complaintAt, hs.start, hs.stop]
  rw [Draft.note, hsee]
  rfl

private theorem note_eq_ok (hs : SectionPiece text s.value p)
    (hseen : s.value.construct ≠ .start → s.value.construct ∉ draft.seen) :
    draft.note text p = .ok (draft.say s.value) := by
  obtain ⟨start, stop, value⟩ := s
  obtain ⟨hname, hvalue⟩ := hs
  cases value with
  | blank symbol =>
    obtain ⟨chars, hchars, rfl⟩ := hvalue
    simp_all [Draft.note, Draft.see, Draft.say, Construct.unique, Section.construct, bind,
      Except.bind, pure, Except.pure]
  | start state =>
    obtain ⟨chars, hchars, rfl⟩ := hvalue
    simp_all [Draft.note, Draft.see, Draft.say, Construct.unique, Section.construct, bind,
      Except.bind, pure, Except.pure]
  | _ =>
    simp_all [Draft.note, Draft.see, Draft.say, Construct.unique, SectionValue, Section.construct,
      bind, Except.bind, pure, Except.pure]

/-- Without a repetition a new section is of another construct than those before it. -/
theorem construct_ne_of_new (hnew : ¬ Repeats sectionKey done s) {t : Located Section}
    (ht : t ∈ done) (hs : s.value.construct ≠ .start) :
    t.value.construct ≠ s.value.construct := by
  intro heq
  refine hnew ⟨s.value.construct, by simp [sectionKey, hs], ?_⟩
  exact List.mem_map.mpr ⟨t, ht, by simp [sectionKey, heq, hs]⟩

private theorem Noted.say (h : Noted done draft) (hnew : ¬ Repeats sectionKey done s) :
    Noted (done ++ [s]) (draft.say s.value) := by
  have hother (t) (ht : t ∈ done) := construct_ne_of_new hnew ht
  have hseen (c : Construct) :
      c ∈ (draft.say s.value).seen ↔ some c ∈ (done ++ [s]).map sectionKey := by
    rw [List.map_append, List.mem_append, ← h.seen, List.map_singleton, List.mem_singleton]
    cases hv : s.value <;> simp [Draft.say, sectionKey, hv, Section.construct, or_comm]
  obtain ⟨start, stop, value⟩ := s
  cases value
  all_goals
    refine ⟨?_, ?_, ?_, ?_, ?_, ?_, ?_, ?_, ?_, ?_, hseen⟩
    all_goals
      simp [Draft.say, Says, h.name, h.kind _, h.blank _, h.input _, h.tape _, h.states _,
        h.accept _, h.reject _, h.rules, h.starts, Listing.starts]
  -- what is left is the value of the new section, which no section before it has
  all_goals grind [Section.construct]

end Notes

/-- The sections of a header are noted up to the first one that repeats another. -/
theorem foldlM_note_sections {sections : List (Located Section)} {ps : List (Piece Construct)}
    (h : List.Forall₂ (LocatedSection text) sections ps) :
    (∃ s, FirstRepeat sectionKey sections s ∧
      ps.foldlM (Draft.note text) {} = .error (blame text s (.repeatedSection s.value.construct))) ∨
    NoRepeats sectionKey sections ∧
      ∃ draft, ps.foldlM (Draft.note text) {} = .ok draft ∧ Noted sections draft := by
  refine foldlM_firstRepeat (I := Noted) (fun done draft s p hdone hs hrepeat => ?_)
    (fun done draft s p hdone hs hnew => ?_) h [] noted_nil List.nodup_nil
  · obtain ⟨hstart, hseen⟩ := (hdone.repeats_iff s).mp hrepeat
    exact note_eq_error hs hstart hseen
  · have hseen (hstart : s.value.construct ≠ .start) : s.value.construct ∉ draft.seen :=
      fun hmem => hnew ((hdone.repeats_iff s).mpr ⟨hstart, hmem⟩)
    exact ⟨_, note_eq_ok hs.piece hseen, hdone.say hnew⟩

/-- A section says a value, or none of its construct does and the value is the default one. -/
def Given {α : Type} (l : Listing) (make : α → Section) (default value : α) : Prop :=
  make value ∈ l.sections.map (·.value) ∨
    (∀ v, make v ∉ l.sections.map (·.value)) ∧ value = default

/-- A definition is put together from what a listing says. -/
structure Assembles (l : Listing) (d : Definition) : Prop where
  name : ∃ chars, .name chars ∈ l.sections.map (·.value) ∧ d.name = String.ofList (Text.trim chars)
  kind : l.Given .kind .deterministic d.kind
  states : l.Given .states [] d.states
  inputAlphabet : l.Given .input [] d.inputAlphabet
  tapeAlphabet : l.Given .tape [] d.tapeAlphabet
  blank : l.Given .blank '_' d.blank
  startState : starts l.sections = [d.startState]
  acceptStates : l.Given .accept [] d.acceptStates
  rejectStates : l.Given .reject [] d.rejectStates
  rules : d.rules.entries = l.blocks.map fun b => (b.value.state, b.value.rules)

private theorem given_getD {α : Type} {l : Listing} {make : α → Section} {value : Option α}
    (h : Says l.sections make value) (default : α) : l.Given make default (value.getD default) := by
  cases hv : value with
  | none => exact .inr ⟨fun v hmem => by simp [(h v).mpr hmem] at hv, rfl⟩
  | some v => exact .inl ((h v).mp hv)

/-- A text is a listing, and this is what it says. -/
def Matches (text : List Char) (l : Listing) : Prop := ∃ c, program.Reads (.atStart text) l c

/-- What the builder makes of a listing, in the order in which it looks for faults. -/
inductive Built (text : List Char) (l : Listing) : Except Failure Definition → Prop where
  | repeatedSection {s : Located Section} (hs : FirstRepeat sectionKey l.sections s) :
      Built text l (.error (.listing (blame text s (.repeatedSection s.value.construct))))
  | repeatedBlock {b : Located Block} (hsections : NoRepeats sectionKey l.sections)
      (hb : FirstRepeat blockKey l.blocks b) :
      Built text l (.error (.listing (blame text b (.repeatedBlock b.value.state))))
  | missingName (hsections : NoRepeats sectionKey l.sections)
      (hblocks : NoRepeats blockKey l.blocks)
      (hname : ∀ chars, .name chars ∉ l.sections.map (·.value)) :
      Built text l (.error (.listing
        { text, start := 0, stop := some text.length, problem := .missingName }))
  | missingStart (hsections : NoRepeats sectionKey l.sections)
      (hblocks : NoRepeats blockKey l.blocks)
      (hname : ∃ chars, .name chars ∈ l.sections.map (·.value))
      (hstart : starts l.sections = []) : Built text l (.error (.malformed .missingStart))
  | multipleStarts (hsections : NoRepeats sectionKey l.sections)
      (hblocks : NoRepeats blockKey l.blocks)
      (hname : ∃ chars, .name chars ∈ l.sections.map (·.value))
      (hstart : 2 ≤ (starts l.sections).length) :
      Built text l (.error (.malformed (.multipleStarts (starts l.sections))))
  | assembled {d : Definition} (hsections : NoRepeats sectionKey l.sections)
      (hblocks : NoRepeats blockKey l.blocks) (hd : Assembles l d) : Built text l (.ok d)

private theorem Noted.note_rules {sections : List (Located Section)} {draft : Draft}
    (h : Noted sections draft) (text : List Char) {p : Piece Construct} (hp : p.name = .rules) :
    draft.note text p = (buildRules text p).map fun table =>
      { draft with rules := some table, seen := .rules :: draft.seen } := by
  have hseen : Construct.rules ∉ draft.seen := by
    rw [h.seen, List.mem_map]
    rintro ⟨s, -, hs⟩
    cases hv : s.value <;> simp [sectionKey, hv, Section.construct] at hs
  cases hbuild : buildRules text p <;>
    simp [Draft.note, Draft.see, hp, hseen, hbuild, Construct.unique, bind, Except.bind, pure,
      Except.pure, Except.map]

private theorem note_endOfText {p : Piece Construct} (hp : p.name = .endOfText) (draft : Draft) :
    draft.note text p = .ok draft := by
  simp [Draft.note, Draft.see, hp, Construct.unique, bind, Except.bind, pure, Except.pure]

/-- The builder finds all constructs that it asks for, and what it answers follows from what the
listing says. -/
theorem build_spec {l : Listing} {p : Piece Construct} {sections : List (Piece Construct)}
    {rules last : Piece Construct} (hp : p.inner = sections ++ [rules, last])
    (h : ListingPieces text l sections rules last) (hstart : p.start = 0)
    (hstop : p.stop = text.length) : Built text l (build text p) := by
  obtain ⟨s, hs, hfold⟩ | ⟨hsections, draft, hfold, hnoted⟩ := foldlM_note_sections h.sections
  · rw [build, hp, List.foldlM_append, hfold]
    exact .repeatedSection hs
  have hrules := hnoted.note_rules text h.name
  obtain ⟨b, hb, hbuild⟩ | ⟨hblocks, table, hbuild, htable⟩ := buildRules_spec h.blocks
  · have hfold' : p.inner.foldlM (Draft.note text) {} =
        .error (blame text b (.repeatedBlock b.value.state)) := by
      rw [hp, List.foldlM_append, hfold]
      simp [hrules, hbuild, bind, Except.bind, Except.map]
    rw [build, hfold']
    exact .repeatedBlock hsections hb
  have hfold' : p.inner.foldlM (Draft.note text) {} =
      .ok { draft with rules := some table, seen := .rules :: draft.seen } := by
    rw [hp, List.foldlM_append, hfold]
    simp [hrules, hbuild, note_endOfText h.last, bind, Except.bind, Except.map, pure, Except.pure]
  have hmissing : complaintAt text p .missingName =
      { text, start := 0, stop := some text.length, problem := .missingName } := by
    rw [complaintAt, hstart, hstop]
  cases hname : draft.name with
  | none =>
    have hno (chars) : .name chars ∉ l.sections.map (·.value) := fun hmem => by
      simp [(hnoted.name _).mpr ⟨chars, hmem, rfl⟩] at hname
    simp only [build, hfold', hname, require, orFailure, bind, Except.bind, hmissing]
    exact .missingName hsections hblocks hno
  | some name =>
    obtain ⟨chars, hchars, rfl⟩ := (hnoted.name name).mp hname
    simp only [build, hfold', hname, require, orFailure, bind, Except.bind, hnoted.starts]
    rcases hstarts : starts l.sections with _ | ⟨state, _ | ⟨state', states⟩⟩
    · exact .missingStart hsections hblocks ⟨chars, hchars⟩ hstarts
    · exact .assembled hsections hblocks
        { name := ⟨chars, hchars, rfl⟩
          kind := given_getD hnoted.kind _
          states := given_getD hnoted.states _
          inputAlphabet := given_getD hnoted.input _
          tapeAlphabet := given_getD hnoted.tape _
          blank := given_getD hnoted.blank _
          startState := hstarts
          acceptStates := given_getD hnoted.accept _
          rejectStates := given_getD hnoted.reject _
          rules := htable }
    · have hmany : Built text l (.error (.malformed (.multipleStarts (starts l.sections)))) :=
        .multipleStarts hsections hblocks ⟨chars, hchars⟩ (by simp [hstarts])
      rw [hstarts] at hmany
      exact hmany

/-- What comes of a text without white space at its ends: it is no listing, or the builder refuses
it, or the definition is refused or answered when it is checked. -/
inductive Outcome (text : List Char) : Except Failure Definition → Prop where
  | unmatched (h : program.Rejects (.atStart text)) (position : Nat) (constructs : List Construct) :
      Outcome text (.error (.listing
        { text, start := position, stop := none, problem := .expected constructs }))
  | refused {l : Listing} {failure : Failure} (h : Matches text l)
      (hbuilt : Built text l (.error failure)) : Outcome text (.error failure)
  | malformed {l : Listing} {d : Definition} {fault : Fault} (h : Matches text l)
      (hbuilt : Built text l (.ok d)) (hd : d.validate = .error fault) :
      Outcome text (.error (.malformed fault))
  | wellFormed {l : Listing} {d : Definition} (h : Matches text l) (hbuilt : Built text l (.ok d))
      (hd : d.validate = .ok ()) : Outcome text (.ok d)

section Ends

variable {α β : Type} {first : Expr α} {second : Expr β} {c d : Cursor}

/-- The second of two expressions is what is read last. -/
theorem exists_reads_of_seq {v : α × β} (h : (seq first second).Reads c v d) :
    ∃ m, second.Reads m v.2 d := by
  obtain ⟨_, -, w, ⟨m, -, hsecond⟩, hw⟩ := h
  exact ⟨m, hw ▸ hsecond⟩

private theorem exists_reads_of_after {v : β} (h : (after first second).Reads c v d) :
    ∃ m, second.Reads m v d := by
  obtain ⟨w, h, rfl⟩ := h
  exact exists_reads_of_seq h

private theorem exists_reads_of_before {v : α} (h : (before first second).Reads c v d) :
    ∃ m w, second.Reads m w d := by
  obtain ⟨w, h, -⟩ := h
  obtain ⟨m, h⟩ := exists_reads_of_seq h
  exact ⟨m, w.2, h⟩

end Ends

/-- A listing is read to the end of its text. -/
theorem rest_of_reads_program {c d : Cursor} {l : Listing} (h : program.Reads c l d) :
    d.rest = [] := by
  obtain ⟨v, h, -⟩ := h
  obtain ⟨_, h⟩ := exists_reads_of_after h
  obtain ⟨_, h⟩ := exists_reads_of_after h
  obtain ⟨_, h⟩ := exists_reads_of_seq h
  obtain ⟨_, _, h⟩ := exists_reads_of_before h
  obtain ⟨_, hend, rfl⟩ := exists_reads_of_after h
  exact hend

private theorem exists_read_eq_error (h : program.run? (.atStart text) = none) :
    ∃ position constructs, Listing.read text = .error
      { text, start := position, stop := none, problem := .expected constructs } := by
  -- the equation of `read` takes long to be found, because both of its sides run the grammar
  delta Listing.read
  rw [h]
  exact ⟨_, _, rfl⟩

private theorem read_eq_ok {l : Listing} {d : Cursor}
    (h : program.run? (.atStart text) = some (l, d)) :
    Listing.read text = .ok (program.pieces (.atStart text)) := by
  delta Listing.read
  rw [h]

/-- What the grammar reads is one construct, and the builder does with it what the listing asks. -/
theorem exists_built {l : Listing} {d : Cursor} (h : program.Reads (.atStart text) l d) :
    ∃ p, program.pieces (.atStart text) = [p] ∧ Built text l (build text p) := by
  have hin := Cursor.in_atStart text
  obtain ⟨p, hp, hstart, hstop⟩ := exists_piece_of_framed (e := program) rfl rfl h
  obtain ⟨q, hq, -, sections, rules, last, hinner, hpieces⟩ := yields_program.related _ _ _ hin h
  obtain rfl : p = q := List.singleton_inj.mp (hp.symm.trans hq)
  obtain ⟨s, hs, -⟩ := h.exists_passes
  have hend := (hin.passes hs).offset_of_end (rest_of_reads_program h)
  exact ⟨p, hp, build_spec hinner hpieces hstart (hstop.trans hend)⟩

private theorem parseChars_of_read {chars : List Char} {p : Piece Construct}
    (h : Listing.read (Text.trim chars) = .ok [p]) :
    Definition.parseChars chars = (build (Text.trim chars) p).bind fun d =>
      (orFailure .malformed d.validate).bind fun () => .ok d := by
  rw [Definition.parseChars, h]
  rfl

/-- Every text has one of the outcomes. -/
theorem outcome_parseChars (chars : List Char) :
    Outcome (Text.trim chars) (Definition.parseChars chars) := by
  have hwf : program.wellFormed = true := rfl
  cases hrun : program.run? (.atStart (Text.trim chars)) with
  | none =>
    obtain ⟨position, constructs, hread⟩ := exists_read_eq_error hrun
    rw [Definition.parseChars, hread]
    exact .unmatched ((run?_eq_none_iff hwf).mp hrun) position constructs
  | some next =>
    obtain ⟨l, d⟩ := next
    have hreads := (run?_eq_some_iff hwf).mp hrun
    obtain ⟨p, hp, hbuilt⟩ := exists_built hreads
    rw [parseChars_of_read (hp ▸ read_eq_ok hrun)]
    cases hbuild : build (Text.trim chars) p with
    | error failure =>
      rw [hbuild] at hbuilt
      exact .refused ⟨d, hreads⟩ hbuilt
    | ok definition =>
      rw [hbuild] at hbuilt
      cases hd : definition.validate with
      | error fault =>
        simp only [Except.bind, hd, orFailure]
        exact .malformed ⟨d, hreads⟩ hbuilt hd
      | ok _ =>
        simp only [Except.bind, hd, orFailure]
        exact .wellFormed ⟨d, hreads⟩ hbuilt hd

/-- A problem with the constructs that a listing consists of, as opposed to what they say. -/
def Problem.isDefensive : Problem → Bool
  | .emptyProgram | .missingRules | .missingValue | .missingState | .missingRead
  | .missingDirection | .missingNextState | .unsupportedKind _ | .unsupportedDirection _ => true
  | .expected _ | .repeatedSection _ | .repeatedBlock _ | .missingName => false

private theorem Outcome.isDefensive_eq_false {text : List Char} {c : Complaint}
    (h : Outcome text (.error (.listing c))) : c.problem.isDefensive = false := by
  cases h with
  | unmatched => rfl
  | refused _ hbuilt => cases hbuilt <;> rfl

private theorem Outcome.validate_eq {text : List Char} {d : Definition} (h : Outcome text (.ok d)) :
    d.validate = .ok () := by
  cases h with
  | wellFormed _ _ hd => exact hd

/-- Reading any text has one of the outcomes, the first that applies. The constructs of a listing
are never at fault, and a definition that is answered is well-formed. -/
theorem parse_outcome (text : String) :
    Outcome (Text.trim text.toList) (Definition.parse text) ∧
    (∀ c, Definition.parse text = .error (.listing c) → c.problem.isDefensive = false) ∧
    ∀ d, Definition.parse text = .ok d → d.validate = .ok () := by
  have h : Outcome (Text.trim text.toList) (Definition.parse text) := outcome_parseChars text.toList
  refine ⟨h, fun c hc => ?_, fun d hd => ?_⟩
  · rw [hc] at h
    exact h.isDefensive_eq_false
  · rw [hd] at h
    exact h.validate_eq

end TapeMachine.Listing
