import TapeMachine.Listing.Reading
import TapeMachine.Proofs.ConstructTrees

/-!
# The constructs of a listing

Reading a listing and building from its constructs agree, construct by construct: what the grammar
reads as a symbol, a state, a list, a section, a rule or a block is what the builder makes of the
construct, and the builder finds everything that it asks for.
-/

namespace TapeMachine.Listing

open Peg

variable {α β : Type} {text : List Char}

private theorem yields_filler : Yields text filler fun _ ps => ps = [] := yields_unnamed rfl rfl

private theorem yields_newlines : Yields text newlines fun _ ps => ps = [] := yields_unnamed rfl rfl

private theorem yields_word {s : String} : Yields text (word s) fun _ ps => ps = [] :=
  yields_unnamed rfl rfl

section Forms

variable {first : Expr α} {second : Expr β} {R : α → List (Piece Construct) → Prop}
  {T : β → List (Piece Construct) → Prop}

private theorem yields_seq (hfirst : Yields text first R) (hsecond : Yields text second T) :
    Yields text (seq first second) (Then R T) :=
  hfirst.both (yields_filler.skipTo hsecond)

private theorem yields_after (hfirst : Yields text first fun _ ps => ps = [])
    (hsecond : Yields text second T) : Yields text (after first second) T := by
  refine (yields_seq hfirst hsecond).map fun v ps h => ?_
  obtain ⟨qs, rs, rfl, rfl, h⟩ := h
  exact h

private theorem yields_before (hfirst : Yields text first R)
    (hsecond : Yields text second fun _ ps => ps = []) : Yields text (before first second) R := by
  refine (yields_seq hfirst hsecond).map fun v ps h => ?_
  obtain ⟨qs, rs, rfl, h, rfl⟩ := h
  rwa [List.append_nil]

private theorem yields_many (h : Yields text first R) (hfirst : first.consumes = true) :
    Yields text (many first) (Each R) :=
  h.starWith hfirst yields_filler

end Forms

private theorem yields_identifier :
    Yields text identifier (Single .identifier fun q p => String.ofList (p.chars text) = q) := by
  refine yields_token rfl rfl (P := fun q s => String.ofList s = q) fun c q d h => ?_
  obtain ⟨⟨x, xs⟩, ⟨m, hx, hxs⟩, rfl⟩ := h
  exact ⟨[x] ++ xs, hx.2.trans hxs.2.1, rfl⟩

private theorem symbolOf_bare {c : Char} (h : isBareSymbol c = true) : symbolOf [c] = c := by
  have hc : c ≠ '\x27' := by
    rintro rfl
    cases h
  simp [symbolOf, hc]

private theorem symbolOf_quoted (c : Char) : symbolOf ['\x27', c, '\x27'] = c := by
  have hquote : "'".utf8ByteSize = 1 := rfl
  have hsize : 3 ≤ "'".utf8ByteSize + (c.utf8Size + "'".utf8ByteSize) := by
    have := c.utf8Size_pos
    omega
  simp [symbolOf, hsize]

private theorem yields_symbol :
    Yields text symbol (Single .symbol fun s p => symbolOf (p.chars text) = s) := by
  refine yields_token rfl rfl (P := fun v s => symbolOf s = v) fun c v d h => ?_
  rcases h with h | ⟨-, h⟩
  · obtain ⟨⟨_, _⟩, ⟨m, hopen, ⟨_, _⟩, ⟨m', hv, hclose⟩, rfl⟩, rfl⟩ := h
    exact ⟨['\x27'] ++ ([_] ++ ['\x27']), hopen.trans (hv.2.trans hclose), symbolOf_quoted _⟩
  · exact ⟨[v], h.2, symbolOf_bare h.1⟩

private theorem yields_text :
    Yields text Listing.text (Single .text fun s p => p.chars text = s) := by
  refine yields_token rfl rfl (P := fun v s => s = v) fun c v d h => ?_
  obtain ⟨⟨x, xs⟩, ⟨m, hx, hxs⟩, rfl⟩ := h
  exact ⟨[x] ++ xs, hx.2.trans hxs.2.1, rfl⟩

private theorem yields_kindValue :
    Yields text kindValue
      (Single .kindValue fun k p => String.ofList (p.chars text) = k.label) := by
  refine yields_token rfl rfl (P := fun (k : Kind) s => String.ofList s = k.label) fun c v d h => ?_
  rcases h with ⟨_, h, rfl⟩ | ⟨-, _, h, rfl⟩
  · exact ⟨_, h, String.ofList_toList⟩
  · exact ⟨_, h, String.ofList_toList⟩

private theorem yields_direction :
    Yields text direction (Single .direction fun v p => directionOf text p = .ok v) := by
  have h : Yields text direction (Single .direction fun v p => ∀ q : Piece Construct,
      q.chars text = p.chars text → directionOf text q = .ok v) := by
    refine yields_token rfl rfl (P := fun v s => ∀ q : Piece Construct, q.chars text = s →
      directionOf text q = .ok v) fun c v d h => ?_
    have hword (s : String) (w : Direction)
        (hs : ∀ q : Piece Construct, q.chars text = s.toList → directionOf text q = .ok w)
        (hread : (Peg.map (fun _ => w) (word s)).Reads c v d) :
        ∃ t, c.Passes t d ∧
          ∀ q : Piece Construct, q.chars text = t → directionOf text q = .ok v := by
      obtain ⟨_, hpasses, rfl⟩ := hread
      exact ⟨_, hpasses, hs⟩
    rcases h with h | ⟨-, h | ⟨-, h | ⟨-, h | ⟨-, h | ⟨-, h | ⟨-, h⟩⟩⟩⟩⟩⟩
    all_goals exact hword _ _ (fun q hq => by simp [directionOf, hq]) h
  exact h.mono fun v ps ⟨p, hps, hname, hp⟩ => ⟨p, hps, hname, hp p rfl⟩

section Lists

variable {item : Expr α} {construct : Construct} {P : α → Piece Construct → Prop} {vs : List α}
  {ps : List (Piece Construct)}

/-- Constructs with one name, one for each of several values. -/
def Items (construct : Construct) (P : α → Piece Construct → Prop) :
    List α → List (Piece Construct) → Prop :=
  List.Forall₂ fun v p => p.name = construct ∧ P v p

theorem Items.filter (h : Items construct P vs ps) :
    ps.filter (fun p => p.name = construct) = ps := by
  induction h with
  | nil => rfl
  | cons h _ ih => rw [List.filter_cons_of_pos (by simpa using h.1), ih]

theorem Items.map {f : Piece Construct → α} (h : Items construct (fun v p => f p = v) vs ps) :
    ps.map f = vs := by
  induction h with
  | nil => rfl
  | cons h _ ih => rw [List.map_cons, h.2, ih]

private theorem yields_commaList (h : Yields text item (Single construct P))
    (hitem : item.consumes = true) : Yields text (commaList item) (Items construct P) := by
  have hround : (after (word ",") item).consumes = true := by
    simp [after, seq, Peg.skipTo, consumes, hitem]
  refine (yields_seq h (yields_many (yields_after yields_word h) hround)).map fun v ps hv => ?_
  obtain ⟨qs, rs, rfl, ⟨p, rfl, hname, hp⟩, hrest⟩ := hv
  exact .cons ⟨hname, hp⟩ (hrest.forall₂ fun _ _ h => h)

private theorem yields_list (h : Yields text item (Single construct P))
    (hitem : item.consumes = true) :
    Yields text (list item) (Items construct P) := by
  have hcomma := yields_commaList h hitem
  refine .either (yields_after yields_word (yields_before (hcomma.optional.map fun v ps hv => ?_)
    yields_word)) hcomma
  rcases hv with ⟨rfl, rfl⟩ | ⟨vs, rfl, hvs⟩
  · exact .nil
  · exact hvs

end Lists

private theorem yields_symbols : Yields text symbols
    (Single .symbols fun vs p =>
      Items .symbol (fun s p => symbolOf (p.chars text) = s) vs p.inner) :=
  (yields_list yields_symbol rfl).named fun _ _ h => h

private theorem yields_identifiers : Yields text identifiers (Single .identifiers fun vs p =>
    Items .identifier (fun q p => String.ofList (p.chars text) = q) vs p.inner) :=
  (yields_list yields_identifier rfl).named fun _ _ h => h

/-- The builder gets from a construct what a section says. -/
def SectionValue (text : List Char) (p : Piece Construct) : Section → Prop
  | .name chars => valueChars text p = .ok chars
  | .kind kind => kindOf text p = .ok kind
  | .blank symbol => ∃ chars, valueChars text p = .ok chars ∧ symbolOf chars = symbol
  | .input symbols | .tape symbols => symbolsOf text p = symbols
  | .states states | .accept states | .reject states => statesOf text p = states
  | .start state => ∃ chars, valueChars text p = .ok chars ∧ String.ofList chars = state

/-- One construct with the name of a section and its value. -/
structure SectionPiece (text : List Char) (s : Section) (p : Piece Construct) : Prop where
  name : p.name = s.construct
  value : SectionValue text p s

private theorem valueChars_of_single (text : List Char) {construct : Construct}
    {P : α → Piece Construct → Prop} {v : α} {p : Piece Construct}
    (h : Single construct P v p.inner) :
    ∃ q, valueChars text p = .ok (q.chars text) ∧ P v q := by
  obtain ⟨q, hq, -, hP⟩ := h
  exact ⟨q, by simp [valueChars, hq], hP⟩

private theorem kindOf_of_single {k : Kind} {p : Piece Construct} (h : Single .kindValue
    (fun k p => String.ofList (p.chars text) = k.label) k p.inner) : kindOf text p = .ok k := by
  obtain ⟨q, hchars, hq⟩ := valueChars_of_single text h
  cases k <;> simp [kindOf, hchars, hq, bind, Except.bind, pure, Except.pure, Kind.label]

private theorem symbolsOf_of_single {vs : List Symbol} {p : Piece Construct} (h : Single .symbols
    (fun vs p => Items .symbol (fun s p => symbolOf (p.chars text) = s) vs p.inner) vs p.inner) :
    symbolsOf text p = vs := by
  obtain ⟨q, hq, -, hitems⟩ := h
  simpa [symbolsOf, items, hq, hitems.filter] using hitems.map

private theorem statesOf_of_single {vs : List State} {p : Piece Construct} (h : Single .identifiers
    (fun vs p => Items .identifier (fun q p => String.ofList (p.chars text) = q) vs p.inner) vs
      p.inner) :
    statesOf text p = vs := by
  obtain ⟨q, hq, -, hitems⟩ := h
  simpa [statesOf, items, hq, hitems.filter] using hitems.map

private theorem yields_sectionOf {construct : Construct} {value : Expr α} {make : α → Section}
    {R : α → List (Piece Construct) → Prop} (hvalue : Yields text value R)
    (hmake : ∀ v, (make v).construct = construct)
    (h : ∀ v p, R v p.inner → SectionValue text p (make v)) :
    Yields text (sectionOf construct value make) fun s ps =>
      ∃ p, ps = [p] ∧ SectionPiece text s p := by
  have hwords : Yields text (after (word construct.label) (after (word ":") value)) R :=
    yields_after yields_word (yields_after yields_word hvalue)
  have hmade : Yields text (.map make (after (word construct.label) (after (word ":") value)))
      fun s ps => s.construct = construct ∧
        ∀ p : Piece Construct, p.inner = ps → SectionValue text p s :=
    hwords.map fun v ps hv => ⟨hmake v, fun p hp => h v p (hp ▸ hv)⟩
  have hnamed : Yields text (sectionOf construct value make)
      (Single construct fun s p => s.construct = construct ∧ SectionValue text p s) :=
    hmade.named fun s p hs => ⟨hs.1, hs.2 p rfl⟩
  refine hnamed.mono fun s ps ⟨p, hps, hname, hs, hvalue⟩ => ⟨p, hps, ?_, hvalue⟩
  rw [hname, hs]

private theorem yields_header :
    Yields text header fun s ps => ∃ p, ps = [p] ∧ SectionPiece text s p := by
  refine .either ?name <| .either ?kind <| .either ?blank <| .either ?input <| .either ?tape <|
    .either ?states <| .either ?start <| .either ?accept ?reject
  case name =>
    refine yields_sectionOf yields_text (fun _ => rfl) fun v p h => ?_
    obtain ⟨q, hchars, rfl⟩ := valueChars_of_single text h
    exact hchars
  case kind => exact yields_sectionOf yields_kindValue (fun _ => rfl) fun _ _ => kindOf_of_single
  case blank =>
    refine yields_sectionOf yields_symbol (fun _ => rfl) fun v p h => ?_
    obtain ⟨q, hchars, hq⟩ := valueChars_of_single text h
    exact ⟨_, hchars, hq⟩
  case start =>
    refine yields_sectionOf yields_identifier (fun _ => rfl) fun v p h => ?_
    obtain ⟨q, hchars, hq⟩ := valueChars_of_single text h
    exact ⟨_, hchars, hq⟩
  case input | tape =>
    exact yields_sectionOf yields_symbols (fun _ => rfl) fun _ _ => symbolsOf_of_single
  case states | accept | reject =>
    exact yields_sectionOf yields_identifiers (fun _ => rfl) fun _ _ => statesOf_of_single

private theorem yields_transition :
    Yields text transition (Single .transition fun r p => buildRule text p = .ok r) := by
  have hread : Yields text (.named .read symbol) (Single .read fun s p =>
      symbolOf (p.chars text) = s) :=
    yields_symbol.framed_chars (P := fun s chars => symbolOf chars = s) rfl
  have hwrite : Yields text (.named .write symbol) (Single .write fun s p =>
      symbolOf (p.chars text) = s) :=
    yields_symbol.framed_chars (P := fun s chars => symbolOf chars = s) rfl
  refine ((yields_seq hread (yields_seq (yields_after yields_word hwrite).optional
    (yields_after yields_word (yields_seq yields_direction
      (yields_after yields_word yields_identifier))))).map (T := fun r ps =>
        ∀ p : Piece Construct, p.inner = ps → buildRule text p = .ok r) fun v ps h p hp => ?_).named
    fun r p h => h p rfl
  obtain ⟨_, _, rfl, ⟨r, rfl, hr, hread⟩, _, _, rfl, hwritten, _, _, rfl,
    ⟨d, rfl, hd, hdirection⟩, ⟨q, rfl, hq, hstate⟩⟩ := h
  rcases hwritten with ⟨hnone, rfl⟩ | ⟨w, hsome, w', rfl, hw, hwrite⟩
  · simp [buildRule, hp, RuleDraft.note, hr, hd, hq, hdirection, hread, hstate, hnone, require,
      bind, Except.bind, pure, Except.pure]
  · simp [buildRule, hp, RuleDraft.note, hr, hd, hq, hw, hdirection, hread, hwrite, hstate, hsome,
      require, bind, Except.bind, pure, Except.pure]

/-- The construct of a block gives the builder its state and its rules. -/
def BlockPiece (text : List Char) (b : Block) (p : Piece Construct) : Prop :=
  ∃ first parts, p.inner = first :: parts ∧ String.ofList (first.chars text) = b.state ∧
    Items .transition (fun r q => buildRule text q = .ok r) b.rules parts

private theorem yields_stateBlock :
    Yields text stateBlock (Single .stateBlock (BlockPiece text)) := by
  refine ((yields_seq yields_identifier (yields_after yields_word (yields_many
    (yields_after yields_newlines yields_transition) rfl))).map (T := fun b ps =>
      ∀ p : Piece Construct, p.inner = ps → BlockPiece text b p) fun v ps h p hp => ?_).named
    fun b p h => h p rfl
  obtain ⟨qs, rs, rfl, ⟨first, rfl, -, hfirst⟩, hrest⟩ := h
  exact ⟨first, rs, hp, hfirst, hrest.forall₂ fun _ _ h => h⟩

/-- The construct of a block, at its place. -/
structure LocatedBlock (text : List Char) (b : Located Block) (p : Piece Construct) : Prop where
  start : p.start = b.start
  stop : p.stop = b.stop
  block : BlockPiece text b.value p

private theorem yields_rules :
    Yields text rules (Single .rules fun bs p => List.Forall₂ (LocatedBlock text) bs p.inner) := by
  refine (yields_after yields_word (yields_after yields_word (yields_many
    (yields_after yields_newlines (yields_stateBlock.located rfl)) rfl))).named fun bs p h => ?_
  refine h.forall₂ fun b ps hb => ?_
  obtain ⟨p, rfl, hstart, hstop, q, hq, -, hblock⟩ := hb
  obtain rfl : p = q := List.singleton_inj.mp hq
  exact ⟨p, rfl, hstart, hstop, hblock⟩

/-- The construct of a section, at its place. -/
structure LocatedSection (text : List Char) (s : Located Section) (p : Piece Construct) : Prop where
  start : p.start = s.start
  stop : p.stop = s.stop
  piece : SectionPiece text s.value p

/-- The constructs of a whole listing: its sections, the rules with their blocks, and its end. -/
structure ListingPieces (text : List Char) (l : Listing) (sections : List (Piece Construct))
    (rules last : Piece Construct) : Prop where
  sections : List.Forall₂ (LocatedSection text) l.sections sections
  name : rules.name = .rules
  blocks : List.Forall₂ (LocatedBlock text) l.blocks rules.inner
  last : last.name = .endOfText

theorem yields_program : Yields text program (Single .program fun l p =>
    ∃ sections rules last, p.inner = sections ++ [rules, last] ∧
      ListingPieces text l sections rules last) := by
  have hheader : Yields text (.located header) fun l ps => ∃ p, ps = [p] ∧ p.start = l.start ∧
      p.stop = l.stop ∧ ∃ q, [p] = [q] ∧ SectionPiece text l.value q := yields_header.located rfl
  have hsections := yields_many (yields_before hheader yields_newlines) rfl
  have hend : Yields text (.named Construct.endOfText .endOfText)
      (Single .endOfText fun _ _ => True) :=
    (yields_unnamed rfl rfl).named fun _ _ _ => trivial
  have hnewlines : Yields text (many newline) fun _ ps => ps = [] := yields_unnamed rfl rfl
  have hrules : Yields text (before rules (after (many newline) (.named .endOfText .endOfText)))
      fun bs ps => ∃ p last, ps = [p, last] ∧ p.name = .rules ∧
        List.Forall₂ (LocatedBlock text) bs p.inner ∧ last.name = .endOfText := by
    refine (yields_seq yields_rules (yields_after hnewlines hend)).map fun v ps h => ?_
    obtain ⟨_, _, rfl, ⟨p, rfl, hname, hblocks⟩, ⟨last, rfl, hlast, -⟩⟩ := h
    exact ⟨p, last, rfl, hname, hblocks, hlast⟩
  refine ((yields_after (yields_unnamed rfl rfl) (yields_after hnewlines
    (yields_seq hsections hrules))).map (T := fun l ps =>
      ∃ sections rules last, ps = sections ++ [rules, last] ∧
        ListingPieces text l sections rules last) fun v ps h => ?_).named fun _ _ h => h
  obtain ⟨sections, _, rfl, hsections, ⟨p, last, rfl, hname, hblocks, hlast⟩⟩ := h
  refine ⟨sections, p, last, rfl, hsections.forall₂ fun s ps hs => ?_, hname, hblocks, hlast⟩
  obtain ⟨q, rfl, hstart, hstop, q', hq, hsection⟩ := hs
  obtain rfl : q = q' := List.singleton_inj.mp hq
  exact ⟨q, rfl, hstart, hstop, hsection⟩

end TapeMachine.Listing
