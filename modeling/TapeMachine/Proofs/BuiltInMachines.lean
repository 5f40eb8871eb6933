import Mathlib.Data.List.Nodup
import TapeMachine.Catalog
import TapeMachine.Proofs.HeadView

/-!
# The built-in machines

What the listings of the catalog say, rule by rule. Every listing is read, and the catalog has an
entry for each of them, with the diagram that comes with it or else the one of its rules. No two
names differ in the case of letters only, so every entry is found by its name.
-/

namespace TapeMachine

/-- The symbols are zeros and ones. -/
def IsBinary (x : List Symbol) : Prop := ∀ s ∈ x, s = '0' ∨ s = '1'

theorem isBinary_nil : IsBinary [] := fun _ hs => absurd hs List.not_mem_nil

theorem isBinary_append {x y : List Symbol} : IsBinary (x ++ y) ↔ IsBinary x ∧ IsBinary y :=
  List.forall_mem_append

theorem isBinary_cons {s : Symbol} {x : List Symbol} :
    IsBinary (s :: x) ↔ (s = '0' ∨ s = '1') ∧ IsBinary x :=
  List.forall_mem_cons

namespace Definition

/-- Crosses off a zero and a one in each round, and accepts when both run out together. -/
def zerosOnes : Definition where
  name := "Match 0^n1^n"
  inputAlphabet := ['0', '1']
  tapeAlphabet := ['0', '1', 'X', 'Y', '_']
  startState := "q0"
  acceptStates := ["halt"]
  rejectStates := ["reject"]
  rules := ⟨[
    ("q0", [⟨'0', 'X', .right, "q1"⟩, ⟨'X', 'X', .right, "q0"⟩, ⟨'Y', 'Y', .right, "q3"⟩,
      ⟨'_', '_', .stay, "halt"⟩, ⟨'1', '1', .stay, "reject"⟩]),
    ("q1", [⟨'0', '0', .right, "q1"⟩, ⟨'Y', 'Y', .right, "q1"⟩, ⟨'1', 'Y', .left, "q2"⟩,
      ⟨'_', '_', .stay, "reject"⟩]),
    ("q2", [⟨'0', '0', .left, "q2"⟩, ⟨'Y', 'Y', .left, "q2"⟩, ⟨'X', 'X', .right, "q0"⟩]),
    ("q3", [⟨'Y', 'Y', .right, "q3"⟩, ⟨'_', '_', .stay, "halt"⟩, ⟨'X', 'X', .stay, "reject"⟩,
      ⟨'0', '0', .stay, "reject"⟩, ⟨'1', '1', .stay, "reject"⟩]),
    ("halt", []), ("reject", [])], by decide⟩

/-- Writes a one behind a block of ones. -/
def increment : Definition where
  name := "Unary increment"
  inputAlphabet := ['1']
  startState := "scan"
  rules := ⟨[("scan", [⟨'1', '1', .right, "scan"⟩, ⟨'_', '1', .stay, "done"⟩]), ("done", [])],
    by decide⟩

/-- Changes between two states over a block of ones. -/
def evenOnes : Definition where
  name := "Even number of 1s"
  states := ["even", "odd", "accept", "reject"]
  inputAlphabet := ['1']
  startState := "even"
  acceptStates := ["accept"]
  rejectStates := ["reject"]
  rules := ⟨[
    ("even", [⟨'1', '1', .right, "odd"⟩, ⟨'_', '_', .stay, "accept"⟩]),
    ("odd", [⟨'1', '1', .right, "even"⟩, ⟨'_', '_', .stay, "reject"⟩])], by decide⟩

/-- Erases the first symbol and, when it is the same, the last one, round after round. -/
def palindrome : Definition where
  name := "Binary palindrome"
  inputAlphabet := ['0', '1']
  startState := "pick"
  acceptStates := ["accept"]
  rejectStates := ["reject"]
  rules := ⟨[
    ("pick", [⟨'0', '_', .right, "carry0"⟩, ⟨'1', '_', .right, "carry1"⟩,
      ⟨'_', '_', .stay, "accept"⟩]),
    ("carry0", [⟨'0', '0', .right, "carry0"⟩, ⟨'1', '1', .right, "carry0"⟩,
      ⟨'_', '_', .left, "check0"⟩]),
    ("carry1", [⟨'0', '0', .right, "carry1"⟩, ⟨'1', '1', .right, "carry1"⟩,
      ⟨'_', '_', .left, "check1"⟩]),
    ("check0", [⟨'0', '_', .left, "back"⟩, ⟨'1', '1', .stay, "reject"⟩,
      ⟨'_', '_', .stay, "accept"⟩]),
    ("check1", [⟨'1', '_', .left, "back"⟩, ⟨'0', '0', .stay, "reject"⟩,
      ⟨'_', '_', .stay, "accept"⟩]),
    ("back", [⟨'0', '0', .left, "back"⟩, ⟨'1', '1', .left, "back"⟩, ⟨'_', '_', .right, "pick"⟩])],
    by decide⟩

/-- Guesses where `101` begins. -/
def contains101 : Definition where
  name := "Contains 101"
  kind := .nondeterministic
  inputAlphabet := ['0', '1']
  startState := "scan"
  acceptStates := ["accept"]
  rejectStates := ["reject"]
  rules := ⟨[
    ("scan", [⟨'0', '0', .right, "scan"⟩, ⟨'1', '1', .right, "scan"⟩, ⟨'1', '1', .right, "one"⟩,
      ⟨'_', '_', .stay, "reject"⟩]),
    ("one", [⟨'0', '0', .right, "zero"⟩]),
    ("zero", [⟨'1', '1', .right, "accept"⟩])], by decide⟩

/-- Stays on the first blank forever. -/
def endless : Definition where
  name := "Loop forever"
  inputAlphabet := ['1']
  startState := "loop"
  rules := ⟨[("loop", [⟨'1', '1', .right, "loop"⟩, ⟨'_', '_', .stay, "loop"⟩])], by decide⟩

end Definition

namespace Automaton

/-- The diagram that comes with the machine for an even number of ones. -/
def evenOnes : Automaton where
  kind := .dfa
  states := ["even", "odd"]
  alphabet := ['1']
  start := "even"
  accept := ["even"]
  edges := [⟨"even", '1', "odd"⟩, ⟨"odd", '1', "even"⟩]

/-- The diagram that comes with the machine for words that contain `101`. -/
def contains101 : Automaton where
  kind := .nfa
  states := ["scan", "one", "zero", "found"]
  alphabet := ['0', '1']
  start := "scan"
  accept := ["found"]
  edges :=
    [ ⟨"scan", '0', "scan"⟩, ⟨"scan", '1', "scan"⟩, ⟨"scan", '1', "one"⟩, ⟨"one", '0', "zero"⟩,
      ⟨"zero", '1', "found"⟩, ⟨"found", '0', "found"⟩, ⟨"found", '1', "found"⟩ ]

end Automaton

namespace Catalog

private theorem charsOf_nil : charsOf [] = [] := rfl

private theorem charsOf_cons (line : String) (lines : List String) :
    charsOf (line :: lines) = line.toList ++ '\n' :: charsOf lines := by
  simp [charsOf]

private theorem eq_ok_of_toOption {ε α : Type} {x : Except ε α} {a : α} (h : x.toOption = some a) :
    x = .ok a := by
  cases x with
  | error e => cases h
  | ok b => exact congrArg _ (Option.some.inj h)

private theorem parseChars_of_chars {s : Source} {chars : List Char} {d : Definition}
    (hc : s.chars = chars) (hd : (Definition.parseChars chars).toOption = some d) :
    Definition.parseChars s.chars = .ok d := by
  rw [hc]
  exact eq_ok_of_toOption hd

/-- A consistent diagram that takes up a whole text is read from it. -/
theorem diagram?_of_chars {s : Source} {lines : List String} {chars : List Char} {a : Automaton}
    (hl : s.diagram = some lines) (hc : charsOf lines = chars)
    (hr : (Automaton.codec.read ⟨chars, ⟨1, 0⟩⟩).toOption.map
      (fun found => (found.1, found.2.skipSpace.rest)) = some (a, []))
    (ha : a.fault? = none) : diagram? s = some a := by
  obtain ⟨⟨a', r⟩, hread, heq⟩ := Option.map_eq_some_iff.mp hr
  obtain ⟨rfl, hrest⟩ := Prod.mk.inj heq
  have hdecode : Automaton.codec.decode (String.ofList chars) = .ok a' := by
    unfold Json.Codec.decode
    rw [Json.Reader.ofString, String.toList_ofList, eq_ok_of_toOption hread]
    simp only [hrest]
  have hvalid : a'.validate = .ok () := by
    unfold Automaton.validate
    rw [ha]
  have hread : Automaton.read (String.ofList chars) = .ok a' := by
    unfold Automaton.read
    simp only [hdecode, orFailure, bind, Except.bind, hvalid]
    rfl
  unfold diagram?
  rw [hl, Option.bind_some, hc, hread]
  rfl

/-- A listing with the definition that it is read as, and the diagram that comes with it, if one
does. -/
structure BuiltIn where
  source : Source
  definition : Definition
  diagram : Option Automaton
  parsed : Definition.parseChars source.chars = .ok definition
  drawn : diagram? source = diagram

namespace BuiltIn

def zerosOnes : BuiltIn where
  source := matchZerosOnes
  definition := .zerosOnes
  diagram := none
  parsed := by
    apply parseChars_of_chars
    -- the parser is evaluated on a list of characters, which a string literal is not
    · simp only [Source.chars, matchZerosOnes, charsOf_cons, charsOf_nil]
      repeat rewrite [String.toList_ofList]
      simp only [List.cons_append, List.nil_append]
      rfl
    · decide +kernel
  drawn := rfl

def increment : BuiltIn where
  source := unaryIncrement
  definition := .increment
  diagram := none
  parsed := by
    apply parseChars_of_chars
    · simp only [Source.chars, unaryIncrement, charsOf_cons, charsOf_nil]
      repeat rewrite [String.toList_ofList]
      simp only [List.cons_append, List.nil_append]
      rfl
    · decide +kernel
  drawn := rfl

def evenOnes : BuiltIn where
  source := Catalog.evenOnes
  definition := .evenOnes
  diagram := some .evenOnes
  parsed := by
    apply parseChars_of_chars
    · simp only [Source.chars, Catalog.evenOnes, charsOf_cons, charsOf_nil]
      repeat rewrite [String.toList_ofList]
      simp only [List.cons_append, List.nil_append]
      rfl
    · decide +kernel
  drawn := by
    apply diagram?_of_chars
    · rfl
    · simp only [charsOf_cons, charsOf_nil]
      repeat rewrite [String.toList_ofList]
      simp only [List.cons_append, List.nil_append]
      rfl
    · decide +kernel
    · decide +kernel

def palindrome : BuiltIn where
  source := binaryPalindrome
  definition := .palindrome
  diagram := none
  parsed := by
    apply parseChars_of_chars
    · simp only [Source.chars, binaryPalindrome, charsOf_cons, charsOf_nil]
      repeat rewrite [String.toList_ofList]
      simp only [List.cons_append, List.nil_append]
      rfl
    · decide +kernel
  drawn := rfl

def contains101 : BuiltIn where
  source := Catalog.contains101
  definition := .contains101
  diagram := some .contains101
  parsed := by
    apply parseChars_of_chars
    · simp only [Source.chars, Catalog.contains101, charsOf_cons, charsOf_nil]
      repeat rewrite [String.toList_ofList]
      simp only [List.cons_append, List.nil_append]
      rfl
    · decide +kernel
  drawn := by
    apply diagram?_of_chars
    · rfl
    · simp only [charsOf_cons, charsOf_nil]
      repeat rewrite [String.toList_ofList]
      simp only [List.cons_append, List.nil_append]
      rfl
    · decide +kernel
    · decide +kernel

def endless : BuiltIn where
  source := loopForever
  definition := .endless
  diagram := none
  parsed := by
    apply parseChars_of_chars
    · simp only [Source.chars, loopForever, charsOf_cons, charsOf_nil]
      repeat rewrite [String.toList_ofList]
      simp only [List.cons_append, List.nil_append]
      rfl
    · decide +kernel
  drawn := rfl

/-- The entry of the catalog. -/
def entry (b : BuiltIn) : CatalogEntry :=
  { definition := b.definition
    source := String.ofList b.source.chars
    samples := b.source.samples
    automaton := b.diagram.getD (.ofDefinition b.definition) }

private theorem entry?_source (b : BuiltIn) : entry? b.source = some b.entry := by
  unfold entry?
  rw [b.parsed, b.drawn]
  rfl

end BuiltIn

/-- The listings of the catalog, in its order. -/
def builtIns : List BuiltIn :=
  [.zerosOnes, .increment, .evenOnes, .palindrome, .contains101, .endless]

/-- The catalog has an entry for each of the listings. -/
theorem entries_eq : entries = builtIns.map BuiltIn.entry := by
  have hsources : sources = builtIns.map BuiltIn.source := rfl
  have hentry : entry? ∘ BuiltIn.source = some ∘ BuiltIn.entry := funext BuiltIn.entry?_source
  rw [entries, hsources, List.filterMap_map, hentry, List.filterMap_eq_map]

theorem entry_mem {b : BuiltIn} (h : b ∈ builtIns) : b.entry ∈ entries := by
  rw [entries_eq]
  exact List.mem_map_of_mem h

/-- In a list in which a key occurs once, the search for the key of a member finds the member. -/
private theorem find?_of_nodup {α β : Type} [DecidableEq β] (key : α → β) {xs : List α} {x : α}
    (hn : (xs.map key).Nodup) (hx : x ∈ xs) : xs.find? (fun y => key y = key x) = some x := by
  induction xs with
  | nil => cases hx
  | cons y ys ih =>
    obtain ⟨hy, hys⟩ := List.nodup_cons.mp hn
    by_cases hk : key y = key x
    · rcases List.mem_cons.mp hx with rfl | hx
      · simp
      · exact absurd (List.mem_map.mpr ⟨x, hx, hk.symm⟩) hy
    · have hx : x ∈ ys := (List.mem_cons.mp hx).resolve_left fun h => hk (h ▸ rfl)
      rw [List.find?_cons_of_neg (by simpa using hk), ih hys hx]

/-- Every entry is found by its name. -/
theorem byName?_of_mem {e : CatalogEntry} {name : String} (h : e ∈ entries)
    (hname : e.name = name) : byName? name = some e := by
  subst hname
  have hn : (entries.map fun e : CatalogEntry => lowerAscii e.name).Nodup := by
    rw [entries_eq]
    decide
  rw [byName?, find?_of_nodup (fun e : CatalogEntry => lowerAscii e.name) hn h]

/-- Every definition of the catalog is well formed. -/
theorem validate_of_mem {e : CatalogEntry} (h : e ∈ entries) : e.definition.validate = .ok () := by
  have hall : ∀ d ∈ entries.map (·.definition), d.validate = .ok () := by
    rw [entries_eq]
    decide
  exact hall _ (List.mem_map.mpr ⟨e, h, rfl⟩)

/-- An entry can be loaded with every input over its alphabet. -/
theorem exists_load_of_mem {e : CatalogEntry} (h : e ∈ entries) {w : String}
    (hw : ∀ s ∈ w.toList, s ∈ e.definition.inputSymbols) : ∃ m, e.load w = .ok m ∧
      m.definition = e.definition ∧ m.input = w := by
  have hfits : e.definition.checkInput w = .ok () := Definition.checkInput_eq_ok_iff.mpr hw
  let m : Machine :=
    { definition := e.definition
      input := w
      table := e.definition.compile
      table_eq := rfl
      valid := validate_of_mem h
      fits := hfits }
  exact ⟨m, m.load_eq, rfl, rfl⟩

/-- When moves lead from the input to a state that accepts or rejects, by whether a property holds,
a run of the entry with room for them decides the property. -/
theorem exists_load_of_moves {e : CatalogEntry} (he : e ∈ entries)
    (hk : e.definition.kind = .deterministic) {w : String}
    (hw : ∀ s ∈ w.toList, s ∈ e.definition.inputSymbols) {n : Nat} {v : View}
    (h : e.definition.Moves n ⟨e.definition.startState, [], w.toList⟩ v) {p : Prop} [Decidable p]
    {yes no : State} (hv : v.state = if p then yes else no)
    (hyes : e.definition.isAccepting yes = true) (hno : e.definition.isAccepting no = false)
    (hreject : e.definition.isRejecting no = true) : ∃ m, e.load w = .ok m ∧
      ∀ limits : Limits, n < limits.maxSteps →
        (m.run limits).verdict = (if p then .accepted else .rejected) ∧
          (m.run limits).steps = n := by
  obtain ⟨m, hload, hdefinition, hword⟩ := exists_load_of_mem he hw
  refine ⟨m, hload, ?_⟩
  intro limits hroom
  have hkind : m.kind = .deterministic := by rw [Machine.kind, hdefinition, hk]
  have hmoves : m.definition.Moves n m.view v := by
    rw [Machine.view, hdefinition, hword]
    exact h
  by_cases hp : p
  · rw [if_pos hp] at hv ⊢
    have hhalt : m.haltingState? v.state = some .accept := by
      rw [hv, Machine.haltingState?, hdefinition, hyes, if_pos rfl]
    exact Machine.run_of_moves hkind hmoves hhalt hroom
  · rw [if_neg hp] at hv ⊢
    have hhalt : m.haltingState? v.state = some .reject := by
      rw [hv, Machine.haltingState?, hdefinition, hno, hreject]
      rfl
    exact Machine.run_of_moves hkind hmoves hhalt hroom

end Catalog

end TapeMachine
