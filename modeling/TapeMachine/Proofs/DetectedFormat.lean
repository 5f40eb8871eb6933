import TapeMachine.Proofs.HeaderTexts
import TapeMachine.Proofs.JsonTokens
import TapeMachine.Proofs.ListingOutcome
import TapeMachine.Proofs.ToldResults

/-!
# Guessing the format of a text

The guess looks at one character, and that is enough for nearly all texts that hold a definition. No
listing begins with a brace or a bracket, white space apart: its first word is the label of a
section or of the rules, or a comment comes first. A definition in JSON begins with one of the two,
since a record may be written as a list of its fields. Such a list is taken for a listing, which it
is not, and this is the only way for the guess to go wrong.
-/

namespace TapeMachine

namespace Peg

variable {ν α : Type}

/-- What is read in front of a character may have it as its first one. -/
def takes (x : Char) : {α : Type} → Peg ν α → Bool
  | _, done | _, endOfText => false
  | _, char ok | _, span ok => ok x
  | _, literal text => text.head? == some x
  | _, both first second => first.takes x || (!first.consumes && second.takes x)
  | _, either first second => first.takes x || second.takes x
  | _, star body | _, map _ body | _, located body | _, named _ body => body.takes x

variable {x : Char} {c d : Cursor}

private theorem Reads.ne_of_consumes {e : Peg ν α} {v : α} (h : e.Reads c v d)
    (hc : e.consumes = true) : d ≠ c := by
  rintro rfl
  obtain ⟨s, hs, hne⟩ := h.exists_passes
  have hlength := hs.length_eq
  have := List.length_pos_iff.mpr (hne hc)
  omega

private theorem head?_of_passes {s : List Char} (h : c.Passes s d) (hx : c.rest.head? = some x) :
    s.head? = some x ∨ s = [] := by
  cases s with
  | nil => exact .inr rfl
  | cons y s =>
    rw [h.rest] at hx
    exact .inl hx

/-- In front of a character an expression takes it or leaves everything. -/
theorem Reads.takes_or_eq {e : Peg ν α} {v : α} (h : e.Reads c v d)
    (hx : c.rest.head? = some x) : e.takes x = true ∨ d = c := by
  induction e generalizing c d with
  | done => exact .inr h
  | endOfText => exact .inr h.2
  | char ok =>
    obtain ⟨hok, hpasses⟩ := h
    obtain hv | hv := head?_of_passes hpasses hx
    · cases hv
      exact .inl hok
    · cases hv
  | span ok =>
    obtain ⟨hok, hpasses, -⟩ := h
    obtain hv | rfl := head?_of_passes hpasses hx
    · exact .inl (hok x (List.mem_of_head? hv))
    · exact .inr (hpasses.unique (.refl c))
  | literal text =>
    obtain ht | rfl := head?_of_passes h hx
    · exact .inl (by simp [takes, ht])
    · exact .inr (Cursor.Passes.unique h (.refl c))
  | both first second ihfirst ihsecond =>
    obtain ⟨m, hfirst, hsecond⟩ := h
    obtain ht | rfl := ihfirst hfirst hx
    · exact .inl (by simp [takes, ht])
    · have hidle : first.consumes = false :=
        Bool.eq_false_iff.mpr fun hc => hfirst.ne_of_consumes hc rfl
      refine (ihsecond hsecond hx).imp_left fun ht => ?_
      simp [takes, hidle, ht]
  | either first second ihfirst ihsecond =>
    obtain h | ⟨-, h⟩ := h
    · exact (ihfirst h hx).imp_left fun ht => by simp [takes, ht]
    · exact (ihsecond h hx).imp_left fun ht => by simp [takes, ht]
  | star body ih =>
    -- rounds that read nothing go on from where they started
    have hrounds : Rounds body.Reads c v d := h
    clear h
    induction hrounds with
    | stop => exact .inr rfl
    | round h _ ihrest =>
      obtain ht | rfl := ih h hx
      · exact .inl ht
      · exact ihrest hx
  | map f body ih =>
    obtain ⟨w, h, -⟩ := h
    exact ih h hx
  | located body ih => exact ih h.1 hx
  | named name body ih => exact ih h hx

/-- An expression that needs a character and does not take the next one reads nothing. -/
theorem rejects_of_not_takes {e : Peg ν α} (hx : c.rest.head? = some x)
    (ht : e.takes x = false) (hc : e.consumes = true) : e.Rejects c := by
  intro v d h
  obtain htakes | rfl := h.takes_or_eq hx
  · rw [ht] at htakes
    cases htakes
  · exact h.ne_of_consumes hc rfl

end Peg

namespace Listing

/-- White space at the end of a text leaves its first character. -/
theorem head?_trim {s r : List Char} {x : Char} (h : Text.trimStart s = x :: r) :
    (Text.trim s).head? = some x := by
  have hx : Text.isSpace x = false := by
    have hfind := List.find?_not_eq_head?_dropWhile Text.isSpace s
    rw [show s.dropWhile Text.isSpace = x :: r from h] at hfind
    simpa using List.find?_some hfind
  have hcompact : Compact [x] := ⟨⟨x, [], rfl, hx⟩, [], x, rfl, hx⟩
  have hsame : Text.trim s = Text.trim ([x] ++ r) := by
    rw [Text.trim, Text.trim, h, List.singleton_append, Text.trimStart,
      List.dropWhile_cons_of_neg (by simp [hx])]
  rw [hsame, hcompact.trim_append]
  rfl

/-- No listing begins with a brace or a bracket. -/
theorem not_matches {text : List Char} {x : Char} (hx : text.head? = some x)
    (h : x = '\x7b' ∨ x = '[') (l : Listing) : ¬ Matches text l := by
  have ht : program.takes x = false := by
    obtain rfl | rfl := h <;> decide
  rintro ⟨d, hd⟩
  exact Peg.rejects_of_not_takes (c := .atStart text) hx ht rfl l d hd

private theorem exists_matches_of_parse {text : String} {d : Definition}
    (h : Definition.parse text = .ok d) : ∃ l, Matches (Text.trim text.toList) l := by
  have houtcome : Outcome (Text.trim text.toList) (Definition.parse text) := outcome_parseChars _
  rw [h] at houtcome
  cases houtcome with
  | wellFormed hmatches => exact ⟨_, hmatches⟩

end Listing

namespace Json

open Reader

variable {α σ : Type} {a : α} {r : Reader}

private theorem bind_ne_ok {ε β : Type} {x : Except ε β} {f : β → Except ε α}
    (h : ∀ b, f b ≠ .ok a) : x.bind f ≠ .ok a := by
  cases x with
  | error e => exact nofun
  | ok b => exact h b

/-- A value of the wrong kind is never read. -/
theorem misfit_ne_ok (expected : String) (r : Reader) (a : α) : r.misfit expected ≠ .ok a := by
  unfold misfit
  split
  case h_1 => exact nofun
  case h_2 c rest _ =>
    dsimp only
    split_ifs
    -- null and the two Booleans, a number, a text, brackets, and no value at all
    · exact bind_ne_ok fun _ => nofun
    · exact bind_ne_ok fun _ => nofun
    · exact bind_ne_ok fun _ => nofun
    · exact bind_ne_ok fun ⟨_, _⟩ => nofun
    · exact bind_ne_ok fun ⟨_, _⟩ => nofun
    · exact nofun
    · exact nofun
    · exact nofun

/-- A record is an object or a list. -/
theorem record_begins {name : String} {fields : Fields α σ} {done : α × Reader}
    (h : (Codec.record name fields).read r = .ok done) :
    ∃ x rest, r.skipSpace.rest = x :: rest ∧ (x = '\x7b' ∨ x = '[') := by
  have hagain : r.skipSpace.skipSpace.rest = r.skipSpace.rest := by
    rw [rest_skipSpace, rest_skipSpace, List.dropWhile_idempotent]
  rw [Codec.read] at h
  split at h
  case h_1 rest hlist => exact ⟨'[', rest, hlist, .inr rfl⟩
  case h_2 =>
    unfold readObject at h
    dsimp only at h
    split at h
    case h_1 rest hobject => exact ⟨'\x7b', rest, hagain ▸ hobject, .inl rfl⟩
    case h_2 => exact absurd h (misfit_ne_ok _ _ _)

private theorem isSpace_of_isSpace {c : Char} (h : Reader.isSpace c = true) :
    Text.isSpace c = true := by
  simp only [Reader.isSpace, Bool.or_eq_true, beq_iff_eq] at h
  obtain ((rfl | rfl) | rfl) | rfl := h <;> rfl

/-- What comes first behind the white space of JSON comes first behind all white space, unless it is
white space. -/
theorem trimStart_of_skipSpace {text : String} {x : Char} {rest : List Char}
    (h : (ofString text).skipSpace.rest = x :: rest) (hx : Text.isSpace x = false) :
    Text.trimStart text.toList = x :: rest := by
  have hdrop : text.toList.dropWhile Reader.isSpace = x :: rest := by
    rw [← h, rest_skipSpace, ofString]
  rw [← List.takeWhile_append_dropWhile (p := Reader.isSpace) (l := text.toList), hdrop,
    Text.trimStart, List.dropWhile_append_of_pos, List.dropWhile_cons_of_neg (by simp [hx])]
  exact fun c hc => isSpace_of_isSpace (List.mem_takeWhile_imp hc)

private theorem exists_read_of_decode {codec : Codec α} {text : String}
    (h : codec.decode text = .ok a) :
    ∃ r, codec.read (ofString text) = .ok (a, r) := by
  unfold Codec.decode at h
  cases hread : codec.read (ofString text) with
  | error fault =>
    rw [hread] at h
    cases h
  | ok found =>
    obtain ⟨b, r⟩ := found
    rw [hread] at h
    dsimp only at h
    split at h
    · cases h
      exact ⟨r, rfl⟩
    · cases h

private theorem begins_of_decode {text : String} {d : Definition}
    (h : Definition.codec.decode text = .ok d) :
    ∃ x rest, Text.trimStart text.toList = x :: rest ∧ (x = '\x7b' ∨ x = '[') := by
  obtain ⟨r, hread⟩ := exists_read_of_decode h
  unfold Definition.codec at hread
  rw [Codec.read] at hread
  cases hrecord : Codec.read (.record "MachineDefinition" _) (ofString text) with
  | error fault =>
    rw [hrecord] at hread
    cases hread
  | ok done =>
    obtain ⟨x, rest, hrest, hx⟩ := record_begins hrecord
    have hspace : Text.isSpace x = false := by
      obtain rfl | rfl := hx <;> rfl
    exact ⟨x, rest, trimStart_of_skipSpace hrest hspace, hx⟩

end Json

/-- The first character of a text that is no white space. -/
def firstInk (text : String) : Option Char := (Text.trimStart text.toList).head?

namespace Format

/-- How a definition of a format begins. -/
def Opens : Format → Option Char → Prop
  | listing, x => x ≠ some '\x7b' ∧ x ≠ some '['
  | json, x => x = some '\x7b' ∨ x = some '['

theorem Opens.unique {f g : Format} {x : Option Char} (hf : f.Opens x) (hg : g.Opens x) :
    f = g := by
  cases f <;> cases g
  · rfl
  · exact absurd hg (not_or_intro hf.1 hf.2)
  · exact absurd hf (not_or_intro hg.1 hg.2)
  · rfl

private theorem detect_eq_json_iff {text : String} :
    detect text = json ↔ firstInk text = some '\x7b' := by
  unfold detect firstInk
  split
  case h_1 rest h => simp [h]
  case h_2 h =>
    refine iff_of_false nofun fun hhead => ?_
    obtain ⟨rest, hrest⟩ := List.head?_eq_some_iff.mp hhead
    exact h rest hrest

private theorem detect_of_bracket {text : String} (h : firstInk text = some '[') :
    detect text = listing := by
  cases hdetect : detect text with
  | listing => rfl
  | json =>
    rw [detect_eq_json_iff.mp hdetect] at h
    exact absurd h (by decide)

/-- The guess is right about what opens as its format asks, other than a list. -/
theorem detect_of_opens {f : Format} {text : String} (h : f.Opens (firstInk text))
    (hlist : ¬ (f = json ∧ firstInk text = some '[')) : detect text = f := by
  cases f with
  | listing =>
    cases hdetect : detect text with
    | listing => rfl
    | json => exact absurd (detect_eq_json_iff.mp hdetect) h.1
  | json =>
    exact detect_eq_json_iff.mpr (h.resolve_right fun hx => hlist ⟨rfl, hx⟩)

end Format

namespace Definition

variable {f g : Format} {text : String} {d e : Definition}

private theorem decode_of_ofJson (h : ofJson text = .ok d) : codec.decode text = .ok d := by
  unfold ofJson at h
  cases hdecode : codec.decode text with
  | error fault =>
    rw [hdecode] at h
    cases h
  | ok d' =>
    rw [hdecode] at h
    cases hvalid : d'.validate with
    | error fault =>
      simp only [orFailure, bind, Except.bind, hvalid] at h
      cases h
    | ok _ =>
      simp only [orFailure, bind, Except.bind, hvalid] at h
      cases h
      rfl

/-- A text that holds a definition opens as its format asks. -/
theorem opens_of_read (h : read f text = .ok d) : f.Opens (firstInk text) := by
  unfold read at h
  split at h
  case isTrue => cases h
  case isFalse =>
    cases f with
    | listing =>
      obtain ⟨l, hl⟩ := Listing.exists_matches_of_parse h
      have hopens {x : Char} (hx : x = '\x7b' ∨ x = '[') : firstInk text ≠ some x := by
        intro hhead
        obtain ⟨rest, hrest⟩ := List.head?_eq_some_iff.mp hhead
        exact Listing.not_matches (Listing.head?_trim hrest) hx l hl
      exact ⟨hopens (.inl rfl), hopens (.inr rfl)⟩
    | json =>
      obtain ⟨x, rest, hrest, hx⟩ := Json.begins_of_decode (decode_of_ofJson h)
      have hhead : firstInk text = some x := by rw [firstInk, hrest, List.head?_cons]
      obtain rfl | rfl := hx
      · exact .inl hhead
      · exact .inr hhead

/-- No text holds definitions in both formats. -/
theorem read_unique (hf : read f text = .ok d) (hg : read g text = .ok e) : g = f ∧ e = d := by
  obtain rfl := (opens_of_read hg).unique (opens_of_read hf)
  rw [hf] at hg
  cases hg
  exact ⟨rfl, rfl⟩

private theorem size_le_of_read (h : read f text = .ok d) :
    text.utf8ByteSize ≤ largestDefinition := by
  unfold read at h
  split at h
  case isTrue => cases h
  case isFalse hsize => exact Nat.le_of_not_lt hsize

end Definition

namespace CommandLine

variable {world : Surroundings} {bytes : ByteArray} {path text : String} {d : Definition}

private theorem size_of_decodeText (h : decodeText bytes = .ok text) :
    text.utf8ByteSize = bytes.size := by
  unfold decodeText String.fromUTF8? at h
  split at h
  case h_1 decoded hdecoded =>
    cases h
    split at hdecoded
    · cases hdecoded
      rfl
    · cases hdecoded
  case h_2 => cases h

private theorem decodeText_toByteArray (text : String) :
    decodeText text.toByteArray = .ok text := by
  unfold decodeText String.fromUTF8?
  rw [dif_pos text.isValidUTF8]
  rfl

/-- A file is read as its extension says. -/
theorem resolve_file (hfile : world.files path = .file bytes) (htext : decodeText bytes = .ok text)
    (h : Definition.read (.ofPath path) text = .ok d) :
    (resolve world (some path)).result = .ok (.ofDefinition d) := by
  have hisFile : world.files.isFile path = true := by
    unfold Files.isFile
    rw [hfile]
  have hsize : ¬ largestDefinition < bytes.size := by
    rw [← size_of_decodeText htext]
    exact Nat.not_lt_of_le (Definition.size_le_of_read h)
  have hdefinition : world.files.definition path = .ok d := by
    unfold Files.definition Files.definitionText
    rw [hfile]
    simp only [if_neg hsize, htext, orFailure]
    exact h
  rw [(gives_resolve_file hisFile).result_eq, hdefinition]
  rfl

/-- Standard input is read as it looks. -/
theorem resolve_stdin (hpiped : world.stdin = .piped bytes) (htext : decodeText bytes = .ok text)
    (h : Definition.read (.detect text) text = .ok d) :
    (resolve world none).result = .ok (.ofDefinition d) := by
  rw [(gives_resolve_text hpiped htext).result_eq, h]
  rfl

end CommandLine

namespace Format

open CommandLine

/-- The format of a text that holds a definition is the one that it looks like, unless it is a
definition in JSON that is written as a list, which then looks like a listing and is none. In any
case a text holds a definition in one format only. From standard input a definition is read as from
a file whose extension says its format, unless it is such a list. -/
theorem detect_of_read {f : Format} {text : String} {d : Definition}
    (h : Definition.read f text = .ok d) :
    (¬ (f = json ∧ firstInk text = some '[') → detect text = f) ∧
    (f = json → firstInk text = some '[' →
      detect text = listing ∧ ∀ e, Definition.read (detect text) text ≠ .ok e) ∧
    (∀ g e, Definition.read g text = .ok e → g = f ∧ e = d) ∧
    ∀ world bytes path, world.files path = .file bytes → world.stdin = .piped bytes →
      decodeText bytes = .ok text → ofPath path = f →
      (resolve world (some path)).result = .ok (.ofDefinition d) ∧
        (¬ (f = json ∧ firstInk text = some '[') →
          (resolve world none).result = (resolve world (some path)).result) := by
  have hopens := Definition.opens_of_read h
  refine ⟨detect_of_opens hopens, ?_, fun g e hg => Definition.read_unique h hg, ?_⟩
  · rintro rfl hlist
    refine ⟨detect_of_bracket hlist, fun e he => ?_⟩
    obtain ⟨hformat, -⟩ := Definition.read_unique h he
    rw [detect_of_bracket hlist] at hformat
    cases hformat
  · rintro world bytes path hfile hpiped htext rfl
    have hpath := resolve_file hfile htext h
    refine ⟨hpath, fun hlist => ?_⟩
    have hdetect := detect_of_opens hopens hlist
    rw [hpath, resolve_stdin hpiped htext (hdetect ▸ h)]

/-- A machine that halts where it starts. -/
def idle : Definition where
  name := "idle"
  inputAlphabet := ['1']
  startState := "q"

/-- The machine in JSON, as an object. -/
def idleObject : String :=
  "\n\x7b\"start_state\": \"q\", \"name\": \"idle\", \"input_alphabet\": [\"1\"]\x7d"

/-- The machine in JSON, as a list of its fields. The last ones are left out. -/
def idleList : String := "[\"idle\", \"deterministic\", [], [\"1\"], [], \"_\", \"q\"]"

/-- The object is taken for JSON and is no listing, and from standard input it is read as from a
file. -/
theorem detect_of_read_object :
    Definition.read .json idleObject = .ok idle ∧ detect idleObject = json ∧
    (∀ e, Definition.read .listing idleObject ≠ .ok e) ∧
    (resolve ⟨fun _ => .file idleObject.toByteArray, idleObject.toByteArray⟩ none).result =
      .ok (.ofDefinition idle) := by
  have hread : Definition.read .json idleObject = .ok idle := by decide
  have hlist : ¬ (json = json ∧ firstInk idleObject = some '[') := by decide
  obtain ⟨hdetect, -, hunique, hresolve⟩ := detect_of_read hread
  obtain ⟨hfile, hstdin⟩ := hresolve ⟨fun _ => .file idleObject.toByteArray, idleObject.toByteArray⟩
    idleObject.toByteArray "idle.json" rfl rfl (decodeText_toByteArray idleObject) (by decide)
  refine ⟨hread, hdetect hlist, fun e he => ?_, (hstdin hlist).trans hfile⟩
  exact absurd (hunique .listing e he).1 (by decide)

/-- A definition that is written as a list is taken for a listing. -/
theorem detect_ne_of_read_list :
    Definition.read .json idleList = .ok idle ∧ detect idleList ≠ json := by
  constructor <;> decide

end Format

end TapeMachine
