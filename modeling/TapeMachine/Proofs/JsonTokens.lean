import Mathlib.Data.Nat.Digits.Defs
import Mathlib.Tactic.SplitIfs
import TapeMachine.Json.Codec

/-!
# Tokens of JSON read back

The texts and the integers that a document is written with are read back by the scans of a reader,
whatever follows them. Where the reader stands is of no concern here: all that counts is the text it
has left, and that behind the token nothing of the token is left.
-/

namespace TapeMachine.Json

namespace Reader

/-- Reading takes a text that comes next, spaces in front of it included, and gives the value. -/
def Takes {α : Type} (read : Reader → Scan α) (text rest : List Char) (value : α) : Prop :=
  ∀ r : Reader, r.skipSpace.rest = text ++ rest →
    ∃ r' : Reader, read r = .ok (value, r') ∧ r'.rest = rest

private theorem rest_advanceWhile (ok : Char → Bool) (text : List Char) (p : Place) :
    (advanceWhile ok text p).rest = text.dropWhile ok := by
  induction text generalizing p with
  | nil => rfl
  | cons c text ih =>
    cases h : ok c with
    | true => simp [advanceWhile, h, ih]
    | false => simp [advanceWhile, h]

theorem rest_skipSpace (r : Reader) : r.skipSpace.rest = r.rest.dropWhile isSpace :=
  rest_advanceWhile ..

theorem rest_advance {r : Reader} {c : Char} {rest : List Char} (h : r.rest = c :: rest) :
    r.advance.rest = rest := by
  rw [advance]
  split
  · rename_i h'
    rw [h] at h'
    cases h'
  · rename_i c' rest' h'
    rw [h] at h'
    cases h'
    rfl

/-- Spaces in front of a text that does not begin with one are skipped. -/
theorem rest_skipSpace_append {r : Reader} {spaces rest : List Char} {c : Char}
    (hs : ∀ x ∈ spaces, isSpace x) (hc : isSpace c = false) (h : r.rest = spaces ++ c :: rest) :
    r.skipSpace.rest = c :: rest := by
  rw [rest_skipSpace, h, List.dropWhile_append_of_pos hs, List.dropWhile_cons_of_neg (by simp [hc])]

private theorem hexUnit?_control {n : Nat} (h : n < 0x20) :
    hexUnit? '0' '0' (Nat.digitChar (n / 16)) (Nat.digitChar (n % 16)) = some n := by
  revert n
  decide

private theorem utf8Size_hexDigit {n : Nat} (h : n < 16) : (Nat.digitChar n).utf8Size = 1 := by
  revert n
  decide

/-- The escape of a control character is read back behind its backslash and letter. -/
theorem scanUnicode_control {r : Reader} {n : Nat} {rest : List Char} (hn : n < 0x20)
    (h : r.rest = '0' :: '0' :: Nat.digitChar (n / 16) :: Nat.digitChar (n % 16) :: rest) :
    ∃ r', r.scanUnicode = .ok (Char.ofNat n, r') ∧ r'.rest = rest := by
  have hsize : (r.rest.take 4).foldl (fun size c => size + c.utf8Size) 0 = 4 := by
    rw [h]
    simp [utf8Size_hexDigit (show n / 16 < 16 by omega),
      utf8Size_hexDigit (show n % 16 < 16 by omega)]
    rfl
  have hunit : r.scanHexUnit = .ok (n, ⟨rest, Place.afterBytes 4 r.rest r.place⟩) := by
    rw [scanHexUnit, hsize]
    simp [h, hexUnit?_control hn]
  have hlow : ¬ (0xDC00 ≤ n ∧ n ≤ 0xDFFF) := by omega
  refine ⟨⟨rest, Place.afterBytes 4 r.rest r.place⟩, ?_, rfl⟩
  simp [scanUnicode, hunit, hlow, show n < 0xD800 by omega, bind, Except.bind, pure, Except.pure]

/-- How a character is written inside a text: as itself, with a letter behind a backslash, or by its
number. -/
inductive Escaped (c : Char) : List Char → Prop where
  | plain (hq : c ≠ '"') (hb : c ≠ '\\') (hn : 0x20 ≤ c.toNat) : Escaped c [c]
  | letter {e : Char} (hu : e ≠ 'u') (h : simpleEscape? e = some c) : Escaped c ['\\', e]
  | number (hn : c.toNat < 0x20) :
      Escaped c ['\\', 'u', '0', '0', Nat.digitChar (c.toNat / 16), Nat.digitChar (c.toNat % 16)]

private theorem escaped_escapeChar (c : Char) : Escaped c (escapeChar c) := by
  rw [escapeChar]
  split_ifs with hq hb h8 hc hn hr ht hlow
  · subst hq
    exact .letter (by decide) rfl
  · subst hb
    exact .letter (by decide) rfl
  · subst h8
    exact .letter (by decide) rfl
  · subst hc
    exact .letter (by decide) rfl
  · subst hn
    exact .letter (by decide) rfl
  · subst hr
    exact .letter (by decide) rfl
  · subst ht
    exact .letter (by decide) rfl
  · exact .number hlow
  · exact .plain hq hb (Nat.not_lt.mp hlow)

/-- Taking a character of a text as it was written leaves what was written behind it. -/
theorem scanTextBody_escapeChar {c : Char} {rest : List Char} {r : Reader} (b : Char)
    (bound taken : List Char) (h : r.rest = escapeChar c ++ rest) : ∃ r' : Reader, r'.rest = rest ∧
      scanTextBody (b :: bound) taken r = scanTextBody bound (c :: taken) r' := by
  have he := escaped_escapeChar c
  generalize escapeChar c = written at h he
  cases he with
  | plain hq hb hn =>
    refine ⟨r.advance, rest_advance h, ?_⟩
    simp [scanTextBody, h, hq, hb, Nat.not_lt.mpr hn]
  | @letter e hu he =>
    have hr : r.advance.rest = e :: rest := rest_advance h
    refine ⟨r.advance.advance, rest_advance hr, ?_⟩
    simp [scanTextBody, h, scanEscape, hr, hu, he]
  | number hn =>
    have hr : r.advance.rest = 'u' :: _ := rest_advance h
    obtain ⟨r', hscan, hr'⟩ := scanUnicode_control hn (rest_advance hr)
    refine ⟨r', hr', ?_⟩
    simp [scanTextBody, h, scanEscape, hr, hscan, Char.ofNat_toNat]

private theorem scanTextBody_flatMap (s taken : List Char) {bound rest : List Char} {r : Reader}
    (hb : s.length < bound.length) (h : r.rest = s.flatMap escapeChar ++ '"' :: rest) :
    ∃ r', scanTextBody bound taken r = .ok (String.ofList (taken.reverse ++ s), r') ∧
      r'.rest = rest := by
  induction s generalizing bound taken r with
  | nil =>
    cases bound with
    | nil => cases hb
    | cons b bound =>
      have h : r.rest = '"' :: rest := h
      refine ⟨r.advance, ?_, rest_advance h⟩
      simp [scanTextBody, h]
  | cons c s ih =>
    cases bound with
    | nil => cases hb
    | cons b bound =>
      rw [List.flatMap_cons, List.append_assoc] at h
      obtain ⟨r', hr', hstep⟩ := scanTextBody_escapeChar b bound taken h
      obtain ⟨r'', hscan, hr''⟩ := ih (c :: taken) (Nat.lt_of_succ_lt_succ hb) hr'
      refine ⟨r'', ?_, hr''⟩
      rw [hstep, hscan, List.reverse_cons, List.append_assoc]
      rfl

private theorem length_le_flatMap_escapeChar (s : List Char) :
    s.length ≤ (s.flatMap escapeChar).length := by
  induction s with
  | nil => exact Nat.le_refl _
  | cons c s ih =>
    have hc : 1 ≤ (escapeChar c).length := by
      have he := escaped_escapeChar c
      generalize escapeChar c = written at he
      cases he <;> simp
    rw [List.flatMap_cons, List.length_append, List.length_cons]
    omega

/-- A text is read back behind its opening quote. -/
theorem scanText_textChars {s : String} {rest : List Char} {r : Reader}
    (h : r.rest = textChars s ++ rest) :
    ∃ r', r.advance.scanText = .ok (s, r') ∧ r'.rest = rest := by
  have hr : r.advance.rest = s.toList.flatMap escapeChar ++ '"' :: rest := by
    refine rest_advance (c := '"') ?_
    rw [h, textChars]
    simp
  have hlength : s.toList.length < r.advance.rest.length := by
    have := length_le_flatMap_escapeChar s.toList
    rw [hr, List.length_append, List.length_cons]
    omega
  obtain ⟨r', hscan, hr'⟩ := scanTextBody_flatMap s.toList [] hlength hr
  refine ⟨r', ?_, hr'⟩
  rw [scanText, hscan]
  simp

/-- What may follow a value in a document: nothing, a comma, a closing bracket or a new line. -/
def Delimited (rest : List Char) : Prop :=
  ∀ c ∈ rest.head?, c = ',' ∨ c = ']' ∨ c = '\x7d' ∨ c = '\n'

theorem delimited_nil : Delimited [] := by simp [Delimited]

theorem delimited_cons {c : Char} {rest : List Char}
    (h : c = ',' ∨ c = ']' ∨ c = '\x7d' ∨ c = '\n') : Delimited (c :: rest) := by
  simpa [Delimited] using h

theorem Delimited.takeWhile {rest : List Char} (h : Delimited rest) :
    rest.takeWhile Char.isDigit = [] := by
  cases rest with
  | nil => rfl
  | cons c rest => rcases h c rfl with rfl | rfl | rfl | rfl <;> rfl

theorem Delimited.dropWhile {rest : List Char} (h : Delimited rest) :
    rest.dropWhile Char.isDigit = rest := by
  cases rest with
  | nil => rfl
  | cons c rest => rcases h c rfl with rfl | rfl | rfl | rfl <;> rfl

private theorem isDigit_of_mem_digits {n : Nat} {c : Char} (h : c ∈ Nat.toDigits 10 n) :
    c.isDigit = true :=
  Nat.isDigit_of_mem_toDigits (by decide) (by decide) h

/-- Only zero is written with a zero in front. -/
theorem head?_digits {n : Nat} (h : n ≠ 0) : (Nat.toDigits 10 n).head? ≠ some '0' := by
  induction n using Nat.strongRecOn with
  | ind n ih =>
    by_cases hn : n < 10
    · have hdigit : ∀ m < 10, m ≠ 0 → [Nat.digitChar m].head? ≠ some '0' := by decide
      rw [Nat.toDigits_of_lt_base hn]
      exact hdigit n hn h
    · have hfront := ih (n / 10) (by omega) (by omega)
      obtain ⟨c, digits, hdigits⟩ :=
        List.exists_cons_of_ne_nil (Nat.toDigits_ne_nil (n := n / 10) (b := 10))
      rw [Nat.toDigits_of_base_le (by decide) (Nat.not_lt.mp hn), hdigits]
      rwa [hdigits] at hfront

private theorem le_ofDigitChars (digits : List Char) (n : Nat) :
    n ≤ Nat.ofDigitChars 10 digits n := by
  induction digits generalizing n with
  | nil => exact Nat.le_refl _
  | cons c digits ih =>
    have hn : n ≤ 10 * n + (c.toNat - '0'.toNat) := by omega
    exact hn.trans (ih _)

/-- As long as the number fits, every digit is kept. -/
theorem foldl_push (digits : List Char) (n kept : Nat)
    (h : Nat.ofDigitChars 10 digits n ≤ Text.largestCount) :
    digits.foldl Significand.push { value := n, kept } =
      { value := Nat.ofDigitChars 10 digits n, kept := kept + digits.length } := by
  induction digits generalizing n kept with
  | nil => rfl
  | cons c digits ih =>
    have hle : 10 * n + (c.toNat - '0'.toNat) ≤ Text.largestCount :=
      (le_ofDigitChars digits _).trans h
    have hpush : Significand.push { value := n, kept } c =
        { value := 10 * n + (c.toNat - '0'.toNat), kept := kept + 1 } := by
      simp only [Significand.push, Nat.lt_irrefl, false_or]
      rw [if_neg (Nat.not_lt.mpr hle)]
    rw [List.foldl_cons, hpush, ih _ _ h, List.length_cons, Nat.add_right_comm, Nat.add_assoc]
    rfl

private theorem scanAfterDigits_of_delimited {s : Significand} {r : Reader} (positive : Bool)
    (hd : s.dropped = 0) (hr : Delimited r.rest) : scanAfterDigits positive s r =
      if positive then .ok (.integer s.value, r)
      else if s.value = 0 ∨ 0x8000000000000000 < s.value then finishReal positive s.value 0 r
      else .ok (.integer (-(s.value : Int)), r) := by
  obtain ⟨rest, p⟩ := r
  cases rest with
  | nil => simp [scanAfterDigits, hd]
  | cons c rest =>
    rcases hr c rfl with rfl | rfl | rfl | rfl <;> simp [scanAfterDigits, hd]

/-- The digits of a number are taken, and what follows them decides what the number is. -/
theorem scanUnsigned_digits {n : Nat} {rest : List Char} {r : Reader} (positive : Bool)
    (hn : n ≤ Text.largestCount) (hrest : Delimited rest) (h : r.rest = Nat.toDigits 10 n ++ rest) :
    ∃ (s : Significand) (r' : Reader), s.value = n ∧ s.dropped = 0 ∧ r'.rest = rest ∧
      scanUnsigned positive r = scanAfterDigits positive s r' := by
  by_cases hzero : n = 0
  · subst hzero
    have h : r.rest = '0' :: rest := h
    refine ⟨{}, r.advance, rfl, rfl, rest_advance h, ?_⟩
    cases rest with
    | nil => simp [scanUnsigned, h, rest_advance h]
    | cons c rest =>
      have hc : c.isDigit = false := by rcases hrest c rfl with rfl | rfl | rfl | rfl <;> rfl
      simp [scanUnsigned, h, rest_advance h, hc]
  · obtain ⟨c, digits, hdigits⟩ :=
      List.exists_cons_of_ne_nil (Nat.toDigits_ne_nil (n := n) (b := 10))
    have hc : c.isDigit = true := isDigit_of_mem_digits (n := n) (by simp [hdigits])
    have hne : c ≠ '0' := by
      rintro rfl
      exact head?_digits hzero (by rw [hdigits]; rfl)
    have hall (x) (hx : x ∈ Nat.toDigits 10 n) : x.isDigit = true := isDigit_of_mem_digits hx
    have hr : r.rest = c :: (digits ++ rest) := by rw [h, hdigits, List.cons_append]
    have hvalue : Nat.ofDigitChars 10 (Nat.toDigits 10 n) 0 = n := Nat.ofDigitChars_ten_toDigits
    have hscan : scanDigits 0 r = ({ value := n, kept := (Nat.toDigits 10 n).length },
        advanceWhile Char.isDigit r.rest r.place) := by
      rw [scanDigits, h, List.takeWhile_append_of_pos hall, hrest.takeWhile, List.append_nil,
        foldl_push _ _ _ (hvalue.symm ▸ hn), hvalue, Nat.zero_add]
    refine ⟨{ value := n, kept := (Nat.toDigits 10 n).length },
      advanceWhile Char.isDigit r.rest r.place, rfl, rfl, ?_, ?_⟩
    · rw [rest_advanceWhile, h, List.dropWhile_append_of_pos hall, hrest.dropWhile]
    · rw [scanUnsigned, hr]
      simp [hc, hscan, hr]

/-- An integer of 64 bits, with or without a sign, is read back. -/
theorem scanNumber_integerChars {n : Int} {rest : List Char} {r : Reader}
    (hlow : -0x8000000000000000 ≤ n) (hhigh : n ≤ Text.largestCount) (hrest : Delimited rest)
    (h : r.rest = integerChars n ++ rest) :
    ∃ r', r.scanNumber = .ok (.integer n, r') ∧ r'.rest = rest := by
  have hbound : n.natAbs ≤ Text.largestCount := by
    rw [Text.largestCount] at hhigh ⊢
    omega
  by_cases hn : n < 0
  · have hr : r.rest = '-' :: (Nat.toDigits 10 n.natAbs ++ rest) := by
      rw [h, integerChars, if_pos hn, List.cons_append]
    obtain ⟨s, r', hvalue, hdropped, hr', hscan⟩ :=
      scanUnsigned_digits false hbound hrest (rest_advance hr)
    have hfits : ¬ (s.value = 0 ∨ 0x8000000000000000 < s.value) := by omega
    have hneg : -(s.value : Int) = n := by omega
    refine ⟨r', ?_, hr'⟩
    rw [scanNumber, hr]
    simp only [hscan]
    rw [scanAfterDigits_of_delimited false hdropped (hr' ▸ hrest), if_neg hfits, hneg]
    rfl
  · have hr : r.rest = Nat.toDigits 10 n.natAbs ++ rest := by rw [h, integerChars, if_neg hn]
    obtain ⟨s, r', hvalue, hdropped, hr', hscan⟩ := scanUnsigned_digits true hbound hrest hr
    have hpos : (s.value : Int) = n := by omega
    have hunsigned : r.scanNumber = scanUnsigned true r := by
      obtain ⟨c, digits, hdigits⟩ :=
        List.exists_cons_of_ne_nil (Nat.toDigits_ne_nil (n := n.natAbs) (b := 10))
      have hc : c.isDigit = true := isDigit_of_mem_digits (n := n.natAbs) (by simp [hdigits])
      have hne : c ≠ '-' := by
        rintro rfl
        cases hc
      rw [scanNumber, hr, hdigits, List.cons_append]
      simp [hne]
    refine ⟨r', ?_, hr'⟩
    rw [hunsigned, hscan, scanAfterDigits_of_delimited true hdropped (hr' ▸ hrest), hpos]
    rfl

theorem takes_readText (expected : String) (s : String) (rest : List Char) :
    Takes (readText expected) (textChars s) rest s := by
  intro r h
  obtain ⟨r', hscan, hr'⟩ := scanText_textChars h
  rw [textChars, List.cons_append] at h
  refine ⟨r', ?_, hr'⟩
  rw [readText]
  simp only [h]
  exact hscan

theorem takes_readCharacter (c : Char) (rest : List Char) :
    Takes readCharacter (textChars (String.singleton c)) rest c := by
  intro r h
  obtain ⟨r', hread, hr'⟩ := takes_readText "a character" (String.singleton c) rest r h
  refine ⟨r', ?_, hr'⟩
  simp [readCharacter, hread]

theorem exists_integerChars (n : Int) :
    ∃ c digits, integerChars n = c :: digits ∧ (c = '-' ∨ c.isDigit = true) := by
  rw [integerChars]
  split
  · exact ⟨_, _, rfl, .inl rfl⟩
  · obtain ⟨c, digits, h⟩ :=
      List.exists_cons_of_ne_nil (Nat.toDigits_ne_nil (n := n.natAbs) (b := 10))
    exact ⟨c, digits, h, .inr (isDigit_of_mem_digits (n := n.natAbs) (by simp [h]))⟩

theorem takes_readInteger (expected : String) (ok : Int → Bool) {n : Int} {rest : List Char}
    (hok : ok n = true) (hlow : -0x8000000000000000 ≤ n) (hhigh : n ≤ Text.largestCount)
    (hrest : Delimited rest) : Takes (readInteger expected ok) (integerChars n) rest n := by
  intro r h
  obtain ⟨r', hscan, hr'⟩ := scanNumber_integerChars hlow hhigh hrest h
  obtain ⟨c, digits, hchars, hc⟩ := exists_integerChars n
  rw [hchars, List.cons_append] at h
  refine ⟨r', ?_, hr'⟩
  rw [readInteger]
  simp only [h, hscan]
  simp [hc, hok]

end Reader

end TapeMachine.Json
