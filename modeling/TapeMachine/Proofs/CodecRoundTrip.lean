import TapeMachine.Proofs.JsonTokens

/-!
# Reading undoes writing

A codec keeps a value when it can represent it: counts and integers have 64 bits, options have a
name of their own, the fields of a record have different names. What a codec writes for a value that
it keeps, compact or laid out over lines, it reads back as the same value. The proof follows the
codec: each kind of value is taken off the text that was written for it, whatever follows.
-/

namespace TapeMachine.Json

def Fields.names : {α σ : Type} → Fields α σ → List String
  | _, _, .nil => []
  | _, _, .cons name _ _ rest => name :: rest.names

/-- What is known of the fields when all their values have been read. -/
def Fields.known : {α σ : Type} → Fields α σ → α → σ
  | _, _, .nil, () => ()
  | _, _, .cons _ _ _ rest, (value, others) => (some value, rest.known others)

@[simp] theorem Fields.finish_known : {α σ : Type} → (fields : Fields α σ) → (value : α) →
    fields.finish (fields.known value) = .ok value
  | _, _, .nil, () => rfl
  | _, _, .cons name codec fallback rest, (value, others) => by
    simp [finish, known, finish_known rest others, Except.map]

/-- An integer of 64 bits with a sign. -/
def FitsSigned (n : Int) : Prop := -0x8000000000000000 ≤ n ∧ n < 0x8000000000000000

instance (n : Int) : Decidable (FitsSigned n) := inferInstanceAs (Decidable (_ ∧ _))

mutual

/-- The values that a codec represents without loss. -/
def Codec.Keeps : {α : Type} → Codec α → α → Prop
  | _, .text, _ => True
  | _, .character, _ => True
  | _, .count, n => n ≤ Text.largestCount
  | _, .integer, n => FitsSigned n
  | _, .choice options name, value => options.lookup (name value) = some value
  | _, .nullable item, value => ∀ v ∈ value, item.Keeps v ∧ item.document v ≠ .null
  | _, .list item, values => ∀ v ∈ values, item.Keeps v
  | _, .table item, t => ∀ e ∈ t.entries, item.Keeps e.2
  | _, .record _ fields, value => fields.names.Nodup ∧ fields.Keep value
  | _, .convert make view codec, value => make (view value) = value ∧ codec.Keeps (view value)

def Fields.Keep : {α σ : Type} → Fields α σ → α → Prop
  | _, _, .nil, () => True
  | _, _, .cons _ codec _ rest, (value, others) => codec.Keeps value ∧ rest.Keep others

end

namespace Document

/-- The text of a document begins with a character that opens a value. -/
theorem exists_chars (layout : Layout) (depth : Nat) (d : Document) :
    ∃ c rest, d.chars layout depth = c :: rest ∧ Reader.isSpace c = false ∧ c ≠ ']' ∧
      (c = 'n' ↔ d = .null) := by
  cases d with
  | null => exact ⟨_, _, rfl, rfl, by decide, by simp⟩
  | boolean value => cases value <;> exact ⟨_, _, rfl, rfl, by decide, by simp⟩
  | integer n =>
    obtain ⟨c, digits, h, hc⟩ := Reader.exists_integerChars n
    refine ⟨c, digits, h, ?_⟩
    rcases hc with rfl | hc
    · exact ⟨rfl, by decide, by simp⟩
    · have hne (x : Char) (hx : x.isDigit = false) : c ≠ x := by
        rintro rfl
        rw [hx] at hc
        cases hc
      refine ⟨?_, hne _ rfl, by simp [hne 'n' rfl]⟩
      simp [Reader.isSpace, hne ' ' rfl, hne '\t' rfl, hne '\n' rfl, hne '\r' rfl]
  | text s => exact ⟨_, _, rfl, rfl, by decide, by simp⟩
  | list items => cases items <;> exact ⟨_, _, rfl, rfl, by decide, by simp⟩
  | object members =>
    rcases members with _ | ⟨⟨key, value⟩, members⟩ <;> exact ⟨_, _, rfl, rfl, by decide, by simp⟩

end Document

namespace Reader

variable {layout : Layout} {depth : Nat} {r : Reader} {c : Char} {rest : List Char}

private theorem isSpace_of_mem_lineStart {x : Char} (h : x ∈ layout.lineStart depth) :
    isSpace x = true := by
  cases layout with
  | compact => cases h
  | lines =>
    rcases List.mem_cons.mp h with rfl | h
    · rfl
    · rw [(List.mem_replicate.mp h).2]
      rfl

private theorem rest_skipSpace_lineStart (hc : isSpace c = false)
    (h : r.rest = layout.lineStart depth ++ c :: rest) : r.skipSpace.rest = c :: rest :=
  rest_skipSpace_append (fun _ => isSpace_of_mem_lineStart) hc h

/-- Without spaces in front nothing is skipped. -/
theorem rest_skipSpace_cons (hc : isSpace c = false) (h : r.rest = c :: rest) :
    r.skipSpace.rest = c :: rest :=
  rest_skipSpace_append (List.forall_mem_nil _) hc h

private theorem delimited_lineStart (hc : c = ',' ∨ c = ']' ∨ c = '\x7d' ∨ c = '\n') :
    Delimited (layout.lineStart depth ++ c :: rest) := by
  cases layout with
  | compact => exact delimited_cons hc
  | lines => exact delimited_cons (by simp)

private theorem nextItem_end (first : Bool) (h : r.rest = layout.lineStart depth ++ ']' :: rest) :
    ∃ r', r.nextItem first = .ok (false, r') ∧ r'.rest = ']' :: rest := by
  have hr := rest_skipSpace_lineStart rfl h
  refine ⟨r.skipSpace, ?_, hr⟩
  rw [nextItem]
  simp only [hr]

private theorem nextItem_first {d : Document}
    (h : r.rest = layout.lineStart depth ++ (d.chars layout depth ++ rest)) :
    ∃ r', r.nextItem true = .ok (true, r') ∧ r'.skipSpace.rest = d.chars layout depth ++ rest := by
  obtain ⟨c, tail, hchars, hspace, hc, -⟩ := d.exists_chars layout depth
  rw [hchars, List.cons_append] at h ⊢
  have hr := rest_skipSpace_lineStart hspace h
  refine ⟨r.skipSpace, ?_, rest_skipSpace_cons hspace hr⟩
  rw [nextItem]
  simp [hr]

private theorem nextItem_comma {d : Document}
    (h : r.rest = ',' :: (layout.lineStart depth ++ (d.chars layout depth ++ rest))) :
    ∃ r', r.nextItem false = .ok (true, r') ∧ r'.skipSpace.rest = d.chars layout depth ++ rest := by
  obtain ⟨c, tail, hchars, hspace, hc, -⟩ := d.exists_chars layout depth
  rw [hchars, List.cons_append] at h ⊢
  have hr := rest_skipSpace_cons rfl h
  have hnext := rest_skipSpace_lineStart hspace (rest_advance hr)
  refine ⟨r.skipSpace.advance.skipSpace, ?_, rest_skipSpace_cons hspace hnext⟩
  rw [nextItem]
  simp [hr, hnext, hc]

private theorem close_closing (bracket : Bracket) (h : r.rest = bracket.closing :: rest) :
    ∃ r', r.close bracket = (.ok (), r') ∧ r'.rest = rest := by
  have hs : isSpace bracket.closing = false := by cases bracket <;> rfl
  have hr := rest_skipSpace_cons hs h
  refine ⟨r.skipSpace.advance, ?_, rest_advance hr⟩
  simp only [close, hr, if_true]

private theorem closing_ok {α : Type} (bracket : Bracket) (value : α)
    (h : r.rest = bracket.closing :: rest) :
    ∃ r', closing bracket (.ok (value, r)) = .ok (value, r') ∧ r'.rest = rest := by
  obtain ⟨r', hclose, hr'⟩ := close_closing bracket h
  refine ⟨r', ?_, hr'⟩
  simp [closing, hclose]

section Items

variable {α : Type} {read : Reader → Scan α} {document : α → Document} {values : List α}

/-- Each of the values is taken off its text on the next level. -/
def TakesItems (read : Reader → Scan α) (document : α → Document) (layout : Layout) (depth : Nat)
    (values : List α) : Prop :=
  ∀ v ∈ values, ∀ rest, Delimited rest →
    Takes read ((document v).chars layout (depth + 1)) rest v

private theorem delimited_itemsChars (docs : List Document) :
    Delimited (Document.itemsChars layout depth docs ++ ']' :: rest) := by
  cases docs with
  | nil => exact delimited_lineStart (by simp)
  | cons d docs => exact delimited_cons (by simp)

/-- One round of reading a list, at the text of a value. -/
theorem readItems_next {v : α} {text : List Char} {r' : Reader} (b : Char) (bound : List Char)
    (taken : List α) (hnext : r.nextItem taken.isEmpty = .ok (true, r'))
    (hr' : r'.skipSpace.rest = text ++ rest) (hv : Takes read text rest v) :
    ∃ r'' : Reader, r''.rest = rest ∧
      readItems read (b :: bound) taken r = readItems read bound (v :: taken) r'' := by
  obtain ⟨r'', hread, hr''⟩ := hv r' hr'
  refine ⟨r'', hr'', ?_⟩
  simp [readItems, hnext, hread]

/-- The items behind the first one are read up to the closing bracket. -/
theorem readItems_itemsChars (h : TakesItems read document layout depth values)
    {bound : List Char} (hb : values.length < bound.length) (taken : List α)
    (ht : taken.isEmpty = false)
    (hr : r.rest = Document.itemsChars layout depth (values.map document) ++ ']' :: rest) :
    ∃ r', readItems read bound taken r = .ok (taken.reverse ++ values, r') ∧
      r'.rest = ']' :: rest := by
  induction values generalizing bound taken r with
  | nil =>
    cases bound with
    | nil => cases hb
    | cons b bound =>
      obtain ⟨r', hnext, hr'⟩ := nextItem_end false hr
      refine ⟨r', ?_, hr'⟩
      simp [readItems, ht, hnext]
  | cons v values ih =>
    cases bound with
    | nil => cases hb
    | cons b bound =>
      simp only [List.map_cons, Document.itemsChars, List.cons_append, List.append_assoc] at hr
      obtain ⟨r', hnext, hr'⟩ := nextItem_comma hr
      obtain ⟨next, hrest, hround⟩ := readItems_next b bound taken (ht ▸ hnext) hr'
        (h v List.mem_cons_self _ (delimited_itemsChars _))
      obtain ⟨last, hread, hlast⟩ := ih (fun w hw => h w (List.mem_cons_of_mem v hw))
        (Nat.lt_of_succ_lt_succ hb) (v :: taken) rfl hrest
      refine ⟨last, ?_, hlast⟩
      rw [hround, hread]
      simp

private theorem length_le_itemsChars (layout : Layout) (depth : Nat) (docs : List Document) :
    docs.length ≤ (Document.itemsChars layout depth docs).length := by
  induction docs with
  | nil => exact Nat.zero_le _
  | cons d docs ih =>
    simp only [Document.itemsChars, List.length_cons, List.length_append]
    omega

/-- A list is read from bracket to bracket. -/
theorem takes_readList (expected : String) (h : TakesItems read document layout depth values) :
    Takes (readList expected fun r => settled (readItems read r.rest [] r))
      ((Document.list (values.map document)).chars layout depth) rest values := by
  intro r hr
  have hinside : ∃ r', readItems read r.skipSpace.advance.rest [] r.skipSpace.advance =
      .ok (values, r') ∧ r'.rest = ']' :: rest := by
    cases values with
    | nil =>
      have hr : r.skipSpace.advance.rest = Layout.lineStart .compact 0 ++ ']' :: rest :=
        rest_advance hr
      obtain ⟨r', hnext, hr'⟩ := nextItem_end true hr
      refine ⟨r', ?_, hr'⟩
      rw [hr]
      simp [readItems, hnext, Layout.lineStart]
    | cons v values =>
      simp only [List.map_cons, Document.chars, List.cons_append, List.append_assoc] at hr
      have hr := rest_advance hr
      have hlength := length_le_itemsChars layout depth (values.map document)
      obtain ⟨c, tail, hchars, -⟩ := (document v).exists_chars layout (depth + 1)
      obtain ⟨r', hnext, hr'⟩ := nextItem_first hr
      cases hbound : r.skipSpace.advance.rest with
      | nil => simp [hr, hchars] at hbound
      | cons b bound =>
        obtain ⟨next, hrest, hround⟩ := readItems_next b bound [] hnext hr'
          (h v List.mem_cons_self _ (delimited_itemsChars _))
        have hb : values.length < bound.length := by
          have := congrArg List.length (hr.symm.trans hbound)
          simp only [hchars, List.length_append, List.length_cons, List.length_map] at this hlength
          omega
        obtain ⟨last, hread, hlast⟩ := readItems_itemsChars
          (fun w hw => h w (List.mem_cons_of_mem v hw)) hb [v] rfl hrest
        refine ⟨last, ?_, hlast⟩
        rw [hround, hread]
        rfl
  obtain ⟨r', hread, hr'⟩ := hinside
  obtain ⟨last, hclose, hlast⟩ := closing_ok .list values hr'
  refine ⟨last, ?_, hlast⟩
  have hopen : ∃ tail, r.skipSpace.rest = '[' :: tail := by
    rw [hr]
    cases values <;> exact ⟨_, rfl⟩
  obtain ⟨tail, hopen⟩ := hopen
  rw [readList]
  simp only [hopen]
  rw [← hclose, hread]
  rfl

end Items

private theorem takeKey_textChars {key : String} (h : r.rest = textChars key ++ rest) :
    ∃ r', r.takeKey = .ok (some key, r') ∧ r'.rest = rest := by
  obtain ⟨r', hscan, hr'⟩ := scanText_textChars h
  rw [textChars, List.cons_append] at h
  refine ⟨r', ?_, hr'⟩
  rw [takeKey]
  simp [h, hscan, Except.map]

private theorem nextKey_end (first : Bool) (h : r.rest = layout.lineStart depth ++ '\x7d' :: rest) :
    ∃ r', r.nextKey first = .ok (none, r') ∧ r'.rest = '\x7d' :: rest := by
  have hr := rest_skipSpace_lineStart rfl h
  refine ⟨r.skipSpace, ?_, hr⟩
  rw [nextKey]
  simp only [hr]

private theorem nextKey_first {key : String}
    (h : r.rest = layout.lineStart depth ++ (textChars key ++ rest)) :
    ∃ r', r.nextKey true = .ok (some key, r') ∧ r'.rest = rest := by
  have hr : r.skipSpace.rest = textChars key ++ rest := rest_skipSpace_lineStart rfl h
  obtain ⟨r', hkey, hr'⟩ := takeKey_textChars hr
  rw [textChars, List.cons_append] at hr
  refine ⟨r', ?_, hr'⟩
  rw [nextKey]
  simp [hr, hkey]

private theorem nextKey_comma {key : String}
    (h : r.rest = ',' :: (layout.lineStart depth ++ (textChars key ++ rest))) :
    ∃ r', r.nextKey false = .ok (some key, r') ∧ r'.rest = rest := by
  have hr := rest_skipSpace_cons rfl h
  have hnext : r.skipSpace.advance.skipSpace.rest = textChars key ++ rest :=
    rest_skipSpace_lineStart rfl (rest_advance hr)
  obtain ⟨r', hkey, hr'⟩ := takeKey_textChars hnext
  rw [textChars, List.cons_append] at hnext
  refine ⟨r', ?_, hr'⟩
  rw [nextKey]
  simp [hr, hnext, hkey]

private theorem scanColon_colon {d : Document}
    (h : r.rest = layout.colon ++ (d.chars layout depth ++ rest)) :
    ∃ r', r.scanColon = .ok r' ∧ r'.skipSpace.rest = d.chars layout depth ++ rest := by
  obtain ⟨c, tail, hchars, hspace, -⟩ := d.exists_chars layout depth
  rw [hchars, List.cons_append] at h ⊢
  have hcolon : ∃ spaces, layout.colon = ':' :: spaces ∧ ∀ x ∈ spaces, isSpace x = true := by
    cases layout with
    | compact => exact ⟨[], rfl, by simp⟩
    | lines => exact ⟨[' '], rfl, by simp [isSpace]⟩
  obtain ⟨spaces, hcolon, hspaces⟩ := hcolon
  rw [hcolon, List.cons_append] at h
  have hr := rest_skipSpace_cons rfl h
  refine ⟨r.skipSpace.advance, ?_, rest_skipSpace_append hspaces hspace (rest_advance hr)⟩
  rw [scanColon]
  simp [hr]

section Members

variable {σ : Type} {member : String → σ → Reader → Inside σ} {known known' : σ}
  {members : List (String × Document)}

/-- The members are taken off their texts one after the other, and what is known changes with each
of them. -/
inductive TakesMembers (member : String → σ → Reader → Inside σ) (layout : Layout) (depth : Nat) :
    List (String × Document) → σ → σ → Prop where
  | nil (known : σ) : TakesMembers member layout depth [] known known
  | cons {key : String} {d : Document} {members : List (String × Document)} {known last : σ}
      (next : σ) (h : ∀ (r : Reader) (rest : List Char), Delimited rest →
        r.rest = layout.colon ++ (d.chars layout (depth + 1) ++ rest) →
        ∃ r', member key known r = .ok (next, r') ∧ r'.rest = rest)
      (hmembers : TakesMembers member layout depth members next last) :
      TakesMembers member layout depth ((key, d) :: members) known last

private theorem delimited_membersChars (members : List (String × Document)) :
    Delimited (Document.membersChars layout depth members ++ '\x7d' :: rest) := by
  rcases members with _ | ⟨⟨key, d⟩, members⟩
  · exact delimited_lineStart (by simp)
  · exact delimited_cons (by simp)

/-- The members behind the first one are read up to the closing brace. -/
theorem readMembers_membersChars (h : TakesMembers member layout depth members known known')
    {bound : List Char} (hb : members.length < bound.length)
    (hr : r.rest = Document.membersChars layout depth members ++ '\x7d' :: rest) :
    ∃ r', readMembers member bound false known r = .ok (known', r') ∧ r'.rest = '\x7d' :: rest := by
  induction h generalizing bound r with
  | nil known =>
    cases bound with
    | nil => cases hb
    | cons b bound =>
      obtain ⟨r', hnext, hr'⟩ := nextKey_end false hr
      refine ⟨r', ?_, hr'⟩
      simp [readMembers, hnext]
  | cons next h hmembers ih =>
    cases bound with
    | nil => cases hb
    | cons b bound =>
      simp only [Document.membersChars, List.cons_append, List.append_assoc] at hr
      obtain ⟨r', hnext, hr'⟩ := nextKey_comma hr
      obtain ⟨after, hmember, hrest⟩ := h r' _ (delimited_membersChars _) hr'
      obtain ⟨last, hread, hlast⟩ := ih (Nat.lt_of_succ_lt_succ hb) hrest
      refine ⟨last, ?_, hlast⟩
      simp [readMembers, hnext, hmember, hread]

private theorem length_le_membersChars (layout : Layout) (depth : Nat)
    (members : List (String × Document)) :
    members.length ≤ (Document.membersChars layout depth members).length := by
  induction members with
  | nil => exact Nat.zero_le _
  | cons m members ih =>
    obtain ⟨key, d⟩ := m
    simp only [Document.membersChars, List.length_cons, List.length_append]
    omega

/-- The inside of an object is read up to its closing brace. -/
theorem readMembers_object (h : TakesMembers member layout depth members known known')
    (hr : r.skipSpace.rest = (Document.object members).chars layout depth ++ rest) :
    ∃ r', readMembers member r.skipSpace.advance.rest true known r.skipSpace.advance =
      .ok (known', r') ∧ r'.rest = '\x7d' :: rest := by
  cases h with
  | nil =>
    have hr : r.skipSpace.advance.rest = Layout.lineStart .compact 0 ++ '\x7d' :: rest :=
      rest_advance hr
    obtain ⟨r', hnext, hr'⟩ := nextKey_end true hr
    refine ⟨r', ?_, hr'⟩
    rw [hr]
    simp [readMembers, hnext, Layout.lineStart]
  | @cons key d members known last next h hmembers =>
    simp only [Document.chars, List.cons_append, List.append_assoc] at hr
    have hr := rest_advance hr
    obtain ⟨r', hnext, hr'⟩ := nextKey_first hr
    obtain ⟨after, hmember, hrest⟩ := h r' _ (delimited_membersChars _) hr'
    have hlength := length_le_membersChars layout depth members
    cases hbound : r.skipSpace.advance.rest with
    | nil => simp [hr, textChars] at hbound
    | cons b bound =>
      have hb : members.length < bound.length := by
        have := congrArg List.length (hr.symm.trans hbound)
        simp only [textChars, List.length_append, List.length_cons] at this
        omega
      obtain ⟨last, hread, hlast⟩ := readMembers_membersChars hmembers hb hrest
      refine ⟨last, ?_, hlast⟩
      simp [readMembers, hnext, hmember, hread]

private theorem exists_object_chars (layout : Layout) (depth : Nat)
    (members : List (String × Document)) :
    ∃ tail, (Document.object members).chars layout depth = '\x7b' :: tail := by
  rcases members with _ | ⟨⟨key, d⟩, members⟩ <;> exact ⟨_, rfl⟩

/-- An object is read from brace to brace. What its members make known is turned into a value before
the closing brace is looked for. -/
theorem takes_readObject {α : Type} (value : α) (expected : String)
    (inside : Reader → Inside α) (h : TakesMembers member layout depth members known known')
    (hinside : ∀ r r' : Reader, readMembers member r.rest true known r = .ok (known', r') →
      inside r = .ok (value, r')) :
    Takes (readObject expected inside) ((Document.object members).chars layout depth) rest
      value := by
  intro r hr
  obtain ⟨r', hread, hr'⟩ := readMembers_object h hr
  obtain ⟨last, hclose, hlast⟩ := closing_ok .object value hr'
  obtain ⟨tail, hchars⟩ := exists_object_chars layout depth members
  refine ⟨last, ?_, hlast⟩
  rw [hchars, List.cons_append] at hr
  rw [readObject]
  simp only [hr]
  rw [hinside _ _ hread, hclose]

end Members

end Reader

open Reader

section Table

variable {α : Type} {layout : Layout} {depth : Nat}

/-- Reading a member of a table puts its value under its key. -/
def readEntry (read : Reader → Scan α) (key : String) (t : Table α) (r : Reader) :
    Inside (Table α) :=
  settled (r.scanColon.bind fun r => (read r).map fun (value, r) => (t.insert key value, r))

/-- Entries with new keys are put behind those of the table. -/
theorem takesMembers_table {read : Reader → Scan α} {document : α → Document}
    {entries : List (String × α)}
    (h : ∀ e ∈ entries, ∀ rest, Delimited rest →
      Takes read ((document e.2).chars layout (depth + 1)) rest e.2)
    (s t : Table α) (ht : t.entries = s.entries ++ entries) :
    TakesMembers (readEntry read) layout depth
      (entries.map fun (key, value) => (key, document value)) s t := by
  induction entries generalizing s with
  | nil =>
    obtain rfl : t = s := Table.eq_of_entries (by simpa using ht)
    exact .nil _
  | cons e entries ih =>
    obtain ⟨key, value⟩ := e
    have hnew : key ∉ s.keys := by
      have hnodup := t.nodup
      rw [ht, List.map_append, List.map_cons] at hnodup
      exact fun hkey => (List.nodup_append.mp hnodup).2.2 key hkey key List.mem_cons_self rfl
    refine .cons (s.insert key value) (fun r rest hrest hr => ?_) ?_
    · obtain ⟨r', hcolon, hr'⟩ := scanColon_colon hr
      obtain ⟨last, hread, hlast⟩ := h _ List.mem_cons_self rest hrest r' hr'
      refine ⟨last, ?_, hlast⟩
      simp [readEntry, hcolon, hread, Except.bind, Except.map, settled]
    · refine ih (fun e he => h e (List.mem_cons_of_mem _ he)) _ ?_
      rw [ht, Table.entries_insert value hnew, List.append_assoc]
      rfl

end Table

section Fields

variable {α β σ : Type} {layout : Layout} {depth : Nat} {fields : Fields β σ}

private theorem Fields.map_fst_members : {α σ : Type} → (fields : Fields α σ) → (value : α) →
    (fields.members value).map Prod.fst = fields.names
  | _, _, .nil, () => rfl
  | _, _, .cons name _ _ rest, (value, others) => by
    simp [members, names, map_fst_members rest others]

/-- Members with other names are read past a field that is known. -/
theorem takesMembers_cons {name : String} {codec : Codec α} {fallback : Option α} {value : α}
    {members : List (String × Document)} {known known' : σ}
    (h : TakesMembers fields.readMember layout depth members known known')
    (hname : name ∉ members.map Prod.fst) :
    TakesMembers (Fields.cons name codec fallback fields).readMember layout depth members
      (some value, known) (some value, known') := by
  induction h with
  | nil => exact .nil _
  | @cons key d members known last next h hmembers ih =>
    rw [List.map_cons, List.mem_cons, not_or] at hname
    refine .cons (some value, next) (fun r rest hrest hr => ?_) (ih hname.2)
    obtain ⟨r', hmember, hr'⟩ := h r rest hrest hr
    refine ⟨r', ?_, hr'⟩
    simp [Fields.readMember, Ne.symm hname.1, hmember, Except.map]

end Fields

section Kinds

variable {α β σ : Type} {layout : Layout} {depth : Nat} {rest : List Char}

private theorem takes_count {n : Nat} (h : n ≤ Text.largestCount) (hrest : Delimited rest) :
    Takes Codec.count.read ((Codec.count.document n).chars layout depth) rest n := by
  intro r hr
  have hlow : -0x8000000000000000 ≤ (n : Int) := by omega
  obtain ⟨r', hread, hr'⟩ := takes_readInteger "usize" (fun n => 0 ≤ n) (by simp) hlow
    (Int.ofNat_le.mpr h) hrest r hr
  refine ⟨r', ?_, hr'⟩
  rw [Codec.read, hread]
  rfl

private theorem takes_integer {n : Int} (h : FitsSigned n) (hrest : Delimited rest) :
    Takes Codec.integer.read ((Codec.integer.document n).chars layout depth) rest n := by
  have hhigh : n ≤ Text.largestCount := by
    have := h.2
    rw [Text.largestCount]
    omega
  exact takes_readInteger "i64" _ (by simpa using h.2) h.1 hhigh hrest

private theorem takes_choice {options : List (String × α)} {name : α → String} {value : α}
    (h : options.lookup (name value) = some value) :
    Takes (Codec.choice options name).read
      (((Codec.choice options name).document value).chars layout depth) rest value := by
  intro r hr
  obtain ⟨r', hscan, hr'⟩ := scanText_textChars (s := name value) hr
  refine ⟨r', ?_, hr'⟩
  simp only [Codec.document, Document.chars, textChars, List.cons_append] at hr
  simp only [Codec.read, readChoice, hr]
  simp [hscan, chosen, h, bind, Except.bind, pure, Except.pure]

private theorem takes_nullable {item : Codec α} {value : Option α}
    (hitem : ∀ v ∈ value, Takes item.read ((item.document v).chars layout depth) rest v)
    (hnull : ∀ v ∈ value, item.document v ≠ .null) :
    Takes (Codec.nullable item).read
      (((Codec.nullable item).document value).chars layout depth) rest value := by
  intro r hr
  cases value with
  | none =>
    simp only [Codec.document, Document.chars, List.cons_append, List.nil_append] at hr
    have hu := rest_advance hr
    have hl := rest_advance hu
    have hl' := rest_advance hl
    refine ⟨_, ?_, rest_advance hl'⟩
    simp only [Codec.read, readNullable, hr]
    simp [scanWord, hu, hl, hl', Except.map]
  | some v =>
    obtain ⟨c, tail, hchars, hspace, -, hn⟩ := (item.document v).exists_chars layout depth
    have hc : c ≠ 'n' := fun hc => hnull v rfl (hn.mp hc)
    simp only [Codec.document] at hr
    have hskip : r.skipSpace.skipSpace.rest = (item.document v).chars layout depth ++ rest := by
      rw [hchars, List.cons_append] at hr ⊢
      exact rest_skipSpace_cons hspace hr
    obtain ⟨r', hread, hr'⟩ := hitem v rfl r.skipSpace hskip
    refine ⟨r', ?_, hr'⟩
    rw [hchars, List.cons_append] at hr
    simp only [Codec.read, readNullable, hr]
    simp [hc, hread, Except.map]

private theorem takes_table {item : Codec α} {t : Table α}
    (hitem : ∀ e ∈ t.entries, ∀ rest, Delimited rest →
      Takes item.read ((item.document e.2).chars layout (depth + 1)) rest e.2) :
    Takes (Codec.table item).read (((Codec.table item).document t).chars layout depth) rest t := by
  have hmembers := takesMembers_table hitem Table.empty t rfl
  refine takes_readObject t "a map" _ hmembers fun r r' hread => ?_
  exact hread

private theorem takes_record {name : String} {fields : Fields α σ} {value : α}
    (h : TakesMembers fields.readMember layout depth (fields.members value) fields.unknown
      (fields.known value)) :
    Takes (Codec.record name fields).read
      (((Codec.record name fields).document value).chars layout depth) rest value := by
  intro r hr
  obtain ⟨tail, hchars⟩ := exists_object_chars layout depth (fields.members value)
  have hskip : r.skipSpace.skipSpace.rest =
      (Document.object (fields.members value)).chars layout depth ++ rest := by
    simp only [Codec.document, hchars, List.cons_append] at hr ⊢
    exact rest_skipSpace_cons rfl hr
  simp only [Codec.document, hchars, List.cons_append] at hr
  simp only [Codec.read, hr]
  exact takes_readObject value _ _ h (fun r r' hread => by simp [hread]) r.skipSpace hskip

private theorem takes_convert {make : α → β} {view : β → α} {codec : Codec α} {value : β}
    (hview : make (view value) = value)
    (h : Takes codec.read ((codec.document (view value)).chars layout depth) rest (view value)) :
    Takes (Codec.convert make view codec).read
      (((Codec.convert make view codec).document value).chars layout depth) rest value := by
  intro r hr
  simp only [Codec.document] at hr
  obtain ⟨r', hread, hr'⟩ := h r hr
  refine ⟨r', ?_, hr'⟩
  simp [Codec.read, hread, hview, Except.map]

end Kinds

mutual

/-- What a codec writes for a value that it keeps is taken as that value. -/
theorem Codec.takes_document : {α : Type} → (codec : Codec α) → {value : α} → codec.Keeps value →
    (layout : Layout) → (depth : Nat) → (rest : List Char) → Delimited rest →
    Takes codec.read ((codec.document value).chars layout depth) rest value
  | _, .text, s, _, _, _, rest, _ => takes_readText "a string" s rest
  | _, .character, c, _, _, _, rest, _ => takes_readCharacter c rest
  | _, .count, _, h, _, _, _, hrest => takes_count h hrest
  | _, .integer, _, h, _, _, _, hrest => takes_integer h hrest
  | _, .choice _ _, _, h, _, _, _, _ => takes_choice h
  | _, .nullable item, _, h, layout, depth, rest, hrest =>
    takes_nullable (fun v hv => item.takes_document (h v hv).1 layout depth rest hrest)
      fun v hv => (h v hv).2
  | _, .list item, _, h, layout, depth, _, _ =>
    takes_readList "a sequence" fun v hv rest hrest =>
      item.takes_document (h v hv) layout (depth + 1) rest hrest
  | _, .table item, _, h, layout, depth, _, _ =>
    takes_table fun e he rest hrest => item.takes_document (h e he) layout (depth + 1) rest hrest
  | _, .record _ fields, _, h, layout, depth, _, _ =>
    takes_record (fields.takesMembers h.2 h.1 layout depth)
  | _, .convert _ _ codec, _, h, layout, depth, rest, hrest =>
    takes_convert h.1 (codec.takes_document h.2 layout depth rest hrest)

/-- The members that are written for the fields of a record make all its values known. -/
theorem Fields.takesMembers : {α σ : Type} → (fields : Fields α σ) → {value : α} →
    fields.Keep value → fields.names.Nodup → (layout : Layout) → (depth : Nat) →
    TakesMembers fields.readMember layout depth (fields.members value) fields.unknown
      (fields.known value)
  | _, _, .nil, (), _, _, _, _ => .nil _
  | _, _, .cons name codec fallback fields, (value, others), h, hnodup, layout, depth => by
    obtain ⟨hname, hnames⟩ := List.nodup_cons.mp hnodup
    have hothers := fields.takesMembers h.2 hnames layout depth
    refine .cons (some value, fields.unknown) (fun r rest hrest hr => ?_) ?_
    · obtain ⟨r', hcolon, hr'⟩ := scanColon_colon hr
      obtain ⟨last, hread, hlast⟩ := codec.takes_document h.1 layout (depth + 1) rest hrest r' hr'
      refine ⟨last, ?_, hlast⟩
      simp [Fields.readMember, Fields.unknown, hcolon, hread, Except.bind, Except.map, settled]
    · refine takesMembers_cons hothers ?_
      rwa [Fields.map_fst_members]

end

/-- Decoding undoes encoding for every value that the codec keeps. -/
theorem Codec.decode_encode {α : Type} (layout : Layout) {codec : Codec α} {value : α}
    (h : codec.Keeps value) : codec.decode (codec.encode layout value) = .ok value := by
  have hr : (ofString (codec.encode layout value)).rest =
      (codec.document value).chars layout 0 := by
    simp [ofString, encode, Document.render]
  have hskip : (ofString (codec.encode layout value)).skipSpace.rest =
      (codec.document value).chars layout 0 ++ [] := by
    obtain ⟨c, tail, hchars, hspace, -⟩ := (codec.document value).exists_chars layout 0
    rw [hchars] at hr
    rw [List.append_nil, hchars]
    exact rest_skipSpace_cons hspace hr
  obtain ⟨r', hread, hr'⟩ := codec.takes_document h layout 0 [] delimited_nil _ hskip
  have hend : r'.skipSpace.rest = [] := by
    rw [rest_skipSpace, hr']
    rfl
  simp [decode, hread, hend]

end TapeMachine.Json
