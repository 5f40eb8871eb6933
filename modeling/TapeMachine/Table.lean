/-!
# Tables keyed by text

A table lists its entries in the order in which their keys were first inserted, and holds each key
once: inserting a key again replaces its value in place.
-/

namespace TapeMachine

/-- A finite map from text to values. -/
structure Table (α : Type) where
  entries : List (String × α)
  nodup : (entries.map Prod.fst).Nodup

namespace Table

variable {α : Type}

def empty : Table α := ⟨[], .nil⟩

instance : Inhabited (Table α) := ⟨empty⟩

instance [DecidableEq α] : DecidableEq (Table α) := fun s t =>
  match decEq s.entries t.entries with
  | .isTrue h => .isTrue (by cases s; cases t; cases h; rfl)
  | .isFalse h => .isFalse fun e => h (e ▸ rfl)

def keys (t : Table α) : List String := t.entries.map Prod.fst

def get? (t : Table α) (key : String) : Option α := t.entries.lookup key

/-- Sets the value of a key in a list of entries, at the end when the key is new. -/
def setEntry (key : String) (value : α) : List (String × α) → List (String × α)
  | [] => [(key, value)]
  | (k, v) :: rest => if k = key then (key, value) :: rest else (k, v) :: setEntry key value rest

private theorem mem_keys_setEntry {key k : String} {value : α} {entries : List (String × α)} :
    k ∈ (setEntry key value entries).map Prod.fst ↔ k = key ∨ k ∈ entries.map Prod.fst := by
  induction entries with
  | nil => simp [setEntry]
  | cons e rest ih => grind [setEntry]

private theorem nodup_setEntry {key : String} {value : α} {entries : List (String × α)}
    (h : (entries.map Prod.fst).Nodup) : ((setEntry key value entries).map Prod.fst).Nodup := by
  induction entries with
  | nil => simp [setEntry]
  | cons e rest ih =>
    obtain ⟨k, v⟩ := e
    simp only [List.map_cons, List.nodup_cons] at h
    by_cases hk : k = key
    · subst hk
      simpa [setEntry] using h
    · simp only [setEntry, if_neg hk, List.map_cons, List.nodup_cons, mem_keys_setEntry, not_or]
      exact ⟨⟨hk, h.1⟩, ih h.2⟩

def insert (t : Table α) (key : String) (value : α) : Table α :=
  ⟨setEntry key value t.entries, nodup_setEntry t.nodup⟩

/-- The table of a list of entries, where the last value of a repeated key wins. -/
def ofList (entries : List (String × α)) : Table α :=
  entries.foldl (fun t e => t.insert e.1 e.2) empty

@[simp] theorem get?_empty (key : String) : (empty : Table α).get? key = none := rfl

private theorem lookup_cons_eq (key k : String) (value : α) (entries : List (String × α)) :
    ((key, value) :: entries).lookup k = if k = key then some value else entries.lookup k := by
  by_cases h : k = key
  · simp [h]
  · simp [List.lookup_cons, beq_eq_false_iff_ne.mpr h, h]

theorem get?_insert (t : Table α) (key : String) (value : α) (k : String) :
    (t.insert key value).get? k = if k = key then some value else t.get? k := by
  obtain ⟨entries, h⟩ := t
  simp only [get?, insert]
  clear h
  induction entries with
  | nil => rw [setEntry, lookup_cons_eq]
  | cons e rest ih =>
    obtain ⟨x, y⟩ := e
    by_cases hx : x = key
    · subst hx
      simp only [setEntry, if_true, lookup_cons_eq]
      split <;> rfl
    · simp only [setEntry, if_neg hx, lookup_cons_eq, ih]
      by_cases hk : k = x
      · subst hk
        simp [hx]
      · simp [hk]

theorem eq_of_entries {s t : Table α} (h : s.entries = t.entries) : s = t := by
  cases s
  cases t
  cases h
  rfl

theorem isSome_get? {t : Table α} {key : String} : (t.get? key).isSome = true ↔ key ∈ t.keys := by
  simp [get?, keys, List.lookup_isSome_iff]

/-- The entries are what a table answers with. -/
theorem mem_entries_iff {t : Table α} {key : String} {value : α} :
    (key, value) ∈ t.entries ↔ t.get? key = some value := by
  obtain ⟨entries, h⟩ := t
  simp only [get?]
  induction entries with
  | nil => simp
  | cons e rest ih =>
    obtain ⟨k, v⟩ := e
    simp only [List.map_cons, List.nodup_cons] at h
    by_cases hk : key = k
    · subst hk
      have hrest : (key, value) ∉ rest := fun hm => h.1 (List.mem_map.mpr ⟨_, hm, rfl⟩)
      simp [hrest, eq_comm]
    · simp [List.lookup_cons, beq_eq_false_iff_ne.mpr hk, hk, ih h.2]

/-- A new key is put behind the others. -/
theorem entries_insert {t : Table α} {key : String} (value : α) (h : key ∉ t.keys) :
    (t.insert key value).entries = t.entries ++ [(key, value)] := by
  obtain ⟨entries, hnodup⟩ := t
  simp only [insert, keys] at h ⊢
  clear hnodup
  induction entries with
  | nil => rfl
  | cons e rest ih =>
    obtain ⟨k, v⟩ := e
    rw [List.map_cons, List.mem_cons, not_or] at h
    rw [setEntry, if_neg (Ne.symm h.1), ih h.2]
    rfl

end Table

end TapeMachine
