import Mathlib.Data.Option.Basic
import Mathlib.Tactic.SplitIfs
import TapeMachine.Machine

/-!
# Compiled rules

The look-up table of a definition answers with its rules: a table of several actions with all that
match, in order, and a table of single actions with the last of them. Since a well-formed
deterministic definition has at most one, a step can be described by the rules alone, in the same
words for both kinds of machine.
-/

namespace TapeMachine

/-- The actions that the rules of a definition have for a state and a scanned symbol. -/
def Definition.actions (d : Definition) (state : State) (symbol : Symbol) : List Action :=
  ((d.rulesOf state).filter (·.read = symbol)).map Rule.action

/-- The actions that a table of the given kind keeps of a list. -/
def Kind.kept : Kind → List Action → List Action
  | .deterministic, as => as.getLast?.toList
  | .nondeterministic, as => as

private theorem Kind.kept_kept_append (k : Kind) (as bs : List Action) :
    k.kept (k.kept as ++ bs) = k.kept (as ++ bs) := by
  cases k with
  | nondeterministic => rfl
  | deterministic =>
    have h : as.getLast?.toList.getLast? = as.getLast? := by cases as.getLast? <;> rfl
    simp only [kept, List.getLast?_append, h]

/-- Nothing is lost of a list that holds one action at most. -/
theorem Kind.kept_of_length_le_one (k : Kind) {as : List Action} (h : as.length ≤ 1) :
    k.kept as = as := by
  match k, as, h with
  | .nondeterministic, _, _ => rfl
  | .deterministic, [], _ => rfl
  | .deterministic, [_], _ => rfl

namespace ActionTable

def kind : ActionTable → Kind
  | .single _ => .deterministic
  | .several _ => .nondeterministic

/-- The actions that a table holds for a state and a scanned symbol. -/
def actions : ActionTable → State → Symbol → List Action
  | .single table, q, a => table[(q, a)]?.toList
  | .several table, q, a => table[(q, a)]?.getD []

@[simp] theorem kind_empty (k : Kind) : (empty k).kind = k := by
  cases k <;> rfl

@[simp] theorem actions_empty (k : Kind) (q : State) (a : Symbol) : (empty k).actions q a = [] := by
  cases k <;> simp [empty, actions]

@[simp] theorem kind_addRule (state : State) (table : ActionTable) (r : Rule) :
    (addRule state table r).kind = table.kind := by
  cases table <;> rfl

@[simp] theorem kind_addRules (table : ActionTable) (entry : State × List Rule) :
    (addRules table entry).kind = table.kind := by
  obtain ⟨state, rules⟩ := entry
  simp only [addRules]
  induction rules generalizing table with
  | nil => rfl
  | cons r rest ih => rw [List.foldl_cons, ih, kind_addRule]

private theorem kept_actions (table : ActionTable) (q : State) (a : Symbol) :
    table.kind.kept (table.actions q a) = table.actions q a := by
  cases table with
  | single table => cases h : table[(q, a)]? <;> simp [actions, h, kind, Kind.kept]
  | several table => rfl

private theorem actions_addRule (state : State) (table : ActionTable) (r : Rule) (q : State)
    (a : Symbol) :
    (addRule state table r).actions q a =
      table.kind.kept (table.actions q a ++ if q = state ∧ r.read = a then [r.action] else []) := by
  by_cases h : q = state ∧ r.read = a
  · obtain ⟨rfl, rfl⟩ := h
    cases table <;> simp [addRule, actions, kind, Kind.kept]
  · have hk : ¬ (state = q ∧ r.read = a) := fun hc => h ⟨hc.1.symm, hc.2⟩
    rw [if_neg h, List.append_nil, kept_actions]
    cases table <;>
      simp [addRule, actions, Std.HashMap.getElem?_insert, Std.HashMap.getElem?_alter, hk]

/-- Adding the rules of a state adds the actions of those that match. -/
theorem actions_addRules (table : ActionTable) (entry : State × List Rule) (q : State)
    (a : Symbol) : (addRules table entry).actions q a =
      table.kind.kept (table.actions q a ++
        if q = entry.1 then (entry.2.filter (·.read = a)).map Rule.action else []) := by
  obtain ⟨state, rules⟩ := entry
  simp only [addRules]
  induction rules generalizing table with
  | nil => simp [kept_actions]
  | cons r rest ih =>
    rw [List.foldl_cons, ih, kind_addRule, actions_addRule, Kind.kept_kept_append]
    by_cases hq : q = state <;> by_cases hr : r.read = a <;> simp [hq, hr]

private theorem actions_foldl_addRules (table : ActionTable) (entries : List (State × List Rule))
    (h : (entries.map Prod.fst).Nodup) (q : State) (a : Symbol) :
    (entries.foldl addRules table).actions q a =
      table.kind.kept (table.actions q a ++
        (((entries.lookup q).getD []).filter (·.read = a)).map Rule.action) := by
  induction entries generalizing table with
  | nil => simp [kept_actions]
  | cons e rest ih =>
    obtain ⟨s, rules⟩ := e
    simp only [List.map_cons, List.nodup_cons] at h
    rw [List.foldl_cons, ih _ h.2, kind_addRules, actions_addRules, Kind.kept_kept_append]
    by_cases hq : q = s
    · subst hq
      have hn : rest.lookup q = none := by
        rw [List.lookup_eq_none_iff]
        intro p hp
        exact bne_iff_ne.mpr fun hpq => h.1 (List.mem_map.mpr ⟨p, hp, hpq.symm⟩)
      simp [hn]
    · have hb : (q == s) = false := beq_eq_false_iff_ne.mpr hq
      simp [List.lookup_cons, hq, hb]

end ActionTable

namespace Definition

theorem kind_compile (d : Definition) : d.compile.kind = d.kind := by
  rw [compile]
  have h (entries : List (State × List Rule)) (table : ActionTable) :
      (entries.foldl ActionTable.addRules table).kind = table.kind := by
    induction entries generalizing table with
    | nil => rfl
    | cons e rest ih => rw [List.foldl_cons, ih, ActionTable.kind_addRules]
  rw [h, ActionTable.kind_empty]

/-- The look-up table holds the actions of the rules, as far as its kind keeps them. -/
theorem actions_compile (d : Definition) (q : State) (a : Symbol) :
    d.compile.actions q a = d.kind.kept (d.actions q a) := by
  rw [compile, ActionTable.actions_foldl_addRules _ _ d.rules.nodup]
  simp [actions, rulesOf, Table.get?]

theorem validate_eq_ok_iff_fault? (d : Definition) : d.validate = .ok () ↔ d.fault? = none := by
  rw [validate]
  cases d.fault? <;> simp

theorem validate_eq_error_iff (d : Definition) {f : Fault} :
    d.validate = .error f ↔ d.fault? = some f := by
  rw [validate]
  cases d.fault? <;> simp

/-- A definition is well formed when none of the checks finds a fault. -/
theorem validate_eq_ok_iff (d : Definition) :
    d.validate = .ok () ↔ d.startFault? = none ∧ d.haltStatesFault? = none ∧
      d.alphabetFault? = none ∧ d.ruleStatesFault? = none ∧ d.ruleSymbolsFault? = none ∧
      d.determinismFault? = none ∧ d.haltConflictFault? = none := by
  rw [validate_eq_ok_iff_fault?, fault?]
  simp only [Option.orElse_eq_none]

end Definition

/-- Nothing is found to repeat exactly in a list without duplicates. -/
theorem firstRepeated?_eq_none_iff {α : Type} [DecidableEq α] {seen xs : List α} :
    firstRepeated? seen xs = none ↔ xs.Nodup ∧ ∀ x ∈ xs, x ∉ seen := by
  induction xs generalizing seen with
  | nil => simp [firstRepeated?]
  | cons x rest ih =>
    by_cases hx : x ∈ seen
    · simp [firstRepeated?, hx]
    · simp only [firstRepeated?, List.contains_iff_mem, hx, if_false, ih, List.nodup_cons,
        List.mem_cons, not_or]
      grind

namespace Definition

/-- In a well-formed deterministic definition the rules of a state read different symbols. -/
theorem nodup_reads_of_validate {d : Definition} (h : d.validate = .ok ())
    (hk : d.kind = .deterministic) (q : State) : ((d.rulesOf q).map (·.read)).Nodup := by
  have hf := (d.validate_eq_ok_iff.mp h).2.2.2.2.2.1
  simp only [determinismFault?, hk, List.findSome?_eq_none_iff, Option.map_eq_none_iff] at hf
  cases hq : d.rules.get? q with
  | none => simp [rulesOf, hq]
  | some rules =>
    have hm : q ∈ d.sources := by
      have hl : (q, rules) ∈ d.rules.entries := by
        obtain ⟨l, r, he, -⟩ := List.lookup_eq_some_iff.mp hq
        simp [he]
      exact mem_sortedSet.mpr (List.mem_map.mpr ⟨_, hl, rfl⟩)
    exact (firstRepeated?_eq_none_iff.mp (hf q hm)).1

/-- A well-formed deterministic definition has one action at most for a state and a symbol. -/
theorem length_actions_le_one {d : Definition} (h : d.validate = .ok ())
    (hk : d.kind = .deterministic) (q : State) (a : Symbol) : (d.actions q a).length ≤ 1 := by
  have hn := nodup_reads_of_validate h hk q
  rw [actions, List.length_map]
  generalize d.rulesOf q = rules at hn
  induction rules with
  | nil => simp
  | cons r rest ih =>
    simp only [List.map_cons, List.nodup_cons] at hn
    by_cases hr : r.read = a
    · have he : rest.filter (·.read = a) = [] := by
        refine List.filter_eq_nil_iff.mpr fun r' hr' hc => hn.1 ?_
        exact List.mem_map.mpr ⟨r', hr', by simpa [hr] using hc⟩
      simp [hr, he]
    · simpa [hr] using ih hn.2

/-- What follows a configuration by the rules of a definition. -/
def step (d : Definition) (c : Configuration) : Step :=
  if d.isAccepting c.state then .halt .accept
  else if d.isRejecting c.state then .halt .reject
  else
    match d.kind, (d.actions c.state c.symbol).map (Machine.successor c) with
    | .nondeterministic, successors => .branch successors
    | .deterministic, [] => .halt .noTransition
    | .deterministic, s :: _ => .next s

end Definition

namespace Machine

/-- Every machine is what loading its definition with its input gives. -/
theorem load_eq (m : Machine) : load m.definition m.input = .ok m := by
  obtain ⟨definition, input, table, rfl, valid, fits⟩ := m
  unfold load
  split
  · simp_all
  · split
    · simp_all
    · rfl

theorem load_eq_ok_iff {m : Machine} {d : Definition} {w : String} :
    load d w = .ok m ↔ m.definition = d ∧ m.input = w := by
  constructor
  · intro h
    unfold load at h
    split at h
    · cases h
    · split at h
      · cases h
      · cases h
        exact ⟨rfl, rfl⟩
  · rintro ⟨rfl, rfl⟩
    exact m.load_eq

/-- A table answers for the rules that a machine was loaded with. -/
theorem actions_table (m : Machine) (q : State) (a : Symbol) :
    m.table.actions q a = m.definition.actions q a := by
  rw [m.table_eq, Definition.actions_compile]
  cases hk : m.definition.kind with
  | nondeterministic => rfl
  | deterministic =>
    exact Kind.kept_of_length_le_one _ (Definition.length_actions_le_one m.valid hk q a)

/-- A machine steps as its definition says. -/
theorem step_eq (m : Machine) (c : Configuration) : m.step c = m.definition.step c := by
  have hk : m.table.kind = m.definition.kind := by rw [m.table_eq, Definition.kind_compile]
  have ha := m.actions_table c.state c.symbol
  unfold step Definition.step haltingState?
  split_ifs
  · rfl
  · rfl
  · rw [← hk, ← ha]
    cases ht : m.table with
    | single table =>
      cases hl : table[(c.state, c.symbol)]? <;>
        simp [ActionTable.kind, ActionTable.actions, hl]
    | several table => simp [ActionTable.kind, ActionTable.actions]

end Machine

end TapeMachine
