import Mathlib.Data.List.Forall2
import TapeMachine.Proofs.ConfinedStorage
import TapeMachine.WordSteps

/-!
# Steps by the matching rules

What a machine does in a configuration can be read off the rules that its author wrote down: the
rules of the state that read the scanned symbol, in their order. The compiled table implements this
reading: a deterministic machine has one such rule at most, and follows it, and a nondeterministic
one follows each of them, a repeated one as often as it is listed. Configurations are taken as they
come, with positions in words of 64 bits, and a step that exists is one by the rules whether
overflow stops computations or wraps positions around.
-/

namespace TapeMachine

/-- The rules of a state that a scanned symbol enables, in their order. -/
def Definition.matching (d : Definition) (q : State) (a : Symbol) : List Rule :=
  (d.rulesOf q).filter (·.read = a)

/-- What follows a configuration with a scanned symbol when a rule is applied to it: the symbol of
the rule stands where the head was and every other cell is what it was. -/
structure Rule.LeadsTo (o : Overflow) (r : Rule) (c : Configuration) (read : Symbol)
    (s : Successor) : Prop where
  transition : s.transition =
    { state := c.state
      read
      action := { nextState := r.nextState, write := r.write, direction := r.direction } }
  state : s.configuration.state = r.nextState
  head : o.word? (c.head + r.direction.offset) = some s.configuration.head
  blank : s.configuration.tape.blank = c.tape.blank
  written {p : Int} (h : o.Same p c.head) : s.configuration.tape.shows o p = r.write
  others {p : Int} (h : ¬ o.Same p c.head) :
    s.configuration.tape.shows o p = c.tape.shows o p

/-- What a machine of either kind does with the rules that match. -/
inductive Step.Follows (o : Overflow) (c : Configuration) (read : Symbol) :
    Kind → List Rule → Step → Prop where
  | stuck : Follows o c read .deterministic [] (.halt .noTransition)
  | moves {r : Rule} {s : Successor} (h : r.LeadsTo o c read s) :
      Follows o c read .deterministic [r] (.next s)
  | branches {rules : List Rule} {successors : List Successor}
      (h : List.Forall₂ (fun r s => r.LeadsTo o c read s) rules successors) :
      Follows o c read .nondeterministic rules (.branch successors)

section Attempts

variable {α β : Type} {f : α → Option β} {xs : List α} {ys : List β}

theorem forall₂_of_mapM (h : xs.mapM f = some ys) :
    List.Forall₂ (fun x y => f x = some y) xs ys := by
  induction xs generalizing ys with
  | nil =>
    cases h
    exact .nil
  | cons x xs ih =>
    rw [List.mapM_cons] at h
    obtain ⟨y, hy, h⟩ := Option.bind_eq_some_iff.mp h
    obtain ⟨rest, hrest, h⟩ := Option.bind_eq_some_iff.mp h
    cases h
    exact .cons hy (ih hrest)

/-- Attempts on the same items that all succeed give related results in the same order. -/
theorem forall₂_of_mapM_mapM {γ : Type} {g : α → Option γ} {zs : List γ} {R : β → γ → Prop}
    (h : ∀ {x y z}, f x = some y → g x = some z → R y z) (hy : xs.mapM f = some ys)
    (hz : xs.mapM g = some zs) : List.Forall₂ R ys zs := by
  replace hy := forall₂_of_mapM hy
  replace hz := forall₂_of_mapM hz
  induction hy generalizing zs with
  | nil =>
    cases hz
    exact .nil
  | cons hy _ ih =>
    cases hz with
    | cons hz hrest => exact .cons (h hy hz) (ih hrest)

/-- Attempts that all succeed, and then give what a function gives, give its list. -/
theorem map_eq_of_mapM {g : α → β} (h : ∀ {x y}, f x = some y → g x = y)
    (hy : xs.mapM f = some ys) : xs.map g = ys := by
  have hmap : List.Forall₂ Eq (xs.map g) ys :=
    List.forall₂_map_left_iff.mpr ((forall₂_of_mapM hy).imp fun _ _ => h)
  rwa [List.forall₂_eq_eq_eq] at hmap

private theorem mapM_eq_some_map {g : α → β} (h : ∀ x ∈ xs, f x = some (g x)) :
    xs.mapM f = some (xs.map g) := by
  induction xs with
  | nil => rfl
  | cons x xs ih =>
    obtain ⟨hx, hxs⟩ := List.forall_mem_cons.mp h
    rw [List.mapM_cons, hx, ih hxs]
    rfl

private theorem mapM_eq_none_iff : xs.mapM f = none ↔ ∃ x ∈ xs, f x = none := by
  induction xs with
  | nil => simp
  | cons x xs ih =>
    rw [List.mapM_cons]
    cases hx : f x with
    | none => simp [hx]
    | some y => cases hxs : xs.mapM f <;> simp_all

end Attempts

/-- What a machine of a kind does with the successors that its rules lead to. -/
def Step.ofSuccessors : Kind → List Successor → Step
  | .nondeterministic, successors => .branch successors
  | .deterministic, [] => .halt .noTransition
  | .deterministic, s :: _ => .next s

private theorem Definition.step_eq_ofSuccessors (d : Definition) (c : Configuration) : d.step c =
    if d.isAccepting c.state then .halt .accept
    else if d.isRejecting c.state then .halt .reject
    else .ofSuccessors d.kind ((d.actions c.state c.symbol).map (Machine.successor c)) := by
  unfold step
  split_ifs
  · rfl
  · rfl
  · cases d.kind <;> cases (d.actions c.state c.symbol).map (Machine.successor c) <;> rfl

namespace Machine

variable {m : Machine} {o : Overflow} {c : Configuration} {read : Symbol} {a : Action}
  {s : Successor}

/-- A machine steps in words as its definition says. -/
theorem stepBy?_eq (m : Machine) (o : Overflow) (c : Configuration) : m.stepBy? o c =
    if m.definition.isAccepting c.state then some (.halt .accept)
    else if m.definition.isRejecting c.state then some (.halt .reject)
    else (c.tape.readBy? o c.head).bind fun read =>
      ((m.definition.actions c.state read).mapM (successorBy? o c read)).map
        (Step.ofSuccessors m.kind) := by
  have hk : m.table.kind = m.kind := by rw [m.table_eq, Definition.kind_compile, kind]
  unfold stepBy? haltingState?
  split_ifs
  · rfl
  · rfl
  · dsimp only
    congr 1
    funext read
    rw [← hk, ← m.actions_table c.state read]
    cases m.table with
    | single table =>
      cases hl : table[(c.state, read)]? with
      | none => simp [ActionTable.kind, ActionTable.actions, hl, Step.ofSuccessors]
      | some a =>
        cases hs : successorBy? o c read a <;>
          simp [ActionTable.kind, ActionTable.actions, hl, hs, Step.ofSuccessors]
    | several table => rfl

theorem successorBy?_eq_some (h : successorBy? o c read a = some s) :
    s.transition = { state := c.state, read, action := a } ∧
      c.applyBy? o a = some s.configuration := by
  obtain ⟨d, hd, rfl⟩ := Option.map_eq_some_iff.mp h
  exact ⟨rfl, hd⟩

/-- A successor that exists is one that the rule leads to. -/
theorem leadsTo_of_successorBy? {r : Rule} (h : successorBy? o c read r.action = some s) :
    r.LeadsTo o c read s := by
  obtain ⟨htransition, happly⟩ := successorBy?_eq_some h
  obtain ⟨hstate, htape, hhead⟩ := Configuration.applyBy?_eq_some happly
  have hshows := Tape.shows_storeWord? (o := o) htape
  have hblank : s.configuration.tape.blank = c.tape.blank := by
    rw [(Tape.storeWord?_eq_some htape).1, Tape.blank_write]
  exact ⟨htransition, hstate, hhead, hblank, fun hp => (hshows _).trans (if_pos hp),
    fun hp => (hshows _).trans (if_neg hp)⟩

private theorem successor_eq_of_successorBy? (h : successorBy? .stops c c.symbol a = some s) :
    successor c a = s := by
  obtain ⟨htransition, happly⟩ := successorBy?_eq_some h
  rw [successor, ← htransition, ← Configuration.eq_apply_of_applyBy? happly]

/-- Where overflow stops computations, a step that exists is the step. -/
theorem step_eq_of_stepBy? {step : Step} (h : m.stepBy? .stops c = some step) :
    m.step c = step := by
  rw [stepBy?_eq] at h
  rw [m.step_eq, Definition.step_eq_ofSuccessors]
  split_ifs at h ⊢
  · exact Option.some.inj h
  · exact Option.some.inj h
  · obtain ⟨read, hread, h⟩ := Option.bind_eq_some_iff.mp h
    obtain ⟨successors, hsuccessors, rfl⟩ := Option.map_eq_some_iff.mp h
    obtain rfl : read = c.symbol := Tape.readBy?_eq_some hread
    rw [map_eq_of_mapM successor_eq_of_successorBy? hsuccessors, kind]

private theorem successorBy?_eq_none_iff (hhead : IsWord c.head) (hoffset : IsWord c.tape.offset) :
    successorBy? o c read a = none ↔ ¬ IsWord (c.tape.write c.head a.write).cells.size ∨
      o = .stops ∧ ¬ IsWord (c.head + a.direction.offset) := by
  rw [successorBy?, Option.map_eq_none_iff, Configuration.applyBy?_eq_none_iff hhead hoffset]

/-- In a state that does not halt there is no step only where the distance to the first cell is not
a word, and for the sake of a rule that matches: when its cells cannot be counted, or when it moves
the head out of the words. -/
theorem stepBy?_eq_none_iff (ha : c.state ∉ m.definition.acceptStates)
    (hr : c.state ∉ m.definition.rejectStates) (hhead : IsWord c.head)
    (hoffset : IsWord c.tape.offset) :
    m.stepBy? o c = none ↔ (o = .stops ∧ ¬ IsWord (c.head - c.tape.offset)) ∨
      ∃ r ∈ m.definition.matching c.state (c.tape.shows o c.head),
        ¬ IsWord (c.tape.write c.head r.write).cells.size ∨
          o = .stops ∧ ¬ IsWord (c.head + r.direction.offset) := by
  rw [stepBy?_eq, Definition.isAccepting, Definition.isRejecting,
    if_neg (mt List.contains_iff_mem.mp ha), if_neg (mt List.contains_iff_mem.mp hr),
    ← Tape.readBy?_eq_none_iff]
  cases hread : c.tape.readBy? o c.head with
  | none => simp
  | some read =>
    obtain rfl := Tape.readBy?_eq_some hread
    rw [Option.bind_some, Option.map_eq_none_iff, Definition.actions, List.mapM_map,
      mapM_eq_none_iff]
    simp only [Function.comp_apply, successorBy?_eq_none_iff hhead hoffset, reduceCtorEq, false_or]
    rfl

/-- Where storage and head are confined there is always a step in words. -/
theorem stepBy?_of_confined {length steps : Nat} (h : c.Confined length steps)
    (hsteps : steps < 2 ^ 62) (hlength : length < 2 ^ 62) (m : Machine) (o : Overflow) :
    m.stepBy? o c = some (m.step c) := by
  have hread : c.tape.readBy? o c.head = some c.symbol := h.readBy?_head hsteps hlength o
  have hsuccessor : ∀ a ∈ m.definition.actions c.state c.symbol,
      successorBy? o c c.symbol a = some (successor c a) := by
    intro a _
    rw [successorBy?, h.applyBy?_eq hsteps hlength]
    rfl
  rw [stepBy?_eq, m.step_eq, Definition.step_eq_ofSuccessors, hread, Option.bind_some,
    mapM_eq_some_map hsuccessor]
  split_ifs <;> rfl

end Machine

namespace Definition

variable {d : Definition} {o : Overflow} {c : Configuration} {read : Symbol}

/-- A well-formed deterministic definition has one matching rule at most. -/
theorem length_matching_le_one (h : d.validate = .ok ()) (hk : d.kind = .deterministic) (q : State)
    (a : Symbol) : (d.matching q a).length ≤ 1 := by
  have hl := length_actions_le_one h hk q a
  rwa [actions, List.length_map] at hl

/-- The successors that the matching rules lead to, each made in words, follow them. -/
theorem follows_of_mapM {successors : List Successor} (hd : d.validate = .ok ())
    (h : (d.actions c.state read).mapM (Machine.successorBy? o c read) = some successors) :
    Step.Follows o c read d.kind (d.matching c.state read)
      (Step.ofSuccessors d.kind successors) := by
  have hall : List.Forall₂ (fun r s => r.LeadsTo o c read s) (d.matching c.state read)
      successors := by
    rw [actions, List.mapM_map] at h
    exact (forall₂_of_mapM h).imp fun _ _ => Machine.leadsTo_of_successorBy?
  cases hk : d.kind with
  | nondeterministic => exact .branches hall
  | deterministic =>
    have hl := length_matching_le_one hd hk c.state read
    generalize d.matching c.state read = rules at hl hall
    obtain _ | ⟨hs, _ | _⟩ := hall
    · exact .stuck
    · exact .moves hs
    · simp at hl

end Definition

namespace Machine

variable {m : Machine}

end Machine

/-- On a blank it writes a numeral towards the left or stops. The rule for writing is listed twice,
and the one for leaving the final state is never used. -/
def Definition.stutterer : Definition where
  name := "stutter"
  kind := .nondeterministic
  inputAlphabet := ['1']
  startState := "go"
  rejectStates := ["stop"]
  rules := ⟨[("go", [⟨'_', '1', .left, "go"⟩, ⟨'1', '1', .right, "go"⟩, ⟨'_', '_', .stay, "stop"⟩,
    ⟨'_', '1', .left, "go"⟩]), ("stop", [⟨'_', '_', .right, "go"⟩])], by decide⟩

/-- The stuttering machine on the numeral of one. -/
def Machine.stuttering : Machine where
  definition := .stutterer
  input := "1"
  table := Definition.stutterer.compile
  table_eq := rfl
  valid := by decide +kernel
  fits := by decide +kernel

/-- A configuration of it, far to the left of the cells that are stored. -/
def Machine.outside : Configuration :=
  { state := "go", tape := .ofString "1" '_', head := -3 }

/-- A configuration of it on the first of the positions that are words. -/
def Machine.outermost : Configuration :=
  { state := "go", tape := .ofString "" '_', head := -2 ^ 63 }

/-- A step of the stuttering machine on a blank has three successors, two of which are alike. -/
private theorem Machine.branch_of_follows {o : Overflow} {c : Configuration} {step : Step}
    (h : Step.Follows o c '_' .nondeterministic [⟨'_', '1', .left, "go"⟩, ⟨'_', '_', .stay, "stop"⟩,
      ⟨'_', '1', .left, "go"⟩] step) :
    ∃ s t u, step = .branch [s, t, u] ∧ Rule.LeadsTo o ⟨'_', '1', .left, "go"⟩ c '_' s ∧
      Rule.LeadsTo o ⟨'_', '_', .stay, "stop"⟩ c '_' t ∧
      Rule.LeadsTo o ⟨'_', '1', .left, "go"⟩ c '_' u := by
  obtain _ | _ | @⟨_, _, hall⟩ := h
  obtain _ | ⟨hs, _ | ⟨ht, _ | ⟨hu, _ | _⟩⟩⟩ := hall
  exact ⟨_, _, _, rfl, hs, ht, hu⟩

end TapeMachine
