import Mathlib.Data.List.Basic
import TapeMachine.Proofs.PassedChecks

/-!
# The first fault

A definition and an input have to meet eight conditions. `Condition.Holds` says what each asks for,
and `Condition.Names` which fault is reported where it does not hold: the one that lists everything
that offends it, or the first thing that does, in an order that does not depend on how the
definition is stored.
Loading succeeds exactly when all conditions hold, and otherwise reports the first one that does
not, in the order of `Condition.inOrder`.
-/

namespace TapeMachine

/-- The list holds what satisfies a predicate and nothing else, in increasing order and without
repetition. -/
structure Enumerates {α : Type} [LT α] (xs : List α) (P : α → Prop) : Prop where
  increasing : xs.Pairwise (· < ·)
  mem_iff (x : α) : x ∈ xs ↔ P x

section Enumerates

variable {α : Type} [LT α] [LE α] [Std.IsLinearOrder α] [Std.LawfulOrderLT α] {xs ys : List α}
  {P : α → Prop}

theorem Enumerates.unique (hxs : Enumerates xs P) (hys : Enumerates ys P) : xs = ys :=
  eq_of_pairwise_lt hxs.increasing hys.increasing fun x =>
    (hxs.mem_iff x).trans (hys.mem_iff x).symm

private theorem enumerates_sortedSet [DecidableLT α] [DecidableEq α] (h : ∀ x, x ∈ xs ↔ P x) :
    Enumerates (sortedSet xs) P :=
  ⟨pairwise_sortedSet xs, fun x => mem_sortedSet.trans (h x)⟩

end Enumerates

/-- Of the places in a list that satisfy a predicate, which may look at what stands before them,
there is one that comes first. -/
theorem append_cons_inj_of_first {α : Type} {P : List α → α → Prop}
    {before before' after after' : List α} {x x' : α}
    (hP : ∀ before x mid x', P before x → ¬ P (before ++ x :: mid) x')
    (h : before ++ x :: after = before' ++ x' :: after') (hx : P before x) (hx' : P before' x') :
    before = before' ∧ x = x' := by
  rcases List.append_eq_append_iff.mp h with ⟨mid, rfl, hmid⟩ | ⟨mid, rfl, hmid⟩
  · cases mid with
    | nil => exact ⟨by simp, (List.cons.inj hmid).1⟩
    | cons y mid =>
      obtain ⟨rfl, -⟩ := List.cons.inj hmid
      exact absurd hx' (hP _ _ _ _ hx)
  · cases mid with
    | nil => exact ⟨by simp, (List.cons.inj hmid).1.symm⟩
    | cons y mid =>
      obtain ⟨rfl, -⟩ := List.cons.inj hmid
      exact absurd hx (hP _ _ _ _ hx')

/-- What is asked of a definition and an input. -/
inductive Condition where
  | start
  | haltStates
  | alphabets
  | ruleStates
  | ruleSymbols
  | determinism
  | haltConflict
  | input
  deriving DecidableEq

namespace Condition

/-- The conditions in the order in which they are checked. -/
def inOrder : List Condition :=
  [start, haltStates, alphabets, ruleStates, ruleSymbols, determinism, haltConflict, input]

private theorem mem_inOrder (c : Condition) : c ∈ inOrder := by
  cases c <;> decide

/-- What a condition asks for. -/
def Holds (d : Definition) (w : String) : Condition → Prop
  | start => Text.trim d.startState.toList ≠ [] ∧ d.startState ∈ d.stateSet
  | haltStates => ∀ q, q ∈ d.acceptStates ∨ q ∈ d.rejectStates → q ∈ d.stateSet
  | alphabets => d.blank ∉ d.inputSymbols ∧ ∀ x ∈ d.inputSymbols, x ∈ d.tapeSymbols
  | ruleStates =>
    (∀ q ∈ d.rules.keys, q ∈ d.stateSet) ∧ ∀ r ∈ d.allRules, r.nextState ∈ d.stateSet
  | ruleSymbols => ∀ r ∈ d.allRules, r.read ∈ d.tapeSymbols ∧ r.write ∈ d.tapeSymbols
  | determinism =>
    d.kind = .deterministic → ∀ q ∈ d.rules.keys, ((d.rulesOf q).map (·.read)).Nodup
  | haltConflict => ∀ q ∈ d.acceptStates, q ∉ d.rejectStates
  | input => ∀ x ∈ w.toList, x ∈ d.inputSymbols

/-- After what stands before it, a symbol is the first to repeat. -/
structure FirstRepeats (before : List Symbol) (x : Symbol) : Prop where
  nodup : before.Nodup
  mem : x ∈ before

/-- After what stands before it, a symbol is the first that is not in an alphabet. -/
structure FirstForeign (alphabet before : List Symbol) (x : Symbol) : Prop where
  within : ∀ y ∈ before, y ∈ alphabet
  not_mem : x ∉ alphabet

/-- The fault as which the violation of a condition is reported. -/
inductive Names (d : Definition) (w : String) : Condition → Fault → Prop where
  | missingStart (h : Text.trim d.startState.toList = []) : Names d w start .missingStart
  | undeclaredStart (h : Text.trim d.startState.toList ≠ []) :
      Names d w start (.undeclaredStart d.startState)
  | haltStates {states}
      (h : Enumerates states fun q =>
        (q ∈ d.acceptStates ∨ q ∈ d.rejectStates) ∧ q ∉ d.stateSet) :
      Names d w haltStates (.undeclaredStates states)
  | blank (h : d.blank ∈ d.inputSymbols) : Names d w alphabets (.blankInInput d.blank)
  | inputSymbols {symbols} (hb : d.blank ∉ d.inputSymbols)
      (h : Enumerates symbols fun x => x ∈ d.inputSymbols ∧ x ∉ d.tapeSymbols) :
      Names d w alphabets (.inputOutsideTape symbols)
  | ruleStates {states}
      (h : Enumerates states fun q =>
        (q ∈ d.rules.keys ∨ ∃ r ∈ d.allRules, r.nextState = q) ∧ q ∉ d.stateSet) :
      Names d w ruleStates (.undeclaredStates states)
  | ruleSymbols {symbols}
      (h : Enumerates symbols fun x =>
        (∃ r ∈ d.allRules, x = r.read ∨ x = r.write) ∧ x ∉ d.tapeSymbols) :
      Names d w ruleSymbols (.undeclaredSymbols symbols)
  /-- The least state with competing rules, and the first symbol that one of them reads again. -/
  | determinism {q before x after} (hq : q ∈ d.rules.keys)
      (hreads : (d.rulesOf q).map (·.read) = before ++ x :: after) (hx : FirstRepeats before x)
      (hleast : ∀ p ∈ d.rules.keys, p < q → ((d.rulesOf p).map (·.read)).Nodup) :
      Names d w determinism (.repeatedRule q x)
  | haltConflict {states}
      (h : Enumerates states fun q => q ∈ d.acceptStates ∧ q ∈ d.rejectStates) :
      Names d w haltConflict (.conflictingHalts states)
  /-- The first foreign symbol of the input. -/
  | input {before x after} (hw : w.toList = before ++ x :: after)
      (hx : FirstForeign d.inputSymbols before x) :
      Names d w input (.foreignInput x before.length)

/-- The fault that the check of a condition finds, if it finds one. -/
def fault? (d : Definition) (w : String) : Condition → Option Fault
  | start => d.startFault?
  | haltStates => d.haltStatesFault?
  | alphabets => d.alphabetFault?
  | ruleStates => d.ruleStatesFault?
  | ruleSymbols => d.ruleSymbolsFault?
  | determinism => d.determinismFault?
  | haltConflict => d.haltConflictFault?
  | input => Definition.firstForeign? d.inputSymbols 0 w.toList

variable {d : Definition} {w : String} {c : Condition} {f g : Fault}

/-- A check finds no fault exactly where its condition holds. -/
theorem fault?_eq_none_iff : c.fault? d w = none ↔ c.Holds d w :=
  match c with
  | start => Definition.startFault?_eq_none_iff
  | haltStates => Definition.haltStatesFault?_eq_none_iff
  | alphabets => Definition.alphabetFault?_eq_none_iff
  | ruleStates => Definition.ruleStatesFault?_eq_none_iff
  | ruleSymbols => Definition.ruleSymbolsFault?_eq_none_iff
  | determinism => Definition.determinismFault?_eq_none_iff
  | haltConflict => Definition.haltConflictFault?_eq_none_iff
  | input => Definition.firstForeign?_eq_none_iff

private theorem FirstRepeats.not_nodup {before after : List Symbol} {x : Symbol}
    (h : FirstRepeats before x) : ¬ (before ++ x :: after).Nodup := fun hnodup =>
  (List.nodup_append.mp hnodup).2.2 x h.mem x List.mem_cons_self rfl

/-- Nothing before the symbol that is found repeats, and it stands there or was seen earlier. -/
theorem exists_of_firstRepeated?_eq_some {seen xs : List Symbol} {x : Symbol}
    (h : firstRepeated? seen xs = some x) :
    ∃ before after, xs = before ++ x :: after ∧ before.Nodup ∧ (∀ y ∈ before, y ∉ seen) ∧
      (x ∈ before ∨ x ∈ seen) := by
  induction xs generalizing seen with
  | nil => cases h
  | cons y rest ih =>
    by_cases hy : y ∈ seen
    · obtain rfl : y = x := by simpa [firstRepeated?, hy] using h
      exact ⟨[], rest, rfl, List.nodup_nil, by simp, .inr hy⟩
    · have hrest : firstRepeated? (y :: seen) rest = some x := by
        simpa [firstRepeated?, hy] using h
      obtain ⟨before, after, rfl, hnodup, hnew, hx⟩ := ih hrest
      refine ⟨y :: before, after, rfl, ?_, ?_, ?_⟩
      · exact List.nodup_cons.mpr ⟨fun hmem => hnew y hmem List.mem_cons_self, hnodup⟩
      · refine List.forall_mem_cons.mpr ⟨hy, fun z hz => ?_⟩
        exact fun hseen => hnew z hz (List.mem_cons_of_mem y hseen)
      · simp only [List.mem_cons] at hx ⊢
        tauto

private theorem exists_of_firstForeign?_eq_some {alphabet text : List Symbol} {position : Nat}
    (h : Definition.firstForeign? alphabet position text = some f) :
    ∃ before x after, text = before ++ x :: after ∧ FirstForeign alphabet before x ∧
      f = .foreignInput x (position + before.length) := by
  induction text generalizing position with
  | nil => cases h
  | cons y rest ih =>
    by_cases hy : y ∈ alphabet
    · have hrest : Definition.firstForeign? alphabet (position + 1) rest = some f := by
        simpa [Definition.firstForeign?, hy] using h
      obtain ⟨before, x, after, rfl, ⟨hbefore, hx⟩, rfl⟩ := ih hrest
      refine ⟨y :: before, x, after, rfl, ⟨List.forall_mem_cons.mpr ⟨hy, hbefore⟩, hx⟩, ?_⟩
      rw [List.length_cons, Nat.add_assoc, Nat.add_comm 1]
    · obtain rfl : Fault.foreignInput y position = f := by
        simpa [Definition.firstForeign?, hy] using h
      exact ⟨[], y, rest, rfl, ⟨by simp, hy⟩, rfl⟩

theorem pairwise_inputSymbols (d : Definition) : d.inputSymbols.Pairwise (· < ·) := by
  rw [Definition.inputSymbols]
  split
  · exact (pairwise_sortedSet _).filter _
  · exact pairwise_sortedSet _

section Names

variable (w)

private theorem names_start (h : d.startFault? = some f) : Names d w start f := by
  by_cases hblank : Text.trim d.startState.toList = []
  · obtain rfl : Fault.missingStart = f := by simpa [Definition.startFault?, hblank] using h
    exact .missingStart hblank
  · have hf : d.startState ∉ d.stateSet ∧ Fault.undeclaredStart d.startState = f := by
      simpa [Definition.startFault?, hblank] using h
    exact hf.2 ▸ .undeclaredStart hblank

private theorem names_haltStates (h : d.haltStatesFault? = some f) : Names d w haltStates f := by
  rw [Definition.haltStatesFault?, Definition.undeclaredStates?_eq] at h
  obtain rfl := eq_of_faultOf?_eq_some h
  refine .haltStates (enumerates_sortedSet fun q => ?_)
  rw [List.mem_filter]
  simp

private theorem names_alphabets (h : d.alphabetFault? = some f) : Names d w alphabets f := by
  by_cases hb : d.blank ∈ d.inputSymbols
  · obtain rfl : Fault.blankInInput d.blank = f := by
      simpa [Definition.alphabetFault?, hb] using h
    exact .blank hb
  · rw [Definition.alphabetFault?_of_not_mem hb] at h
    obtain rfl := eq_of_faultOf?_eq_some h
    exact .inputSymbols hb ⟨(pairwise_inputSymbols d).filter _, fun x => by simp⟩

private theorem names_ruleStates (h : d.ruleStatesFault? = some f) : Names d w ruleStates f := by
  rw [Definition.ruleStatesFault?, Definition.undeclaredStates?_eq] at h
  obtain rfl := eq_of_faultOf?_eq_some h
  refine .ruleStates (enumerates_sortedSet fun q => ?_)
  rw [List.mem_filter]
  simp

private theorem names_ruleSymbols (h : d.ruleSymbolsFault? = some f) : Names d w ruleSymbols f := by
  rw [Definition.ruleSymbolsFault?_eq] at h
  obtain rfl := eq_of_faultOf?_eq_some h
  exact .ruleSymbols (enumerates_sortedSet fun x => by simp)

private theorem names_determinism (h : d.determinismFault? = some f) : Names d w determinism f := by
  cases hk : d.kind with
  | nondeterministic => simp [Definition.determinismFault?, hk] at h
  | deterministic =>
    simp only [Definition.determinismFault?, hk] at h
    obtain ⟨lesser, q, greater, hsources, hq, hlesser⟩ := List.findSome?_eq_some_iff.mp h
    obtain ⟨x, hx, rfl⟩ := Option.map_eq_some_iff.mp hq
    obtain ⟨before, after, hreads, hnodup, -, hmem⟩ := exists_of_firstRepeated?_eq_some hx
    have hkey (p) : p ∈ d.rules.keys ↔ p ∈ lesser ++ q :: greater := by
      rw [← hsources, Definition.sources, mem_sortedSet]
    have hsorted : (lesser ++ q :: greater).Pairwise (· < ·) := by
      rw [← hsources]
      exact pairwise_sortedSet d.rules.keys
    refine .determinism ((hkey q).mpr (by simp)) hreads ⟨hnodup, by simpa using hmem⟩ ?_
    intro p hp hlt
    -- the states are visited in increasing order, so a lesser one has been visited before
    have hp : p ∈ lesser := mem_of_lt_of_pairwise_lt hsorted ((hkey p).mp hp) hlt
    exact (firstRepeated?_eq_none_iff.mp (Option.map_eq_none_iff.mp (hlesser p hp))).1

private theorem names_haltConflict (h : d.haltConflictFault? = some f) :
    Names d w haltConflict f := by
  rw [Definition.haltConflictFault?_eq] at h
  obtain rfl := eq_of_faultOf?_eq_some h
  refine .haltConflict (enumerates_sortedSet fun q => ?_)
  simp [Definition.isAccepting, and_comm]

private theorem names_input (h : Definition.firstForeign? d.inputSymbols 0 w.toList = some f) :
    Names d w input f := by
  obtain ⟨before, x, after, hw, hx, rfl⟩ := exists_of_firstForeign?_eq_some h
  rw [Nat.zero_add]
  exact .input hw hx

end Names

/-- What the check of a condition finds is the fault as which its violation is reported. -/
theorem names_of_fault?_eq_some (h : c.fault? d w = some f) : c.Names d w f :=
  match c with
  | start => names_start w h
  | haltStates => names_haltStates w h
  | alphabets => names_alphabets w h
  | ruleStates => names_ruleStates w h
  | ruleSymbols => names_ruleSymbols w h
  | determinism => names_determinism w h
  | haltConflict => names_haltConflict w h
  | input => names_input w h

/-- The violation of a condition is reported in one way only. -/
theorem Names.unique (hf : c.Names d w f) (hg : c.Names d w g) : f = g := by
  cases hf with
  | missingStart h =>
    cases hg with
    | missingStart => rfl
    | undeclaredStart h' => exact absurd h h'
  | undeclaredStart h =>
    cases hg with
    | missingStart h' => exact absurd h' h
    | undeclaredStart => rfl
  | haltStates h =>
    cases hg with
    | haltStates h' => rw [h.unique h']
  | blank hb =>
    cases hg with
    | blank => rfl
    | inputSymbols hb' => exact absurd hb hb'
  | inputSymbols hb h =>
    cases hg with
    | blank hb' => exact absurd hb' hb
    | inputSymbols _ h' => rw [h.unique h']
  | ruleStates h =>
    cases hg with
    | ruleStates h' => rw [h.unique h']
  | ruleSymbols h =>
    cases hg with
    | ruleSymbols h' => rw [h.unique h']
  | @determinism q before x after hq hreads hx hleast =>
    cases hg with
    | @determinism q' before' x' after' hq' hreads' hx' hleast' =>
      obtain rfl : q = q' := by
        rcases Std.lt_trichotomy q q' with hlt | heq | hgt
        · exact absurd (hreads ▸ hleast' q hq hlt) hx.not_nodup
        · exact heq
        · exact absurd (hreads' ▸ hleast q' hq' hgt) hx'.not_nodup
      rw [hreads] at hreads'
      have hfirst (before x mid x') (h : FirstRepeats before x) :
          ¬ FirstRepeats (before ++ x :: mid) x' := fun h' => h.not_nodup h'.nodup
      rw [(append_cons_inj_of_first hfirst hreads' hx hx').2]
  | haltConflict h =>
    cases hg with
    | haltConflict h' => rw [h.unique h']
  | input hw hx =>
    cases hg with
    | input hw' hx' =>
      rw [hw] at hw'
      have hfirst (before x mid x') (h : FirstForeign d.inputSymbols before x) :
          ¬ FirstForeign d.inputSymbols (before ++ x :: mid) x' := fun h' =>
        h.not_mem (h'.within x (by simp))
      obtain ⟨rfl, rfl⟩ := append_cons_inj_of_first hfirst hw' hx hx'
      rfl

private theorem fault?_eq_some_iff : c.fault? d w = some f ↔ ¬ c.Holds d w ∧ c.Names d w f := by
  rw [← fault?_eq_none_iff]
  constructor
  · intro h
    exact ⟨by simp [h], names_of_fault?_eq_some h⟩
  · rintro ⟨hne, hnames⟩
    obtain ⟨g, hg⟩ := Option.ne_none_iff_exists'.mp hne
    rw [hg, (names_of_fault?_eq_some hg).unique hnames]

/-- The first check that finds a fault is one of the definition, or else that of the input. -/
theorem findSome?_inOrder : inOrder.findSome? (·.fault? d w) =
    (d.fault? <|> Definition.firstForeign? d.inputSymbols 0 w.toList) := by
  have hcons (c : Condition) (rest : List Condition) :
      (c :: rest).findSome? (·.fault? d w) =
        (c.fault? d w).or (rest.findSome? (·.fault? d w)) := by
    rw [List.findSome?_cons]
    cases c.fault? d w <;> rfl
  simp only [inOrder, hcons, List.findSome?_nil]
  simp only [fault?, Definition.fault?, Option.orElse_eq_orElse, Option.orElse_eq_or,
    Option.or_none, Option.or_assoc]

end Condition

namespace Machine

variable {d : Definition} {w : String} {f : Fault}

theorem load_eq_error_iff_validate : load d w = .error f ↔
    d.validate = .error f ∨ d.validate = .ok () ∧ d.checkInput w = .error f := by
  unfold load
  split
  · simp_all
  · split <;> simp_all

/-- Loading makes the checks of all conditions in their order. -/
theorem load_eq_error_iff : load d w = .error f ↔
    Condition.inOrder.findSome? (·.fault? d w) = some f := by
  rw [load_eq_error_iff_validate, d.validate_eq_error_iff, d.validate_eq_ok_iff_fault?,
    Definition.checkInput_eq_error_iff, Condition.findSome?_inOrder, Option.orElse_eq_some]

/-- Loading accepts exactly the definitions and inputs that meet every condition. Any other it
refuses, with the fault of the first condition in order that is violated. -/
theorem load_names_first_fault (d : Definition) (w : String) :
    ((∃ m, load d w = .ok m) ↔ ∀ c : Condition, c.Holds d w) ∧
      ∀ f, load d w = .error f ↔ ∃ before c after, Condition.inOrder = before ++ c :: after ∧
        (¬ c.Holds d w ∧ c.Names d w f) ∧ ∀ b ∈ before, b.Holds d w := by
  have herror (f : Fault) : load d w = .error f ↔ ∃ before c after,
      Condition.inOrder = before ++ c :: after ∧ (¬ c.Holds d w ∧ c.Names d w f) ∧
        ∀ b ∈ before, b.Holds d w := by
    simp only [load_eq_error_iff, List.findSome?_eq_some_iff, Condition.fault?_eq_some_iff,
      Condition.fault?_eq_none_iff]
  refine ⟨⟨?_, ?_⟩, herror⟩
  · rintro ⟨m, hm⟩
    have hnone : Condition.inOrder.findSome? (·.fault? d w) = none := by
      refine Option.eq_none_iff_forall_ne_some.mpr fun f hf => ?_
      rw [load_eq_error_iff.mpr hf] at hm
      cases hm
    exact fun c =>
      Condition.fault?_eq_none_iff.mp (List.findSome?_eq_none_iff.mp hnone c c.mem_inOrder)
  · intro h
    cases hload : load d w with
    | ok m => exact ⟨m, rfl⟩
    | error f =>
      obtain ⟨-, c, -, -, ⟨hviolated, -⟩, -⟩ := (herror f).mp hload
      exact absurd (h c) hviolated

end Machine

end TapeMachine
