import TapeMachine.Definition

/-!
# Reachable states

Which states the rules lead to from the start state, whatever the tape holds, by a search with a
work list. A state that no chain of rules leads to is legal but suspicious.
-/

namespace TapeMachine.Definition

/-- A search among the states of a definition. -/
structure Search where
  /-- The states whose turn is to come, the next one first. One state may be there several times. -/
  pending : List State
  visited : List State
  deriving DecidableEq

/-- The search that is about to begin at the start state. -/
def firstSearch (d : Definition) : Search := { pending := [d.startState], visited := [] }

/-- The states that the rules of a state lead to, one for each rule, without those that have been
visited. -/
def newTargets (d : Definition) (visited : List State) (s : State) : List State :=
  ((d.rulesOf s).map (·.nextState)).filter (!visited.contains ·)

/-- The search after one more round, if a state is pending. A state is visited when its turn comes
for the first time; its new targets become pending, the last one first. -/
def nextSearch? (d : Definition) (w : Search) : Option Search :=
  match w.pending with
  | [] => none
  | s :: pending =>
    if w.visited.contains s then some { w with pending }
    else
      let visited := s :: w.visited
      some { pending := (d.newTargets visited s).reverse ++ pending, visited }

/-- What a round does to a search. -/
inductive Round (d : Definition) : Search → Search → Prop where
  | pass {s pending visited} (h : s ∈ visited) : Round d ⟨s :: pending, visited⟩ ⟨pending, visited⟩
  | visit {s pending visited} (h : s ∉ visited) : Round d ⟨s :: pending, visited⟩
      ⟨(d.newTargets (s :: visited) s).reverse ++ pending, s :: visited⟩

theorem round_of_nextSearch? {d : Definition} {w w' : Search} (h : d.nextSearch? w = some w') :
    d.Round w w' := by
  obtain ⟨pending, visited⟩ := w
  cases pending with
  | nil => cases h
  | cons s pending =>
    by_cases hs : s ∈ visited
    · simp only [nextSearch?, List.contains_iff_mem, if_pos hs, Option.some.injEq] at h
      exact h ▸ .pass hs
    · simp only [nextSearch?, List.contains_iff_mem, if_neg hs, Option.some.injEq] at h
      exact h ▸ .visit hs

/-- The number of rules of states that have not been visited, in a list of entries. -/
def rulesLeft (visited : List State) : List (State × List Rule) → Nat
  | [] => 0
  | (s, rules) :: rest => (if s ∈ visited then 0 else rules.length) + rulesLeft visited rest

/-- Visiting a state uses up its rules. -/
theorem rulesLeft_visit {visited : List State} {s : State} (hs : s ∉ visited)
    {entries : List (State × List Rule)} (hn : (entries.map Prod.fst).Nodup) :
    rulesLeft (s :: visited) entries + ((entries.lookup s).getD []).length =
      rulesLeft visited entries := by
  induction entries with
  | nil => rfl
  | cons e rest ih =>
    obtain ⟨q, rules⟩ := e
    obtain ⟨hq, hrest⟩ := List.nodup_cons.mp hn
    have ih := ih hrest
    rw [rulesLeft, rulesLeft]
    by_cases hqs : q = s
    · -- there is no other entry with the key
      subst hqs
      have hnone : rest.lookup q = none := by
        rw [List.lookup_eq_none_iff]
        intro e he
        have hne : e.1 ≠ q := fun heq => hq (List.mem_map.mpr ⟨e, he, heq⟩)
        simpa using hne.symm
      rw [hnone] at ih
      simp only [Option.getD_none, List.length_nil] at ih
      rw [if_pos List.mem_cons_self, if_neg hs, List.lookup_cons_self, Option.getD_some]
      omega
    · have hlookup : ((q, rules) :: rest).lookup s = rest.lookup s := by
        rw [List.lookup_cons, beq_eq_false_iff_ne.mpr (Ne.symm hqs)]
      have hmem : q ∈ s :: visited ↔ q ∈ visited := by simp [hqs]
      rw [hlookup]
      simp only [hmem]
      omega

/-- A bound on the rounds to come: each takes a state off the list, and what it puts there are
targets of rules that are used up. -/
def roundsLeft (d : Definition) (w : Search) : Nat :=
  rulesLeft w.visited d.rules.entries + w.pending.length

theorem Round.roundsLeft_lt {d : Definition} {w w' : Search} (h : d.Round w w') :
    d.roundsLeft w' < d.roundsLeft w := by
  cases h with
  | pass _ => exact Nat.lt_succ_self _
  | @visit s pending visited hs =>
    have hrules : rulesLeft (s :: visited) d.rules.entries + (d.rulesOf s).length =
        rulesLeft visited d.rules.entries := rulesLeft_visit hs d.rules.nodup
    have htargets : (d.newTargets (s :: visited) s).length ≤ (d.rulesOf s).length :=
      Nat.le_trans (List.length_filter_le _ _) (Nat.le_of_eq (List.length_map _))
    simp only [roundsLeft, List.length_append, List.length_reverse, List.length_cons]
    omega

theorem rulesLeft_nil (entries : List (State × List Rule)) :
    rulesLeft [] entries = (entries.flatMap (·.2)).length := by
  induction entries with
  | nil => rfl
  | cons e rest ih =>
    rw [rulesLeft, if_neg List.not_mem_nil, ih, List.flatMap_cons, List.length_append]

theorem roundsLeft_firstSearch (d : Definition) :
    d.roundsLeft d.firstSearch = d.transitionCount + 1 :=
  congrArg (· + 1) (rulesLeft_nil d.rules.entries)

/-- The states that a search has visited when nothing is pending any more. -/
def visit (d : Definition) (w : Search) : List State :=
  match h : d.nextSearch? w with
  | none => w.visited
  | some next =>
    have := (round_of_nextSearch? h).roundsLeft_lt
    visit d next
termination_by d.roundsLeft w

/-- The states that some chain of rules leads to from the start state. -/
def reachableStates (d : Definition) : List State := d.visit d.firstSearch

/-- The states of the machine that no chain of rules leads to, in increasing order. -/
def unreachableStates (d : Definition) : List State :=
  let reachable := d.reachableStates
  d.stateSet.filter fun s => !reachable.contains s

end TapeMachine.Definition
