import TapeMachine.Definition.Reachability
import TapeMachine.Proofs.SafeComputation

/-!
# The unreachable states are those that no chain of rules leads to

`Reachable` says what a chain of rules leads to without any search. The search of
`Definition.visit` finds exactly that: whatever it has met is reachable, and every target of a
visited state is visited or pending, so that nothing is left out once nothing is pending. It gets
there after at most one round for each rule and one more. A machine moves along its rules, so none
of its computations comes to a state that is not reachable.
-/

namespace TapeMachine

namespace Definition

/-- Some chain of rules leads from the start state to the state. -/
inductive Reachable (d : Definition) : State → Prop where
  | start : Reachable d d.startState
  | next {s r} (h : Reachable d s) (hr : r ∈ d.rulesOf s) : Reachable d r.nextState

variable {d : Definition} {w w' : Search} {s t : State}

private theorem mem_newTargets {visited : List State} :
    t ∈ d.newTargets visited s ↔ (∃ r ∈ d.rulesOf s, r.nextState = t) ∧ t ∉ visited := by
  simp [newTargets]

/-- The state has been visited, or its turn is to come. -/
def Search.Meets (w : Search) (s : State) : Prop := s ∈ w.pending ∨ s ∈ w.visited

/-- No round forgets a state. -/
theorem Round.meets (h : d.Round w w') (hs : w.Meets s) : w'.Meets s := by
  cases h with
  | pass hvisited =>
    rcases hs with hs | hs
    · rcases List.mem_cons.mp hs with rfl | hs
      · exact .inr hvisited
      · exact .inl hs
    · exact .inr hs
  | visit _ =>
    rcases hs with hs | hs
    · rcases List.mem_cons.mp hs with rfl | hs
      · exact .inr List.mem_cons_self
      · exact .inl (List.mem_append_right _ hs)
    · exact .inr (List.mem_cons_of_mem _ hs)

/-- What a round meets anew are targets of rules of a pending state. -/
theorem Round.meets_cases (h : d.Round w w') (hs : w'.Meets s) :
    w.Meets s ∨ ∃ q ∈ w.pending, ∃ r ∈ d.rulesOf q, r.nextState = s := by
  cases h with
  | pass _ => exact .inl (hs.imp_left (List.mem_cons_of_mem _))
  | @visit q pending visited _ =>
    rcases hs with hs | hs
    · rcases List.mem_append.mp hs with hs | hs
      · obtain ⟨hr, -⟩ := mem_newTargets.mp (List.mem_reverse.mp hs)
        exact .inr ⟨q, List.mem_cons_self, hr⟩
      · exact .inl (.inl (List.mem_cons_of_mem _ hs))
    · rcases List.mem_cons.mp hs with rfl | hs
      · exact .inl (.inl List.mem_cons_self)
      · exact .inl (.inr hs)

/-- A search that has met reachable states only, the start state among them, and with every state
that it has visited all targets of its rules. -/
structure Search.Sound (d : Definition) (w : Search) : Prop where
  start : w.Meets d.startState
  reachable (q : State) (hq : w.Meets q) : d.Reachable q
  closed (q : State) (hq : q ∈ w.visited) (r : Rule) (hr : r ∈ d.rulesOf q) : w.Meets r.nextState

private theorem sound_firstSearch (d : Definition) : d.firstSearch.Sound d where
  start := .inl List.mem_cons_self
  reachable q hq := by
    rcases hq with hq | hq
    · exact List.mem_singleton.mp hq ▸ .start
    · cases hq
  closed _ hq := nomatch hq

theorem Search.Sound.next (h : w.Sound d) (hw : d.Round w w') : w'.Sound d where
  start := hw.meets h.start
  reachable q hq := by
    rcases hw.meets_cases hq with hq | ⟨p, hp, r, hr, rfl⟩
    · exact h.reachable q hq
    · exact (h.reachable p (.inl hp)).next hr
  closed q hq r hr := by
    have hw := hw
    cases hw with
    | pass _ => exact hw.meets (h.closed q hq r hr)
    | @visit s pending visited hs =>
      rcases List.mem_cons.mp hq with rfl | hq
      · -- a target of the state that is being visited is put on the list unless it is visited
        by_cases ht : r.nextState ∈ q :: visited
        · exact .inr ht
        · refine .inl (List.mem_append_left _ (List.mem_reverse.mpr ?_))
          exact mem_newTargets.mpr ⟨⟨r, hr, rfl⟩, ht⟩
      · exact hw.meets (h.closed q hq r hr)

/-- With nothing pending the visited states are the reachable ones. -/
theorem Search.Sound.mem_visited_iff (h : w.Sound d) (hp : w.pending = []) :
    s ∈ w.visited ↔ d.Reachable s := by
  have hvisited {t : State} (ht : w.Meets t) : t ∈ w.visited :=
    ht.resolve_left fun ht => by simp [hp] at ht
  refine ⟨fun hs => h.reachable s (.inr hs), fun hs => ?_⟩
  induction hs with
  | start => exact hvisited h.start
  | next _ hr ih => exact hvisited (h.closed _ ih _ hr)

private theorem pending_eq_nil_of_nextSearch? (h : d.nextSearch? w = none) : w.pending = [] := by
  obtain ⟨pending, visited⟩ := w
  cases pending with
  | nil => rfl
  | cons s pending =>
    simp only [nextSearch?] at h
    split_ifs at h

private theorem Search.Sound.mem_visit_iff (h : w.Sound d) : s ∈ d.visit w ↔ d.Reachable s := by
  fun_induction d.visit w with
  | case1 w hw => exact h.mem_visited_iff (pending_eq_nil_of_nextSearch? hw)
  | case2 w next hw hlt ih => exact ih (h.next (round_of_nextSearch? hw))

private theorem mem_reachableStates : s ∈ d.reachableStates ↔ d.Reachable s :=
  (sound_firstSearch d).mem_visit_iff

theorem mem_unreachableStates : s ∈ d.unreachableStates ↔ s ∈ d.stateSet ∧ ¬ d.Reachable s := by
  simp [unreachableStates, mem_reachableStates]

theorem pairwise_unreachableStates (d : Definition) : d.unreachableStates.Pairwise (· < ·) :=
  d.pairwise_stateSet.filter _

/-- The search after a number of rounds, if there are as many. -/
def searchAfter? (d : Definition) : Nat → Search → Option Search
  | 0, w => some w
  | n + 1, w => (d.nextSearch? w).bind (d.searchAfter? n)

/-- A search is over when its bound on the rounds says so. -/
theorem exists_searchAfter? (d : Definition) (w : Search) : ∃ n ≤ d.roundsLeft w, ∃ last,
    d.searchAfter? n w = some last ∧ last.pending = [] ∧ last.visited = d.visit w := by
  fun_induction d.visit w with
  | case1 w hw => exact ⟨0, Nat.zero_le _, w, rfl, pending_eq_nil_of_nextSearch? hw, rfl⟩
  | case2 w next hw hlt ih =>
    obtain ⟨n, hn, last, hlast, hover⟩ := ih
    refine ⟨n + 1, Nat.lt_of_le_of_lt hn hlt, last, ?_, hover⟩
    rw [searchAfter?, hw, Option.bind_some, hlast]

end Definition

namespace Machine

variable {m : Machine} {c : Configuration}

/-- A transition is made by a rule of the state before it, so a computation follows a chain of
rules. -/
theorem Reaches.reachable {n : Nat} (h : m.Reaches n c) : m.definition.Reachable c.state := by
  induction h with
  | start => exact .start
  | @next n c s _ hs ih =>
    rw [successors_step] at hs
    split_ifs at hs
    · obtain ⟨a, ha, rfl⟩ := List.mem_map.mp hs
      obtain ⟨r, hr, -, rfl⟩ := Definition.exists_rule_of_mem_actions ha
      exact ih.next hr
    · cases hs

end Machine

/-- The search for unreachable states ends, after at most one round for each rule and one more, and
what it lists, in increasing order, are precisely the states of the definition that no chain of
rules leads to from the start state. No computation of the machine, along whatever branches and of
whatever length, is ever in one of them. -/
theorem Definition.unreachableStates_exact (d : Definition) :
    (∃ n ≤ d.transitionCount + 1, ∃ last, d.searchAfter? n d.firstSearch = some last ∧
      last.pending = [] ∧ last.visited = d.reachableStates) ∧
    d.unreachableStates.Pairwise (· < ·) ∧
    (∀ s, s ∈ d.unreachableStates ↔ s ∈ d.stateSet ∧ ¬ d.Reachable s) ∧
    ∀ w m, Machine.load d w = .ok m → ∀ n c, m.Reaches n c → c.state ∉ d.unreachableStates := by
  refine ⟨?_, d.pairwise_unreachableStates, fun _ => mem_unreachableStates, ?_⟩
  · have h := d.exists_searchAfter? d.firstSearch
    rwa [roundsLeft_firstSearch] at h
  · intro w m hm n c hc hs
    obtain ⟨rfl, -⟩ := Machine.load_eq_ok_iff.mp hm
    exact (mem_unreachableStates.mp hs).2 hc.reachable

/-- Paces over a block of ones and turns at the blank behind it. Nothing leads to the state that is
lost, whose rules lead back and to an end without rules. -/
def Definition.pacer : Definition where
  name := "pace"
  states := ["there", "back", "lost", "end"]
  inputAlphabet := ['1']
  startState := "there"
  rules := ⟨[("there", [⟨'1', '1', .right, "there"⟩, ⟨'_', '_', .left, "back"⟩]),
    ("back", [⟨'1', '1', .right, "there"⟩]),
    ("lost", [⟨'1', '1', .right, "end"⟩, ⟨'_', '_', .stay, "there"⟩])], by decide⟩

/-- The pacing machine on a single one. -/
def Machine.pacing : Machine where
  definition := .pacer
  input := "1"
  table := Definition.pacer.compile
  table_eq := rfl
  valid := by decide +kernel
  fits := by decide +kernel

/-- After three transitions the pacing machine is back where it turned. -/
theorem Definition.unreachableStates_exact_pacing :
    Machine.load .pacer "1" = .ok .pacing ∧ pacer.unreachableStates = ["end", "lost"] ∧
      ∃ c, Machine.pacing.Reaches 3 c ∧ c.state = "there" ∧ c.state ∉ pacer.unreachableStates := by
  obtain ⟨-, -, -, hsound⟩ := pacer.unreachableStates_exact
  have hreached : ∃ c ∈ Machine.pacing.frontier 3, c.state = "there" := by decide +kernel
  obtain ⟨c, hc, hstate⟩ := hreached
  have hc := Machine.mem_frontier.mp hc
  exact ⟨Machine.pacing.load_eq, by decide +kernel, c, hc, hstate,
    hsound "1" .pacing Machine.pacing.load_eq 3 c hc⟩

end TapeMachine
