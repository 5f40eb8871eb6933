import TapeMachine.Proofs.RaisedLimits

/-!
# A tree that just fits

The number of nodes is compared with its limit before it is known whether a successor becomes a
node. So a tree that has exactly as many nodes as the limit allows is taken for full when one more
successor is looked at, even one that is alike to a node that is there already. The exploration then
has all the nodes that a larger limit gives, and accepts if there is something to accept; otherwise
it reports a branch as cut off, though all that follows there is in the tree. With room for one more
node there is no difference.
-/

namespace TapeMachine

private theorem Tree.Begins.eq_of_size_le {nodes nodes' : Array Node} (h : Begins nodes nodes')
    (hsize : nodes'.size ≤ nodes.size) : nodes = nodes' := by
  refine Array.ext_getElem? fun i => ?_
  rcases Nat.lt_or_ge i nodes.size with hi | hi
  · rw [h i _ (Array.getElem?_eq_getElem hi), Array.getElem?_eq_getElem hi]
  · rw [Array.getElem?_eq_none hi, Array.getElem?_eq_none (Nat.le_trans hsize hi)]

namespace Machine

variable {m : Machine} {limits limits' : Limits}

/-- A path goes on, but only to configurations that are alike to nodes of the tree. -/
def NothingNew (m : Machine) (nodes : Array Node) (path : List TraceEntry) : Prop :=
  ∃ c, m.Records path c ∧ (m.step c).successors ≠ [] ∧
    ∀ s ∈ (m.step c).successors, (path.length, s.configuration.appearance) ∈ Tree.keys nodes

section Fits

variable (hs : limits.maxSteps = limits'.maxSteps)
  (hb : limits.maxConfigurations < limits'.maxConfigurations)
  (hfit : (m.explore limits').explored ≤ limits.maxConfigurations)

include hs hb hfit

/-- Where a larger limit is not met, the smaller one either leaves the same tree or stops the
expansion when all nodes are there. -/
theorem tree_of_explored_le : m.tree limits' = m.tree limits ∨
    (m.tree limits).stop = some .capped ∧ (m.tree limits).nodes = (m.tree limits').nodes := by
  refine (m.tree_of_le (Nat.le_of_eq hs) (Nat.le_of_lt hb)).imp_right fun hcut => ?_
  have hdepth : limits.depth = limits'.depth := congrArg (max 1) hs
  have hstop := hcut.limit.resolve_right fun hlt => Nat.ne_of_lt hlt hdepth
  have hfull := ((m.explored_tree limits).capped hstop).2
  exact ⟨hstop, hcut.begins.eq_of_size_le (Nat.le_trans hfit hfull)⟩

private theorem nodes_of_explored_le : (m.tree limits).nodes = (m.tree limits').nodes := by
  rcases tree_of_explored_le hs hb hfit with he | ⟨-, hnodes⟩
  · rw [he]
  · exact hnodes

private theorem explore_of_capped_eq_false (hcap : (m.explore limits).capped = false) :
    m.explore limits = m.explore limits' := by
  rcases tree_of_explored_le hs hb hfit with he | ⟨hstop, -⟩
  · exact (explore_of_tree_eq he).symm
  · rw [capped_explore_iff.mpr hstop] at hcap
    cases hcap

/-- What is reported as cut off goes on to nothing new, and is shorter than the limits allow. -/
theorem nothingNew_of_timeout (hstop : (m.tree limits).stop = some .capped)
    (hv : (m.explore limits).verdict = .timeout) (hv' : (m.explore limits').verdict ≠ .accepted) :
    (m.explore limits).path.length < limits'.depth ∧
      m.NothingNew (m.tree limits).nodes (m.explore limits).path := by
  have hdepth : limits.depth = limits'.depth := congrArg (max 1) hs
  obtain ⟨i, n, hfirst, hn, hrecords, hlength, hmore, -⟩ := timeout_recorded hv
  have hdeep : n.entry.step + 1 < limits.depth := (m.arranged_tree limits).inner hstop hfirst hn
  have hnone := stop_eq_none_of_capped
    (capped_eq_false_of_lt (Nat.lt_of_le_of_lt hfit hb)) hv'
  rw [nodes_of_explored_le hs hb hfit] at hn ⊢
  have ha := (m.explored_tree limits').accounted hnone (Array.mem_of_getElem? hn)
  refine ⟨by omega, n.entry.configuration, hrecords, hmore, fun s hs => ?_⟩
  rw [hlength]
  exact ha.grows (by omega) hs

end Fits

/-- A timeout within the limit on the number of nodes is due to a path of the full length. -/
theorem length_path_of_timeout (hcap : (m.explore limits).explored < limits.maxConfigurations)
    (hv : (m.explore limits).verdict = .timeout) :
    (m.explore limits).path.length = limits.depth := by
  obtain ⟨i, n, -, -, -, hlength, -, hcut⟩ := timeout_recorded hv
  rw [hlength]
  exact hcut.resolve_right (Nat.not_le_of_lt hcap)

/-- The verdict can be read off the path. -/
theorem verdict_eq_of_path_eq (h : (m.explore limits).path = (m.explore limits').path) :
    (m.explore limits).verdict = (m.explore limits').verdict := by
  obtain ⟨-, n, -, -, he, hr, -⟩ := m.explore_recorded limits
  obtain ⟨-, n', -, -, he', hr', -⟩ := m.explore_recorded limits'
  rw [← h] at hr'
  have hlast : n.entry.configuration = n'.entry.configuration :=
    Option.some.inj (hr.last.symm.trans hr'.last)
  rw [← he, ← he', hlast]

/-- An exploration whose limit on the number of nodes is large enough finds as many nodes as one
with a larger limit, and gives the same answer unless it is stopped nevertheless. That happens only
where the limit is met exactly. Then accepting is still the same answer, but any other verdict
becomes a timeout, on a path that goes on to nothing new. -/
theorem explore_of_explored_le (m : Machine) (limits limits' : Limits)
    (hs : limits.maxSteps = limits'.maxSteps)
    (hb : limits.maxConfigurations < limits'.maxConfigurations)
    (hfit : (m.explore limits').explored ≤ limits.maxConfigurations) :
    (m.explore limits).explored = (m.explore limits').explored ∧
      ((m.explore limits).capped = false → m.explore limits = m.explore limits') ∧
      ((m.explore limits).capped = true →
        (m.explore limits').explored = limits.maxConfigurations ∧
        ((m.explore limits').verdict = .accepted → (m.explore limits).verdict = .accepted ∧
          (m.explore limits).path = (m.explore limits').path) ∧
        ((m.explore limits').verdict ≠ .accepted → (m.explore limits).verdict = .timeout ∧
          (m.explore limits).path ≠ (m.explore limits').path ∧
          m.NothingNew (m.tree limits).nodes (m.explore limits).path)) := by
  have hnodes := nodes_of_explored_le hs hb hfit
  refine ⟨congrArg Array.size hnodes, explore_of_capped_eq_false hs hb hfit, fun hcap => ?_⟩
  have hstop := capped_explore_iff.mp hcap
  obtain ⟨htimeout, hfull⟩ := (m.explored_tree limits).capped hstop
  have hexplored : (m.explore limits).explored = (m.explore limits').explored :=
    congrArg Array.size hnodes
  refine ⟨Nat.le_antisymm hfit (hexplored ▸ hfull), fun hv' => ?_, fun hv' => ?_⟩
  · exact decided_of_begins (fun i n hn => by rwa [hnodes]) hv'
  · have hne : (m.explore limits).verdict ≠ .accepted := fun ha =>
      hv' (decided_of_begins (fun i n hn => by rwa [← hnodes]) ha).1
    have hv := verdict_eq_timeout_of_isSome htimeout hne
    obtain ⟨hlt, hnew⟩ := nothingNew_of_timeout hs hb hfit hstop hv hv'
    refine ⟨hv, fun hpath => ?_, hnew⟩
    have hcut := length_path_of_timeout (Nat.lt_of_le_of_lt hfit hb)
      ((verdict_eq_of_path_eq hpath).symm.trans hv)
    rw [hpath, hcut] at hlt
    exact Nat.lt_irrefl _ hlt

end Machine

/-- Forks into two states that lead to the same rejecting one. -/
def Definition.diamond : Definition where
  name := "diamond"
  kind := .nondeterministic
  inputAlphabet := ['1']
  startState := "fork"
  rejectStates := ["join"]
  rules := ⟨[("fork", [⟨'_', '_', .stay, "left"⟩, ⟨'_', '_', .stay, "right"⟩]),
    ("left", [⟨'_', '_', .stay, "join"⟩]), ("right", [⟨'_', '_', .stay, "join"⟩])], by decide⟩

/-- The forking machine on the empty input. -/
def Machine.forking : Machine where
  definition := .diamond
  input := ""
  table := Definition.diamond.compile
  table_eq := rfl
  valid := by decide +kernel
  fits := by decide +kernel

/-- With room for a fifth node the tree is complete with four. -/
theorem Machine.tree_forking : ∃ nodes : Array Node, nodes.size = 4 ∧
    forking.tree { maxSteps := 10, maxConfigurations := 5 } =
      { nodes, outcomes := { rejected := some 3 }, stop := none } ∧
    forking.tree { maxSteps := 10, maxConfigurations := 4 } =
      { nodes, outcomes := { timeout := some 2 }, stop := some .capped } := by
  let left : Successor := successor forking.start ⟨"left", '_', .stay⟩
  let right : Successor := successor forking.start ⟨"right", '_', .stay⟩
  let joined (s : Successor) : Successor := successor s.configuration ⟨"join", '_', .stay⟩
  have hfork : forking.step forking.start = .branch [left, right] := by
    rw [step_eq]
    decide +kernel
  have hleft : forking.step left.configuration = .branch [joined left] := by
    rw [step_eq]
    decide +kernel
  have hright : forking.step right.configuration = .branch [joined right] := by
    rw [step_eq]
    decide +kernel
  have hjoin : forking.step (joined left).configuration = .halt .reject := by
    rw [step_eq]
    decide +kernel
  have hne : left.configuration.appearance ≠ right.configuration.appearance := by decide +kernel
  have heq : (joined left).configuration.appearance = (joined right).configuration.appearance := by
    decide +kernel
  refine ⟨#[{ parent := none, entry := forking.startEntry },
    { parent := some 0, entry := left.entry 1 }, { parent := some 0, entry := right.entry 1 },
    { parent := some 1, entry := (joined left).entry 2 }], rfl, ?_, ?_⟩
  · simp [tree, Limits.depth, expandLevels_cons, expandLevels_nil, expandLevel_cons, hfork, hleft,
      hright, hjoin, hne, heq, Level.extend, Step.successors, Step.verdict, Halt.verdict,
      Outcomes.record]
  · simp [tree, Limits.depth, expandLevels_cons, expandLevel_cons, hfork, hleft, hright,
      hne, heq, Level.extend, Step.successors, Outcomes.record]

/-- The exploration that rejects with room for a fifth node is cut off without it, at a successor
that is alike to the fourth one. -/
theorem Machine.forking_taken_for_full :
    (forking.explore { maxSteps := 10, maxConfigurations := 5 }).explored = 4 ∧
      (forking.explore { maxSteps := 10, maxConfigurations := 5 }).verdict = .rejected ∧
      (forking.explore { maxSteps := 10, maxConfigurations := 4 }).explored = 4 ∧
      (forking.explore { maxSteps := 10, maxConfigurations := 4 }).verdict = .timeout := by
  obtain ⟨nodes, hsize, htree, hfull⟩ := tree_forking
  have hcut : ((forking.tree { maxSteps := 10, maxConfigurations := 4 }).outcomes.first?
      .timeout).isSome := by
    rw [hfull]
    rfl
  have hne : (forking.explore { maxSteps := 10, maxConfigurations := 4 }).verdict ≠ .accepted := by
    intro hv
    obtain ⟨n, c, -, -, he⟩ :=
      forking.exists_reaches_explore { maxSteps := 10, maxConfigurations := 4 }
    rw [hv, Step.ending_eq_accepted_iff, step_eq_accept_iff] at he
    exact Bool.false_ne_true he
  exact ⟨by simp [explore, htree, hsize], by simp [explore, htree, settle, Outcomes.decide],
    by simp [explore, hfull, hsize], verdict_eq_timeout_of_isSome hcut hne⟩

/-- The limit of four is met exactly, and where the exploration is cut off all that follows is in
the tree. -/
theorem Machine.explore_of_explored_le_forking :
    (forking.explore { maxSteps := 10, maxConfigurations := 5 }).explored ≤ 4 ∧
      (forking.explore { maxSteps := 10, maxConfigurations := 4 }).capped = true ∧
      forking.NothingNew (forking.tree { maxSteps := 10, maxConfigurations := 4 }).nodes
        (forking.explore { maxSteps := 10, maxConfigurations := 4 }).path := by
  obtain ⟨nodes, hsize, htree, hfull⟩ := tree_forking
  have hfit : (forking.explore { maxSteps := 10, maxConfigurations := 5 }).explored ≤ 4 := by
    simp [explore, htree, hsize]
  have hcap : (forking.explore { maxSteps := 10, maxConfigurations := 4 }).capped = true := by
    simp [explore, hfull]
  have hrejected : (forking.explore { maxSteps := 10, maxConfigurations := 5 }).verdict =
      .rejected := by simp [explore, htree, settle, Outcomes.decide]
  obtain ⟨-, -, hwhen⟩ := explore_of_explored_le forking
    { maxSteps := 10, maxConfigurations := 4 } { maxSteps := 10, maxConfigurations := 5 }
    rfl (by decide) hfit
  obtain ⟨-, -, hcut⟩ := hwhen hcap
  exact ⟨hfit, hcap, (hcut (by rw [hrejected]; decide)).2.2⟩

end TapeMachine
