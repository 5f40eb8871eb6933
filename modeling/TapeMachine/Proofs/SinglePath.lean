import TapeMachine.Proofs.DecidedVerdict
import TapeMachine.Run

/-!
# Trees that are a single path

Where no configuration has more than one successor, the tree of a machine is a path, and exploring
it does the same as following the computation step by step: the levels are the entries, the branch
ends where the computation is left, and the limit on the number of nodes is not felt unless it is
smaller than the depth.
-/

namespace TapeMachine

/-- The tree is a path along the given entries, which ends with a verdict. -/
structure Tree.IsPath (t : Tree) (v : Verdict) (entries : List TraceEntry) : Prop where
  outcomes : t.outcomes = ({} : Outcomes).record v (entries.length - 1)
  stop : t.stop ≠ some .capped
  size : t.nodes.size = entries.length
  lineage : Lineage t.nodes (entries.length - 1) entries

private theorem Outcomes.decide_record_empty (v : Verdict) (i : Nat) :
    (({} : Outcomes).record v i).decide = some (v, i) := by
  cases v <;> rfl

namespace Machine

variable {m : Machine} {limits : Limits}

/-- No configuration has more than one successor. -/
def Linear (m : Machine) : Prop := ∀ c, (m.step c).successors.length ≤ 1

section Follow

variable {room recorded explored : Nat} {c : Configuration} {entries : List TraceEntry}
  {s : Successor} {rest : List Successor}

theorem follow_of_nil (h : (m.step c).successors = []) :
    m.follow room recorded explored c entries =
      { verdict := (m.step c).verdict, trace := ⟨entries.reverse⟩, explored } := by
  rw [follow.eq_def]
  simp only [h]

theorem follow_zero_of_cons (h : (m.step c).successors = s :: rest) :
    m.follow 0 recorded explored c entries =
      { verdict := .timeout, trace := ⟨entries.reverse⟩, explored } := by
  rw [follow.eq_def]
  simp only [h]

theorem follow_succ_of_cons (h : (m.step c).successors = s :: rest) :
    m.follow (room + 1) recorded explored c entries =
      m.follow room (recorded + 1) (explored + 1) s.configuration
        (s.entry recorded :: entries) := by
  rw [follow.eq_def]
  simp only [h]
  rfl

/-- Following a computation counts one configuration for each entry that it adds. -/
theorem explored_follow (h : explored = entries.length) :
    (m.follow room recorded explored c entries).explored =
      (m.follow room recorded explored c entries).trace.length := by
  induction room generalizing recorded explored c entries with
  | zero =>
    cases hs : (m.step c).successors with
    | nil =>
      rw [follow_of_nil hs, Trace.length, List.length_reverse]
      exact h
    | cons s rest =>
      rw [follow_zero_of_cons hs, Trace.length, List.length_reverse]
      exact h
  | succ room ih =>
    cases hs : (m.step c).successors with
    | nil =>
      rw [follow_of_nil hs, Trace.length, List.length_reverse]
      exact h
    | cons s rest =>
      rw [follow_succ_of_cons hs]
      exact ih (by rw [h, List.length_cons])

end Follow

/-- In a run that is followed step by step every configuration that is made becomes an entry. -/
theorem explored_runDirectly (m : Machine) (limits : Limits) :
    (m.runDirectly limits).explored = (m.runDirectly limits).trace.length :=
  explored_follow rfl

/-- A level of one node is expanded to the next entry, unless the path ends there. -/
theorem expandLevel_singleton (hm : m.Linear) {cap depth i : Nat} {last : Bool}
    {c : Configuration} {nodes : Array Node} (hcap : last = false → nodes.size < cap) :
    m.expandLevel cap depth last [(i, c)] { nodes, outcomes := {} } =
      match (m.step c).successors with
      | [] => (Level.record { nodes, outcomes := {} } (m.step c).verdict i,
          if m.step c = .halt .accept then some .accepted else none)
      | s :: _ =>
        if last then (Level.record { nodes, outcomes := {} } .timeout i, none)
        else (Level.add { nodes, outcomes := {} } i depth s, none) := by
  have hl := hm c
  rw [expandLevel_cons]
  cases hs : (m.step c).successors with
  | nil =>
    by_cases ha : m.step c = .halt .accept
    · simp [ha, Step.verdict, Halt.verdict]
    · simp [ha]
  | cons s rest =>
    rw [hs] at hl
    obtain rfl : rest = [] := List.eq_nil_of_length_eq_zero (by simpa using hl)
    have ha : m.step c ≠ .halt .accept := fun ha => by simp [ha, Step.successors] at hs
    cases last with
    | true => simp [ha]
    | false =>
      have hcap := Nat.not_le_of_lt (hcap rfl)
      simp [ha, Level.extend, hcap]

theorem expandLevels_nil (m : Machine) (cap room depth : Nat) (nodes : Array Node) (o : Outcomes) :
    m.expandLevels cap room depth [] nodes o = { nodes, outcomes := o, stop := none } := by
  cases room <;> rfl

/-- A path of nodes whose last one is recorded is the tree of its entries. -/
theorem isPath_record {depth : Nat} {nodes : Array Node} {entries : List TraceEntry}
    (hsize : nodes.size = depth + 1) (hlen : entries.length = depth + 1)
    (hl : Tree.Lineage nodes depth entries.reverse) (v : Verdict) {stop : Option Stop}
    (hstop : stop ≠ some .capped) :
    Tree.IsPath { nodes, outcomes := ({} : Outcomes).record v depth, stop } v entries.reverse := by
  have hd : entries.reverse.length - 1 = depth := by simp [hlen]
  exact ⟨by rw [hd], hstop, by simp [hsize, hlen], by rwa [hd]⟩

private theorem isPath_of_nil (hm : m.Linear) {cap room depth : Nat} {c : Configuration}
    {nodes : Array Node} {entries : List TraceEntry} (hs : (m.step c).successors = [])
    (hcap : depth + room < cap) (hsize : nodes.size = depth + 1)
    (hlen : entries.length = depth + 1) (hl : Tree.Lineage nodes depth entries.reverse) :
    Tree.IsPath (m.expandLevels cap (room + 1) depth [(depth, c)] nodes {})
      (m.step c).verdict entries.reverse := by
  have hroom : (room == 0) = false → nodes.size < cap := by
    rw [beq_eq_false_iff_ne]
    omega
  rw [expandLevels_cons, expandLevel_singleton hm hroom, hs]
  by_cases ha : m.step c = .halt .accept
  · rw [if_pos ha]
    exact isPath_record hsize hlen hl _ nofun
  · rw [if_neg ha]
    change Tree.IsPath (m.expandLevels cap room (depth + 1) [] nodes _) _ _
    rw [expandLevels_nil]
    exact isPath_record hsize hlen hl _ nofun

/-- Expanding the levels of a path does what following the computation does. -/
theorem isPath_expandLevels (hm : m.Linear) {cap room depth explored : Nat} {c : Configuration}
    {nodes : Array Node} {entries : List TraceEntry} (hcap : depth + room < cap)
    (hsize : nodes.size = depth + 1) (hlen : entries.length = depth + 1)
    (hl : Tree.Lineage nodes depth entries.reverse) :
    Tree.IsPath (m.expandLevels cap (room + 1) depth [(depth, c)] nodes {})
      (m.follow room (depth + 1) explored c entries).verdict
      (m.follow room (depth + 1) explored c entries).trace.entries := by
  induction room generalizing depth explored c nodes entries with
  | zero =>
    cases hs : (m.step c).successors with
    | nil =>
      rw [follow_of_nil hs]
      exact isPath_of_nil hm hs hcap hsize hlen hl
    | cons s rest =>
      rw [follow_zero_of_cons hs, expandLevels_cons, expandLevel_singleton hm (by simp), hs]
      exact isPath_record hsize hlen hl .timeout nofun
  | succ room ih =>
    cases hs : (m.step c).successors with
    | nil =>
      rw [follow_of_nil hs]
      exact isPath_of_nil hm hs hcap hsize hlen hl
    | cons s rest =>
      rw [follow_succ_of_cons hs, expandLevels_cons, expandLevel_singleton hm fun _ => by omega, hs]
      let new : Node := { parent := some depth, entry := s.entry (depth + 1) }
      have hnew : (nodes.push new)[depth + 1]? = some new := by
        rw [← hsize]
        exact Array.getElem?_push_size
      have hl' : Tree.Lineage (nodes.push new) (depth + 1)
          (s.entry (depth + 1) :: entries).reverse := by
        rw [List.reverse_cons]
        exact .child hnew rfl (hl.begins fun _ _ hn => getElem?_push_of_getElem? _ hn)
      change Tree.IsPath (m.expandLevels cap (room + 1) (depth + 1)
        [(nodes.size, s.configuration)] (nodes.push new) {}) _ _
      rw [hsize]
      exact ih (by omega) (by simp [hsize]) (by simp [hlen]) hl'

/-- Where no configuration has more than one successor, exploring gives the run that following the
computation gives. -/
theorem run_explore_of_linear (hm : m.Linear)
    (hcap : limits.depth ≤ limits.maxConfigurations) :
    (m.explore limits).run = m.runDirectly limits := by
  have hpos := limits.depth_pos
  have hroom : limits.depth = limits.depth - 1 + 1 := by omega
  have hp : (m.tree limits).IsPath (m.runDirectly limits).verdict
      (m.runDirectly limits).trace.entries := by
    have hl : Tree.Lineage #[{ parent := none, entry := m.startEntry }] 0
        [m.startEntry].reverse := .root (n := { parent := none, entry := m.startEntry }) rfl rfl
    rw [tree, hroom]
    exact isPath_expandLevels hm (by omega) rfl rfl hl
  have hcount := m.explored_runDirectly limits
  generalize m.runDirectly limits = r at hp hcount
  obtain ⟨v, ⟨entries⟩, explored⟩ := r
  have hsettle : (m.settle (m.tree limits)).decide = some (v, entries.length - 1) := by
    rw [settle_of_stop_ne hp.stop, hp.outcomes, Outcomes.decide_record_empty]
  obtain ⟨i, n, hd, -, -, hl⟩ := m.explore_decided limits
  obtain ⟨hv, hi⟩ := Prod.mk.inj (Option.some.inj (hsettle.symm.trans hd))
  have hpath : (m.explore limits).path = entries := hl.unique (hi ▸ hp.lineage)
  have hexplored : (m.explore limits).explored = explored := hp.size.trans hcount.symm
  rw [Exploration.run, ← hv, hpath, hexplored]

end Machine

end TapeMachine
