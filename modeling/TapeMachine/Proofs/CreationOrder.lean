import TapeMachine.Proofs.DecidedVerdict

/-!
# The order of creation

Nodes are numbered in the order in which they are created, and expanded in the order of their
numbers. So a level is complete before any of its nodes is expanded, deeper nodes have larger
numbers, and the node recorded for an ending is the first one of the whole tree that ends so. Only
branches that were cut off are an exception: which of them is recorded depends on the limits.
-/

namespace TapeMachine

variable {m : Machine} {limits : Limits} {depth : Nat}

namespace Tree

/-- Deeper nodes have larger numbers. -/
def ByDepth (nodes : Array Node) : Prop :=
  ∀ (i j : Nat) (n n' : Node), i ≤ j → nodes[i]? = some n → nodes[j]? = some n' →
    n.entry.step ≤ n'.entry.step

/-- No node before the given one ends with the verdict. -/
def NoneBefore (m : Machine) (nodes : Array Node) (v : Verdict) (i : Nat) : Prop :=
  ∀ (j : Nat) (n : Node), j < i → nodes[j]? = some n → (m.step n.entry.configuration).ending ≠ v

/-- What is known once the nodes below a number have been expanded: their endings are recorded,
except for the branches that go on, and every record is that of the first node. -/
structure Passed (m : Machine) (k : Nat) (nodes : Array Node) (o : Outcomes) : Prop where
  recorded {j : Nat} {n : Node} (hj : j < k) (hn : nodes[j]? = some n)
    (hends : (m.step n.entry.configuration).ending ≠ .timeout) :
    (o.first? (m.step n.entry.configuration).ending).isSome
  lt {v : Verdict} {i : Nat} (h : o.first? v = some i) : i < k
  first {v : Verdict} {i : Nat} (hv : v ≠ .timeout) (h : o.first? v = some i) :
    NoneBefore m nodes v i

theorem ByDepth.push {nodes : Array Node} {new : Node} (h : ByDepth nodes)
    (hle : ∀ n ∈ nodes, n.entry.step ≤ new.entry.step) : ByDepth (nodes.push new) := by
  intro i j n n' hij hn hn'
  rcases getElem?_push_cases hn with hi | ⟨rfl, rfl⟩
  · rcases getElem?_push_cases hn' with hj | ⟨-, rfl⟩
    · exact h i j n n' hij hi hj
    · exact hle n (Array.mem_of_getElem? hi)
  · rcases getElem?_push_cases hn' with hj | ⟨-, rfl⟩
    · have hlt := (Array.getElem?_eq_some_iff.mp hj).1
      omega
    · exact Nat.le_refl _

end Tree

namespace Level

variable {l l' : Level} {e k : Nat}

/-- The nodes of the next level are the last ones of the tree, from a number on. -/
structure Numbered (e : Nat) (l : Level) : Prop where
  numbers : l.next.reverse.map Prod.fst = List.range' e l.next.length
  size : l.nodes.size = e + l.next.length

theorem Numbered.changes (h : Numbered e l) (hc : Changes m limits depth l l') :
    Numbered e l' := by
  induction hc with
  | refl => exact h
  | tail _ hc ih =>
    cases hc with
    | record hn cut => exact ⟨ih.numbers, ih.size⟩
    | add hn hd hs deep room fresh =>
      refine ⟨?_, ?_⟩
      · rw [next_add, List.reverse_cons, List.map_append, ih.numbers, List.length_cons,
          List.range'_1_concat, ih.size]
        rfl
      · rw [nodes_add, next_add, Array.size_push, ih.size, List.length_cons, Nat.add_assoc]

private theorem byDepth_changes (h : Sound m limits depth l) (hb : Tree.ByDepth l.nodes)
    (hc : Changes m limits depth l l') : Tree.ByDepth l'.nodes := by
  induction hc with
  | refl => exact hb
  | tail hprev hc ih =>
    cases hc with
    | record hn cut => exact ih
    | add hn hd hs deep room fresh => exact ih.push fun _ hn => (h.changes hprev).step_le hn

end Level

namespace Tree.Passed

variable {l l' : Level} {k : Nat} {n : Node}

/-- The next node ends, and is recorded. -/
theorem record (h : Passed m k l.nodes l.outcomes) (hn : l.nodes[k]? = some n) :
    Passed m (k + 1) (l.record (m.step n.entry.configuration).ending k).nodes
      (l.record (m.step n.entry.configuration).ending k).outcomes := by
  refine ⟨fun {j n'} hj hn' hends => ?_, fun {v i} hi => ?_, fun {v i} hv hi => ?_⟩
  · rcases Nat.lt_succ_iff_lt_or_eq.mp hj with hj | rfl
    · exact Outcomes.isSome_first?_record_of_isSome _ k (h.recorded hj hn' hends)
    · obtain rfl := Option.some.inj (hn.symm.trans hn')
      exact l.outcomes.isSome_first?_record _ j
  · rcases Outcomes.first?_record_eq_some hi with ho | ⟨-, -, rfl⟩
    · exact Nat.lt_succ_of_lt (h.lt ho)
    · exact Nat.lt_succ_self _
  · rcases Outcomes.first?_record_eq_some hi with ho | ⟨ho, rfl, rfl⟩
    · exact h.first hv ho
    · -- a node before that ends like this one would have been recorded
      intro j n' hj hn' he
      have hsome := h.recorded hj hn' (by rwa [he])
      rw [he, ho] at hsome
      cases hsome

/-- The next node goes on. -/
theorem skip (h : Passed m k l.nodes l.outcomes) (hn : l.nodes[k]? = some n)
    (ht : (m.step n.entry.configuration).ending = .timeout) :
    Passed m (k + 1) l.nodes l.outcomes := by
  refine ⟨fun {j n'} hj hn' hends => ?_, fun hi => Nat.lt_succ_of_lt (h.lt hi), h.first⟩
  rcases Nat.lt_succ_iff_lt_or_eq.mp hj with hj | rfl
  · exact h.recorded hj hn' hends
  · obtain rfl := Option.some.inj (hn.symm.trans hn')
    exact absurd ht hends

/-- New nodes come behind all others. -/
theorem add (h : Passed m k l.nodes l.outcomes) (hk : k ≤ l.nodes.size) (i d : Nat)
    (s : Successor) : Passed m k (l.add i d s).nodes (l.add i d s).outcomes := by
  rw [Level.nodes_add, Level.outcomes_add]
  have hold {j : Nat} {n' : Node} {new : Node} (hj : j < k)
      (hn : (l.nodes.push new)[j]? = some n') : l.nodes[j]? = some n' :=
    (getElem?_push_cases hn).resolve_right fun hc => by omega
  refine ⟨fun hj hn' hends => h.recorded hj (hold hj hn') hends, h.lt, fun hv hi j n' hj hn' => ?_⟩
  exact h.first hv hi j n' hj (hold (Nat.lt_trans hj (h.lt hi)) hn')

theorem extend {successors : List Successor} {cap d : Nat} {full : Bool}
    (h : Passed m k l.nodes l.outcomes) (hn : l.nodes[k]? = some n)
    (ht : (m.step n.entry.configuration).ending = .timeout)
    (he : Level.extend cap k d successors l = (l', full)) :
    Passed m (k + 1) l'.nodes l'.outcomes := by
  induction successors generalizing l with
  | nil =>
    obtain ⟨rfl, -⟩ := Prod.mk.inj he
    exact h.skip hn ht
  | cons s rest ih =>
    rw [Level.extend] at he
    split_ifs at he with hcap hseen
    · obtain ⟨rfl, -⟩ := Prod.mk.inj he
      rw [← ht]
      exact h.record hn
    · exact ih h hn he
    · have hk : k ≤ l.nodes.size := Nat.le_of_lt (Array.getElem?_eq_some_iff.mp hn).1
      exact ih (h.add hk k d s) (getElem?_push_of_getElem? _ hn) he

end Tree.Passed

/-- The nodes of a level that is complete and not expanded yet are the last ones of the tree. -/
structure Tree.InOrder (m : Machine) (k : Nat) (frontier : List (Nat × Configuration))
    (nodes : Array Node) (o : Outcomes) : Prop where
  byDepth : ByDepth nodes
  numbers : frontier.map Prod.fst = List.range' k frontier.length
  size : nodes.size = k + frontier.length
  passed : Passed m k nodes o

/-- An expansion passes the nodes of a level one after the other. -/
theorem Machine.Expands.passed {frontier : List (Nat × Configuration)} {l : Level}
    {r : Level × Option Stop} {k : Nat} (h : m.Expands limits depth frontier l r)
    (ha : l.At depth frontier) (hk : frontier.map Prod.fst = List.range' k frontier.length)
    (hp : Tree.Passed m k l.nodes l.outcomes) :
    ∃ k' ≤ k + frontier.length, Tree.Passed m k' r.1.nodes r.1.outcomes ∧
      (r.2 = none → k' = k + frontier.length) := by
  induction h generalizing k with
  | done => exact ⟨k, Nat.le_refl _, hp, fun _ => rfl⟩
  | @accepts i c rest l h =>
    obtain ⟨⟨n, hn, -, rfl⟩, -⟩ := List.forall_mem_cons.mp ha
    obtain ⟨rfl, -⟩ : i = k ∧ _ := by simpa [List.range'_succ] using hk
    rw [← Step.ending_eq_accepted_iff.mpr h]
    exact ⟨i + 1, by simp, hp.record hn, nofun⟩
  | @ends i c rest l r cut h ih =>
    obtain ⟨⟨n, hn, -, rfl⟩, hrest⟩ := List.forall_mem_cons.mp ha
    obtain ⟨rfl, hk⟩ : i = k ∧ _ := by simpa [List.range'_succ] using hk
    obtain ⟨k', hle, hp', hk'⟩ := ih hrest hk (hp.record hn)
    rw [List.length_cons]
    exact ⟨k', by omega, hp', fun hr => by rw [hk' hr]; omega⟩
  | @full i c rest l l' deep h =>
    obtain ⟨⟨n, hn, -, rfl⟩, -⟩ := List.forall_mem_cons.mp ha
    obtain ⟨rfl, -⟩ : i = k ∧ _ := by simpa [List.range'_succ] using hk
    have more : (m.step n.entry.configuration).successors ≠ [] := by
      intro hnil
      rw [hnil] at h
      cases h
    exact ⟨i + 1, by simp, hp.extend hn (Step.ending_eq_timeout_iff.mpr more) h, nofun⟩
  | @grows i c rest l l' r deep more he h ih =>
    obtain ⟨⟨n, hn, hd, rfl⟩, hrest⟩ := List.forall_mem_cons.mp ha
    obtain ⟨rfl, hk⟩ : i = k ∧ _ := by simpa [List.range'_succ] using hk
    have hc := Level.changes_extend hn hd deep (fun _ hs => hs) he
    obtain ⟨k', hle, hp', hk'⟩ := ih (Level.At.kept hrest hc.kept) hk
      (hp.extend hn (Step.ending_eq_timeout_iff.mpr more) he)
    rw [List.length_cons]
    exact ⟨k', by omega, hp', fun hr => by rw [hk' hr]; omega⟩

/-- A full tree ends an expansion only on a level that is not the last one. -/
theorem Machine.Expands.deep_of_capped {frontier : List (Nat × Configuration)} {l : Level}
    {r : Level × Option Stop} (h : m.Expands limits depth frontier l r)
    (hr : r.2 = some .capped) : depth + 1 < limits.depth := by
  induction h with
  | done => cases hr
  | accepts h => cases hr
  | ends cut h ih => exact ih hr
  | full deep h => exact deep
  | grows deep more he h ih => exact deep

/-- What the order of creation means for the tree in the end. -/
structure Tree.Arranged (m : Machine) (limits : Limits) (t : Tree) : Prop where
  byDepth : ByDepth t.nodes
  first {v : Verdict} {i : Nat} (hv : v ≠ .timeout) (h : t.outcomes.first? v = some i) :
    NoneBefore m t.nodes v i
  /-- Only nodes of the last two levels may not be accounted for. -/
  filled : ∃ depth, (∀ n ∈ t.nodes, n.entry.step ≤ depth + 1) ∧
    ∀ n ∈ t.nodes, n.entry.step < depth → n.Accounted m limits t.nodes t.outcomes
  /-- In a full tree no branch was cut off for its length. -/
  inner (hs : t.stop = some .capped) {v : Verdict} {i : Nat} {n : Node}
    (h : t.outcomes.first? v = some i) (hn : t.nodes[i]? = some n) :
    n.entry.step + 1 < limits.depth

namespace Tree.InOrder

variable {frontier : List (Nat × Configuration)} {nodes : Array Node} {o : Outcomes} {k : Nat}

theorem root (m : Machine) : InOrder m 0 [(0, m.start)]
    #[{ parent := none, entry := m.startEntry }] {} := by
  refine ⟨fun i j n n' _ hn hn' => ?_, rfl, rfl, ?_⟩
  · obtain ⟨hi, rfl⟩ := Array.getElem?_eq_some_iff.mp hn
    obtain ⟨hj, rfl⟩ := Array.getElem?_eq_some_iff.mp hn'
    simp
  · refine ⟨fun hj => absurd hj (Nat.not_lt_zero _), fun {v i} hi => ?_, fun {v i} _ hi => ?_⟩
    · cases v <;> cases hi
    · cases v <;> cases hi

/-- The nodes of a level stay ordered by depth while it is expanded. -/
theorem byDepth_expands (h : InOrder m k frontier nodes o)
    (hb : BuiltTo m limits depth frontier nodes o) {r : Level × Option Stop}
    (hx : m.Expands limits depth frontier { nodes, outcomes := o } r) : ByDepth r.1.nodes :=
  Level.byDepth_changes (Level.Sound.start hb.sound fun _ hn => hb.step_le hn) h.byDepth
    (hx.changes hb.at_frontier)

theorem next (h : InOrder m k frontier nodes o) (hb : BuiltTo m limits depth frontier nodes o)
    {l : Level} (hx : m.Expands limits depth frontier { nodes, outcomes := o } (l, none)) :
    InOrder m nodes.size l.next.reverse l.nodes l.outcomes := by
  have hstart : Level.Numbered nodes.size { nodes, outcomes := o } := ⟨rfl, rfl⟩
  have hnumbered : l.Numbered nodes.size := hstart.changes (hx.changes hb.at_frontier)
  obtain ⟨k', -, hp, hk'⟩ := hx.passed hb.at_frontier h.numbers h.passed
  rw [hk' rfl, ← h.size] at hp
  refine ⟨h.byDepth_expands hb hx, ?_, ?_, hp⟩
  · rw [List.length_reverse, hnumbered.numbers]
  · rw [List.length_reverse, hnumbered.size]

private theorem arranged_of_builds (h : InOrder m k frontier nodes o)
    (hb : BuiltTo m limits depth frontier nodes o) {t : Tree}
    (ht : m.Builds limits depth frontier nodes o t) : Arranged m limits t := by
  induction ht generalizing k with
  | ended hend =>
    exact ⟨h.byDepth, h.passed.first,
      ⟨_, fun _ hn => Nat.le_succ_of_le (hb.step_le hn), fun _ hn => hb.accounted hn⟩, nofun⟩
  | @stopped depth frontier nodes o l stop hx =>
    have hc := hx.changes hb.at_frontier
    obtain ⟨k', hle, hp, -⟩ := hx.passed hb.at_frontier h.numbers h.passed
    refine ⟨h.byDepth_expands hb hx, hp.first, ⟨depth, fun n hn => (hb.level_sound hx).step_le hn,
      fun n hn => hb.accounted_changes hc hn⟩, fun hs v i n hi hn => ?_⟩
    have hlt : i < nodes.size := by
      have := hp.lt hi
      rw [h.size]
      omega
    have hold := hc.kept.nodes (Array.getElem?_eq_getElem hlt)
    obtain rfl := Option.some.inj (hold.symm.trans hn)
    have hstep := hb.step_le (Array.getElem_mem hlt)
    have := hx.deep_of_capped hs
    omega
  | level hx _ ih => exact ih (h.next hb hx) (hb.next hx)

end Tree.InOrder

/-- The tree of a machine is arranged in the order of its creation. -/
theorem Machine.arranged_tree (m : Machine) (limits : Limits) :
    Tree.Arranged m limits (m.tree limits) :=
  (Tree.InOrder.root m).arranged_of_builds (Tree.BuiltTo.root m limits)
    (m.builds_expandLevels (Nat.zero_add _) _ _ _)

namespace Machine

variable {t : Tree}

/-- The tree covers every computation that is shorter than the way to one of its nodes. -/
theorem exists_alike_of_lt {n : Node} (hn : n ∈ (m.tree limits).nodes) {k : Nat}
    {c : Configuration} (hc : m.Reaches k c) (hk : k < n.entry.step) :
    ∃ n' ∈ (m.tree limits).nodes, n'.entry.step = k ∧ c ≈ n'.entry.configuration := by
  have hsound := (m.explored_tree limits).sound
  obtain ⟨depth, hle, ha⟩ := (m.arranged_tree limits).filled
  have := hle n hn
  have := hsound.step_lt hn
  exact hsound.covers_of_accounted ha hc (by omega) (by omega)

/-- The node that decides is the first one of the tree with its ending, unless it was cut off. -/
theorem noneBefore_of_settle {v : Verdict} (hv : v ≠ .timeout) {i : Nat}
    (h : (m.settle (m.tree limits)).first? v = some i) :
    Tree.NoneBefore m (m.tree limits).nodes v i := by
  rcases first?_settle_eq_some h with ho | ⟨rfl, hf⟩
  · exact (m.arranged_tree limits).first hv ho
  · exact (firstAccepting?_eq_some hf).2

/-- A tree with an accepting node is accepted, however it was stopped. -/
theorem verdict_eq_accepted_of_mem {n : Node} (hn : n ∈ (m.tree limits).nodes)
    (ha : (m.step n.entry.configuration).ending = .accepted) :
    (m.explore limits).verdict = .accepted := by
  have ht := m.explored_tree limits
  have hsome : ((m.settle (m.tree limits)).first? .accepted).isSome := by
    cases hs : (m.tree limits).stop with
    | none =>
      have hrecorded := (ht.accounted hs hn).ends (by simp [ha])
      rw [ha] at hrecorded
      exact isSome_first?_settle hrecorded
    | some stop =>
      cases stop with
      | accepted => exact isSome_first?_settle (ht.accepted hs)
      | capped =>
        have hsettle : (m.settle (m.tree limits)).first? .accepted =
            ((m.tree limits).outcomes.first? .accepted <|>
              m.firstAccepting? (m.tree limits).nodes) := by
          rw [settle, hs]
          rfl
        obtain ⟨i, hi⟩ := Option.isSome_iff_exists.mp (isSome_firstAccepting? hn ha)
        rw [hsettle, hi]
        cases (m.tree limits).outcomes.first? .accepted <;> rfl
  exact Verdict.rank_injective (Nat.le_zero.mp (rank_le_of_isSome_settle hsome))

end Machine

end TapeMachine
