import TapeMachine.Proofs.ExploredTree

/-!
# The decided verdict

How the outcomes of all branches become one verdict: the first recorded one in the order accepted,
timeout, rejected, halted. In an explored tree something is always recorded, so an exploration is
decided by a node of the tree, its path records a computation that ends there, and its verdict is
the one on that computation. No ending that the tree has seen comes before the verdict.
-/

namespace TapeMachine

/-- The place of a verdict in the order in which outcomes decide. -/
def Verdict.rank : Verdict → Nat
  | accepted => 0
  | timeout => 1
  | rejected => 2
  | haltedNonFinal => 3

theorem Verdict.rank_injective {v w : Verdict} (h : v.rank = w.rank) : v = w := by
  cases v <;> cases w <;> simp_all [rank]

theorem Verdict.rank_le_three (v : Verdict) : v.rank ≤ 3 := by
  cases v <;> decide

/-- Rejecting and halting are the verdicts after the timeout. -/
theorem Verdict.one_lt_rank {v : Verdict} (ha : v ≠ .accepted) (ht : v ≠ .timeout) :
    1 < v.rank := by
  have h0 : v.rank ≠ 0 := fun h => ha (rank_injective h)
  have h1 : v.rank ≠ 1 := fun h => ht (rank_injective h)
  omega

private theorem Verdict.forall_iff {P : Verdict → Prop} :
    (∀ v, P v) ↔ P .accepted ∧ P .timeout ∧ P .rejected ∧ P .haltedNonFinal :=
  ⟨fun h => ⟨h _, h _, h _, h _⟩, fun ⟨ha, ht, hr, hh⟩ v => by cases v <;> assumption⟩

/-- The recorded outcome that comes first in the order decides. -/
theorem Outcomes.decide_eq_some_iff {o : Outcomes} {v : Verdict} {i : Nat} :
    o.decide = some (v, i) ↔ o.first? v = some i ∧ ∀ w, w.rank < v.rank → o.first? w = none := by
  obtain ⟨accepted, timeout, rejected, halted⟩ := o
  rw [Verdict.forall_iff]
  cases accepted <;> cases timeout <;> cases rejected <;> cases halted <;> cases v <;>
    simp [decide, first?, Verdict.rank]

private theorem Outcomes.isSome_decide {o : Outcomes} {v : Verdict} (h : (o.first? v).isSome) :
    o.decide.isSome := by
  obtain ⟨accepted, timeout, rejected, halted⟩ := o
  cases accepted <;> cases timeout <;> cases rejected <;> cases halted <;> cases v <;>
    simp_all [decide, first?]

variable {m : Machine} {limits : Limits} {t : Tree}

namespace Machine

private theorem first?_settle_of_ne {v : Verdict} (hv : v ≠ .accepted) :
    (m.settle t).first? v = t.outcomes.first? v := by
  unfold settle
  split
  · cases v with
    | accepted => exact absurd rfl hv
    | timeout => rfl
    | rejected => rfl
    | haltedNonFinal => rfl
  · rfl

theorem settle_of_stop_ne (h : t.stop ≠ some .capped) : m.settle t = t.outcomes := by
  unfold settle
  split
  · rename_i hs
    exact absurd hs h
  · rfl

theorem isSome_first?_settle {v : Verdict} (h : (t.outcomes.first? v).isSome) :
    ((m.settle t).first? v).isSome := by
  unfold settle
  split
  · cases v with
    | accepted =>
      obtain ⟨i, hi⟩ := Option.isSome_iff_exists.mp h
      change (t.outcomes.first? .accepted <|> m.firstAccepting? t.nodes).isSome
      rw [hi]
      rfl
    | timeout => exact h
    | rejected => exact h
    | haltedNonFinal => exact h
  · exact h

/-- An outcome of a settled tree was recorded while the tree grew, or was found in the end. -/
theorem first?_settle_eq_some {v : Verdict} {i : Nat} (h : (m.settle t).first? v = some i) :
    t.outcomes.first? v = some i ∨ v = .accepted ∧ m.firstAccepting? t.nodes = some i := by
  by_cases hv : v = .accepted
  · subst hv
    unfold settle at h
    split at h
    · change (t.outcomes.first? .accepted <|> m.firstAccepting? t.nodes) = some i at h
      cases ho : t.outcomes.first? .accepted with
      | some j => exact .inl (by simpa [ho] using h)
      | none => exact .inr ⟨rfl, by simpa [ho] using h⟩
    · exact .inl h
  · rw [first?_settle_of_ne hv] at h
    exact .inl h

private theorem haltingState?_eq_accept_iff {c : Configuration} :
    m.haltingState? c.state = some .accept ↔ (m.step c).ending = .accepted := by
  rw [Step.ending_eq_accepted_iff, step_eq_accept_iff, haltingState?]
  split_ifs <;> simp_all

/-- The node that is found is the first one that accepts. -/
theorem firstAccepting?_eq_some {nodes : Array Node} {i : Nat}
    (h : m.firstAccepting? nodes = some i) :
    (∃ n, nodes[i]? = some n ∧ (m.step n.entry.configuration).ending = .accepted) ∧
      ∀ j n, j < i → nodes[j]? = some n → (m.step n.entry.configuration).ending ≠ .accepted := by
  obtain ⟨hi, hp, hbefore⟩ := Array.findIdx?_eq_some_iff_getElem.mp h
  refine ⟨⟨nodes[i], Array.getElem?_eq_getElem hi, ?_⟩, fun j n hj hn he => ?_⟩
  · exact haltingState?_eq_accept_iff.mp (by simpa using hp)
  · obtain ⟨hlt, rfl⟩ := Array.getElem?_eq_some_iff.mp hn
    exact hbefore j hj (by simpa using haltingState?_eq_accept_iff.mpr he)

theorem isSome_firstAccepting? {nodes : Array Node} {n : Node} (hn : n ∈ nodes)
    (ha : (m.step n.entry.configuration).ending = .accepted) :
    (m.firstAccepting? nodes).isSome := by
  rw [firstAccepting?, Array.findIdx?_isSome, Array.any_eq_true']
  exact ⟨n, hn, by simpa using haltingState?_eq_accept_iff.mpr ha⟩

end Machine

/-- Where the nodes above a depth are accounted for, the tree covers every computation that is not
longer. -/
theorem Tree.Sound.covers_of_accounted {nodes : Array Node} {o : Outcomes} {depth : Nat}
    (h : Sound m limits nodes o)
    (ha : ∀ n ∈ nodes, n.entry.step < depth → n.Accounted m limits nodes o) {k : Nat}
    {c : Configuration} (hc : m.Reaches k c) (hk : k ≤ depth) (hlt : k < limits.depth) :
    ∃ n ∈ nodes, n.entry.step = k ∧ c ≈ n.entry.configuration := by
  induction hc with
  | start => exact ⟨_, Array.mem_of_getElem? h.grown.getElem?_zero, rfl, rfl⟩
  | next hc hx ih =>
    obtain ⟨n, hn, rfl, he⟩ := ih (by omega) (by omega)
    obtain ⟨y, hy, -, hxy⟩ := (m.step_congr he).exists_successor hx
    obtain ⟨n', hn', hkey⟩ := Tree.mem_keys.mp ((ha n hn (by omega)).grows hlt hy)
    exact ⟨n', hn', congrArg Prod.fst hkey, hxy.trans (congrArg Prod.snd hkey).symm⟩

namespace Tree.Explored

private theorem ending_of_settle (h : Explored m limits t) {v : Verdict} {i : Nat}
    (hv : (m.settle t).first? v = some i) :
    ∃ n, t.nodes[i]? = some n ∧ (m.step n.entry.configuration).ending = v := by
  rcases Machine.first?_settle_eq_some hv with ho | ⟨rfl, hf⟩
  · obtain ⟨n, hn, he, -⟩ := h.sound.outcomes ho
    exact ⟨n, hn, he⟩
  · exact (Machine.firstAccepting?_eq_some hf).1

/-- Something is recorded in every explored tree. A node whose branch does not end has successors in
the tree, so otherwise there would be nodes of every depth. -/
theorem exists_isSome (h : Explored m limits t) : ∃ v, (t.outcomes.first? v).isSome := by
  cases hs : t.stop with
  | some stop =>
    cases stop with
    | accepted => exact ⟨_, h.accepted hs⟩
    | capped => exact ⟨_, (h.capped hs).1⟩
  | none =>
    by_contra hnone
    have hdeep (k : Nat) : ∃ n ∈ t.nodes, n.entry.step = k := by
      induction k with
      | zero => exact ⟨_, Array.mem_of_getElem? h.sound.grown.getElem?_zero, rfl⟩
      | succ k ih =>
        obtain ⟨n, hn, rfl⟩ := ih
        have ha := h.accounted hs hn
        have hend : ¬ ((m.step n.entry.configuration).ending = .timeout →
            n.entry.step + 1 = limits.depth) := fun he => hnone ⟨_, ha.ends he⟩
        obtain ⟨ht, hd⟩ := Classical.not_imp.mp hend
        obtain ⟨s, hs⟩ := List.exists_mem_of_ne_nil _ (Step.ending_eq_timeout_iff.mp ht)
        have hlt : n.entry.step + 1 < limits.depth :=
          Nat.lt_of_le_of_ne (h.sound.step_lt hn) hd
        obtain ⟨n', hn', hk⟩ := Tree.mem_keys.mp (ha.grows hlt hs)
        exact ⟨n', hn', congrArg Prod.fst hk⟩
    obtain ⟨n, hn, hd⟩ := hdeep limits.depth
    exact absurd (h.sound.step_lt hn) (by omega)

/-- A tree that was not stopped covers every computation within the depth of the limits. -/
theorem covers (h : Explored m limits t) (hs : t.stop = none) {k : Nat} {c : Configuration}
    (hc : m.Reaches k c) (hk : k < limits.depth) :
    ∃ n ∈ t.nodes, n.entry.step = k ∧ c ≈ n.entry.configuration :=
  h.sound.covers_of_accounted (fun _ hn _ => h.accounted hs hn) hc (Nat.le_refl _) hk

/-- In a tree that was not stopped the ending of every computation within the depth of the limits is
recorded, unless it goes on below that depth. -/
theorem isSome_ending (h : Explored m limits t) (hs : t.stop = none) {k : Nat} {c : Configuration}
    (hc : m.Reaches k c) (hk : k < limits.depth)
    (hcut : (m.step c).ending = .timeout → k + 1 = limits.depth) :
    (t.outcomes.first? (m.step c).ending).isSome := by
  obtain ⟨n, hn, rfl, he⟩ := h.covers hs hc hk
  rw [(m.step_congr he).ending_eq] at hcut ⊢
  exact (h.accounted hs hn).ends hcut

end Tree.Explored

namespace Machine

theorem isSome_decide_settle (m : Machine) (limits : Limits) :
    (m.settle (m.tree limits)).decide.isSome := by
  obtain ⟨v, hv⟩ := (m.explored_tree limits).exists_isSome
  exact Outcomes.isSome_decide (isSome_first?_settle hv)

/-- The node that decided an exploration lies at the end of the path, and its ending is the
verdict. -/
theorem explore_decided (m : Machine) (limits : Limits) : ∃ i n,
    (m.settle (m.tree limits)).decide = some ((m.explore limits).verdict, i) ∧
      (m.tree limits).nodes[i]? = some n ∧
      (m.step n.entry.configuration).ending = (m.explore limits).verdict ∧
      Tree.Lineage (m.tree limits).nodes i (m.explore limits).path := by
  have ht := m.explored_tree limits
  obtain ⟨⟨v, i⟩, hd⟩ := Option.isSome_iff_exists.mp (m.isSome_decide_settle limits)
  obtain ⟨n, hn, he⟩ := ht.ending_of_settle (Outcomes.decide_eq_some_iff.mp hd).1
  have hlt : i < (m.tree limits).nodes.size := (Array.getElem?_eq_some_iff.mp hn).1
  simp only [explore, hd, Option.getD_some]
  exact ⟨i, n, rfl, hn, he, Tree.lineage_pathTo ht.sound.grown.ordered hlt⟩

/-- The path of an exploration records the computation of the node that decided it. -/
theorem explore_recorded (m : Machine) (limits : Limits) : ∃ i n,
    (m.settle (m.tree limits)).decide = some ((m.explore limits).verdict, i) ∧
      (m.tree limits).nodes[i]? = some n ∧
      (m.step n.entry.configuration).ending = (m.explore limits).verdict ∧
      m.Records (m.explore limits).path n.entry.configuration ∧
      (m.explore limits).path.length = n.entry.step + 1 := by
  obtain ⟨i, n, hd, hn, he, hl⟩ := m.explore_decided limits
  obtain ⟨n', hn', hrecords, hlength⟩ := (m.explored_tree limits).sound.grown.records hl
  obtain rfl := Option.some.inj (hn.symm.trans hn')
  exact ⟨i, n, hd, hn, he, hrecords, hlength⟩

/-- The verdict of an exploration is the ending of a computation. -/
theorem exists_reaches_explore (m : Machine) (limits : Limits) : ∃ n c, n < limits.depth ∧
    m.Reaches n c ∧ (m.step c).ending = (m.explore limits).verdict := by
  have hsound := (m.explored_tree limits).sound
  obtain ⟨i, k, -, hk, he, -⟩ := m.explore_decided limits
  have hmem := Array.mem_of_getElem? hk
  exact ⟨_, _, hsound.step_lt hmem, hsound.grown.reaches hmem, he⟩

/-- A timeout is decided by a node that was recorded when one of the limits cut it off. -/
theorem timeout_recorded (hv : (m.explore limits).verdict = .timeout) : ∃ i n,
    (m.tree limits).outcomes.first? .timeout = some i ∧ (m.tree limits).nodes[i]? = some n ∧
      m.Records (m.explore limits).path n.entry.configuration ∧
      (m.explore limits).path.length = n.entry.step + 1 ∧
      (m.step n.entry.configuration).successors ≠ [] ∧
      (n.entry.step + 1 = limits.depth ∨
        limits.maxConfigurations ≤ (m.explore limits).explored) := by
  obtain ⟨i, n, hd, hn, he, hrecords, hlength⟩ := m.explore_recorded limits
  have hfirst := (Outcomes.decide_eq_some_iff.mp hd).1
  rw [hv, first?_settle_of_ne (by decide)] at hfirst
  obtain ⟨n', hn', -, hcut⟩ := (m.explored_tree limits).sound.outcomes hfirst
  obtain rfl := Option.some.inj (hn.symm.trans hn')
  exact ⟨i, n, hfirst, hn, hrecords, hlength, Step.ending_eq_timeout_iff.mp (he.trans hv), hcut rfl⟩

/-- A timeout is due to a computation that was cut off by one of the limits. -/
theorem exists_cut_of_timeout (hv : (m.explore limits).verdict = .timeout) :
    ∃ n c, m.Reaches n c ∧ (m.step c).successors ≠ [] ∧
      (n + 1 = limits.depth ∨ limits.maxConfigurations ≤ (m.explore limits).explored) := by
  obtain ⟨i, n, -, hn, -, -, hmore, hcut⟩ := timeout_recorded hv
  have hgrown := (m.explored_tree limits).sound.grown
  exact ⟨_, _, hgrown.reaches (Array.mem_of_getElem? hn), hmore, hcut⟩

/-- No outcome comes before the verdict. -/
theorem rank_le_of_isSome_settle {w : Verdict}
    (h : ((m.settle (m.tree limits)).first? w).isSome) :
    (m.explore limits).verdict.rank ≤ w.rank := by
  obtain ⟨i, -, hd, -⟩ := m.explore_decided limits
  by_contra hlt
  rw [(Outcomes.decide_eq_some_iff.mp hd).2 w (Nat.lt_of_not_le hlt)] at h
  cases h

private theorem rank_le_of_isSome {w : Verdict} (h : ((m.tree limits).outcomes.first? w).isSome) :
    (m.explore limits).verdict.rank ≤ w.rank :=
  rank_le_of_isSome_settle (isSome_first?_settle h)

private theorem verdict_eq_accepted_of_isSome
    (h : ((m.tree limits).outcomes.first? .accepted).isSome) :
    (m.explore limits).verdict = .accepted :=
  Verdict.rank_injective (Nat.le_zero.mp (rank_le_of_isSome h))

/-- Where a branch was cut off, an exploration that does not accept times out. -/
theorem verdict_eq_timeout_of_isSome (h : ((m.tree limits).outcomes.first? .timeout).isSome)
    (hv : (m.explore limits).verdict ≠ .accepted) : (m.explore limits).verdict = .timeout := by
  have hle : _ ≤ 1 := rank_le_of_isSome h
  by_contra ht
  exact absurd (Verdict.one_lt_rank hv ht) (Nat.not_lt_of_le hle)

theorem capped_explore_iff :
    (m.explore limits).capped = true ↔ (m.tree limits).stop = some .capped := by
  simp [explore]

/-- The limit on the number of nodes is not met by a smaller tree. -/
theorem capped_eq_false_of_lt (h : (m.explore limits).explored < limits.maxConfigurations) :
    (m.explore limits).capped = false := by
  rw [Bool.eq_false_iff, ne_eq, capped_explore_iff]
  exact fun hs => absurd ((m.explored_tree limits).capped hs).2 (Nat.not_le_of_lt h)

/-- An exploration that is neither stopped by the number of nodes nor accepts was not stopped. -/
theorem stop_eq_none_of_capped (hcap : (m.explore limits).capped = false)
    (hv : (m.explore limits).verdict ≠ .accepted) : (m.tree limits).stop = none := by
  cases hs : (m.tree limits).stop with
  | none => rfl
  | some stop =>
    cases stop with
    | accepted =>
      exact absurd (verdict_eq_accepted_of_isSome ((m.explored_tree limits).accepted hs)) hv
    | capped =>
      rw [capped_explore_iff.mpr hs] at hcap
      cases hcap

/-- A tree is stopped early only for a verdict that comes before rejecting and halting. -/
theorem stop_eq_none_of_rank (hv : 1 < (m.explore limits).verdict.rank) :
    (m.tree limits).stop = none := by
  have ht := m.explored_tree limits
  cases hs : (m.tree limits).stop with
  | none => rfl
  | some stop =>
    cases stop with
    | accepted =>
      have hle : _ ≤ 0 := rank_le_of_isSome (ht.accepted hs)
      omega
    | capped =>
      have hle : _ ≤ 1 := rank_le_of_isSome (ht.capped hs).1
      omega

/-- Where the tree was not stopped early, the verdict does not come after the ending of any
computation within the limits. -/
theorem rank_le_ending (hs : (m.tree limits).stop = none) {n : Nat} {c : Configuration}
    (hc : m.Reaches n c) (hn : n < limits.depth)
    (hcut : (m.step c).ending = .timeout → n + 1 = limits.depth) :
    (m.explore limits).verdict.rank ≤ (m.step c).ending.rank :=
  rank_le_of_isSome ((m.explored_tree limits).isSome_ending hs hc hn hcut)

/-- A verdict after the timeout is given only if no computation outlasts the limits. -/
theorem lt_depth_of_rank (hv : 1 < (m.explore limits).verdict.rank) {n : Nat} {c : Configuration}
    (hc : m.Reaches n c) : n < limits.depth := by
  refine hc.lt_of_stuck limits.depth_pos ?_
  intro k d hd heq
  by_contra hne
  have hend : (m.step d).ending = .timeout := Step.ending_eq_timeout_iff.mpr hne
  have hle := rank_le_ending (stop_eq_none_of_rank hv) hd (by omega) fun _ => heq
  rw [hend] at hle
  exact absurd hv (Nat.not_lt_of_le hle)

/-- A verdict after the timeout does not come after the ending of any computation. -/
theorem rank_le_ending_of_rank (hv : 1 < (m.explore limits).verdict.rank) {n : Nat}
    {c : Configuration} (hc : m.Reaches n c) (hnil : (m.step c).successors = []) :
    (m.explore limits).verdict.rank ≤ (m.step c).ending.rank :=
  rank_le_ending (stop_eq_none_of_rank hv) hc (lt_depth_of_rank hv hc) fun he =>
    absurd hnil (Step.ending_eq_timeout_iff.mp he)

end Machine

end TapeMachine
