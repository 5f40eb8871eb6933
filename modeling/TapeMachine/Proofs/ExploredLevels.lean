import Mathlib.Algebra.BigOperators.Group.Finset.Basic
import TapeMachine.Proofs.BoundedVerdict
import TapeMachine.Proofs.CapBoundary

/-!
# The levels of an exploration

The nodes of one depth are a level of the tree. Whatever the limits, no two of them are alike, and
each is reached by a computation with as many transitions as it is deep. So a level never holds more
than is reached at its depth, up to alike configurations. Unless the exploration accepts or the
number of nodes stops it, a level holds no less either: alike configurations have alike futures, and
the one that became a node stands for the others on all levels that follow. The number of nodes
stops nothing before it is as large as the limits allow.
-/

namespace TapeMachine

/-- A list falls apart into the members for each value of a bounded function. -/
theorem sum_length_filter {α : Type} (f : α → Nat) {bound : Nat} {xs : List α}
    (h : ∀ x ∈ xs, f x < bound) :
    ∑ n ∈ Finset.range bound, (xs.filter (f · = n)).length = xs.length := by
  induction xs with
  | nil => simp
  | cons x xs ih =>
    obtain ⟨hx, hxs⟩ := List.forall_mem_cons.mp h
    have hcons (n : Nat) : ((x :: xs).filter (f · = n)).length =
        (xs.filter (f · = n)).length + if f x = n then 1 else 0 := by
      by_cases hn : f x = n <;> simp [hn]
    simp only [hcons, Finset.sum_add_distrib, ih hxs, Finset.sum_ite_eq, Finset.mem_range, hx,
      if_true, List.length_cons]

namespace Machine

/-- The configurations that an exploration creates at a depth, in the order of their creation. -/
def createdAt (m : Machine) (limits : Limits) (depth : Nat) : List Configuration :=
  ((m.tree limits).nodes.toList.filter (·.entry.step = depth)).map (·.entry.configuration)

variable {m : Machine} {limits : Limits} {n : Nat} {c : Configuration}

private theorem mem_createdAt : c ∈ m.createdAt limits n ↔
    ∃ node ∈ (m.tree limits).nodes, node.entry.step = n ∧ node.entry.configuration = c := by
  simp [createdAt, and_assoc]

/-- No two configurations of a level are alike. -/
theorem pairwise_createdAt (m : Machine) (limits : Limits) (n : Nat) :
    (m.createdAt limits n).Pairwise fun c c' => ¬ c ≈ c' := by
  have hkeys : (m.tree limits).nodes.toList.Pairwise fun node node' => node.key ≠ node'.key :=
    List.pairwise_map.mp (m.explored_tree limits).sound.nodup
  refine List.pairwise_map.mpr ((hkeys.filter _).imp_of_mem fun {node node'} hn hn' hne => ?_)
  have hstep : node.entry.step = n := by simpa using (List.mem_filter.mp hn).2
  have hstep' : node'.entry.step = n := by simpa using (List.mem_filter.mp hn').2
  exact fun hequiv => hne (Prod.ext (hstep.trans hstep'.symm) hequiv)

private theorem reaches_of_mem_createdAt (hc : c ∈ m.createdAt limits n) : m.Reaches n c := by
  obtain ⟨node, hnode, rfl, rfl⟩ := mem_createdAt.mp hc
  exact (m.explored_tree limits).sound.grown.reaches hnode

/-- The levels are the whole tree. -/
theorem sum_length_createdAt (m : Machine) (limits : Limits) :
    ∑ n ∈ Finset.range limits.depth, (m.createdAt limits n).length =
      (m.explore limits).explored := by
  have hdepth : ∀ node ∈ (m.tree limits).nodes.toList, node.entry.step < limits.depth :=
    fun node hnode => (m.explored_tree limits).sound.step_lt (Array.mem_def.mpr hnode)
  simp only [createdAt, List.length_map, sum_length_filter _ hdepth]
  rfl

/-- Whatever is reached within the depth of the limits is alike to a node of its level. -/
theorem exists_mem_createdAt (hs : (m.tree limits).stop = none) (hc : m.Reaches n c)
    (hn : n < limits.depth) : ∃ c' ∈ m.createdAt limits n, c' ≈ c := by
  obtain ⟨node, hnode, rfl, hequiv⟩ := (m.explored_tree limits).covers hs hc hn
  exact ⟨_, mem_createdAt.mpr ⟨node, hnode, rfl, rfl⟩, Eq.symm hequiv⟩

/-- Nothing is lost or repeated on a level. The configurations that an exploration creates at one
depth are not alike, and each is reached by a computation with as many transitions; together they
are all that the exploration counts. It says that the number of configurations ended it only if it
counts as many as the limits allow. If that did not happen and it does not accept, everything that
computations reach within the depth of the limits is alike to something created at that depth, so it
counts exactly the different pairs of a depth and what is shown there. -/
theorem created_levels_exact (m : Machine) (limits : Limits) :
    (∀ n, (m.createdAt limits n).Pairwise fun c c' => ¬ c ≈ c') ∧
    (∀ n, ∀ c ∈ m.createdAt limits n, m.Reaches n c) ∧
    ∑ n ∈ Finset.range (max 1 limits.maxSteps), (m.createdAt limits n).length =
      (m.explore limits).explored ∧
    ((m.explore limits).capped = true →
      limits.maxConfigurations ≤ (m.explore limits).explored) ∧
    ((m.explore limits).capped = false → (m.explore limits).verdict ≠ .accepted →
      (∀ n c, m.Reaches n c → n < max 1 limits.maxSteps → ∃ c' ∈ m.createdAt limits n, c' ≈ c) ∧
      (m.explore limits).explored = (m.reached (max 1 limits.maxSteps)).ncard) := by
  refine ⟨m.pairwise_createdAt limits, fun n c => reaches_of_mem_createdAt,
    m.sum_length_createdAt limits, fun hcapped => ?_, fun hcapped hv => ?_⟩
  · by_contra hlt
    rw [capped_eq_false_of_lt (Nat.lt_of_not_le hlt)] at hcapped
    cases hcapped
  · have hs := stop_eq_none_of_capped hcapped hv
    exact ⟨fun n c => exists_mem_createdAt hs,
      Nat.le_antisymm (m.explored_le_ncard limits) (ncard_le_explored hs)⟩

/-- The branches of the forking machine meet on their third level. With room for a fifth node four
are created, as many as there are pairs of a depth and what is reached there, and whatever is
reached within the ten levels is alike to one of them. -/
theorem created_levels_exact_forking :
    (forking.explore { maxSteps := 10, maxConfigurations := 5 }).capped = false ∧
    (forking.explore { maxSteps := 10, maxConfigurations := 5 }).verdict ≠ .accepted ∧
    (forking.reached 10).ncard = 4 ∧
    ∀ n c, forking.Reaches n c → n < 10 →
      ∃ c' ∈ forking.createdAt { maxSteps := 10, maxConfigurations := 5 } n, c' ≈ c := by
  obtain ⟨nodes, hsize, htree, -⟩ := tree_forking
  have hexplored : (forking.explore { maxSteps := 10, maxConfigurations := 5 }).explored = 4 := by
    simp [explore, htree, hsize]
  have hcapped : (forking.explore { maxSteps := 10, maxConfigurations := 5 }).capped = false := by
    simp [explore, htree]
  have hv : (forking.explore { maxSteps := 10, maxConfigurations := 5 }).verdict ≠ .accepted := by
    simp [explore, htree, settle, Outcomes.decide]
  obtain ⟨-, -, -, -, hexact⟩ :=
    created_levels_exact forking { maxSteps := 10, maxConfigurations := 5 }
  obtain ⟨hcovered, hcount⟩ := hexact hcapped hv
  exact ⟨hcapped, hv, hcount.symm.trans hexplored, hcovered⟩

end Machine

end TapeMachine
