import TapeMachine.Proofs.LevelExpansion

/-!
# The explored tree

What is known of the tree of a machine within its limits. Unless it was stopped early, every node is
accounted for: the outcome of a branch that ends is recorded, and the successors of every other node
are in the tree, up to alike ones. Hence something is always recorded, and the tree covers every
computation that is not longer than the limits allow.
-/

namespace TapeMachine

variable {m : Machine} {limits : Limits}

/-- The branch of a node that ends there is recorded, and otherwise its successors are in the
tree. -/
structure Node.Accounted (m : Machine) (limits : Limits) (nodes : Array Node) (o : Outcomes)
    (n : Node) : Prop where
  ends (h : (m.step n.entry.configuration).ending = .timeout → n.entry.step + 1 = limits.depth) :
    (o.first? (m.step n.entry.configuration).ending).isSome
  grows (h : n.entry.step + 1 < limits.depth) {s : Successor}
    (hs : s ∈ (m.step n.entry.configuration).successors) :
    (n.entry.step + 1, s.configuration.appearance) ∈ Tree.keys nodes

/-- What holds of the tree that an exploration leaves. -/
structure Tree.Explored (m : Machine) (limits : Limits) (t : Tree) : Prop where
  sound : Tree.Sound m limits t.nodes t.outcomes
  accepted (h : t.stop = some .accepted) : (t.outcomes.first? .accepted).isSome
  capped (h : t.stop = some .capped) :
    (t.outcomes.first? .timeout).isSome ∧ limits.maxConfigurations ≤ t.nodes.size
  accounted (h : t.stop = none) {n : Node} (hn : n ∈ t.nodes) :
    n.Accounted m limits t.nodes t.outcomes

theorem Level.Kept.keys {l l' : Level} (h : Level.Kept l l') {k : Nat × Appearance}
    (hk : k ∈ Tree.keys l.nodes) : k ∈ Tree.keys l'.nodes := by
  obtain ⟨n, hn, rfl⟩ := Tree.mem_keys.mp hk
  obtain ⟨i, hi⟩ := Array.mem_iff_getElem?.mp hn
  exact Tree.mem_keys.mpr ⟨n, Array.mem_of_getElem? (h.nodes hi), rfl⟩

theorem Node.Accounted.kept {l l' : Level} {n : Node}
    (h : n.Accounted m limits l.nodes l.outcomes) (hk : Level.Kept l l') :
    n.Accounted m limits l'.nodes l'.outcomes :=
  ⟨fun he => hk.isSome (h.ends he), fun hd _ hs => hk.keys (h.grows hd hs)⟩

/-- What holds of a level when its first node is about to be expanded. -/
theorem Level.Sound.start {depth : Nat} {nodes : Array Node} {o : Outcomes}
    (h : Tree.Sound m limits nodes o) (hle : ∀ n ∈ nodes, n.entry.step ≤ depth) :
    Level.Sound m limits depth { nodes, outcomes := o } := by
  refine ⟨h, fun hn => Nat.le_succ_of_le (hle _ hn), fun {a} => ?_, fun {x} => ?_⟩
  · refine ⟨fun ha => absurd ha Std.HashSet.not_mem_empty, fun hk => ?_⟩
    obtain ⟨n, hn, he⟩ := Tree.mem_keys.mp hk
    have := hle n hn
    have : n.entry.step = depth + 1 := congrArg Prod.fst he
    omega
  · refine ⟨fun hx => absurd hx List.not_mem_nil, ?_⟩
    rintro ⟨n, hn, hd, -⟩
    have := hle n (Array.mem_of_getElem? hn)
    omega

/-- What holds of the tree before the nodes of a depth are expanded: they are the deepest ones, and
those before them are accounted for. -/
structure Tree.BuiltTo (m : Machine) (limits : Limits) (depth : Nat)
    (frontier : List (Nat × Configuration)) (nodes : Array Node) (o : Outcomes) : Prop where
  sound : Tree.Sound m limits nodes o
  step_le {n : Node} (h : n ∈ nodes) : n.entry.step ≤ depth
  frontier {x : Nat × Configuration} : x ∈ frontier ↔ ∃ n, nodes[x.1]? = some n ∧
    n.entry.step = depth ∧ n.entry.configuration = x.2
  accounted {n : Node} (h : n ∈ nodes) (hd : n.entry.step < depth) :
    n.Accounted m limits nodes o

theorem Machine.expandLevels_cons (m : Machine) (cap room depth : Nat) (x : Nat × Configuration)
    (rest : List (Nat × Configuration)) (nodes : Array Node) (o : Outcomes) :
    m.expandLevels cap (room + 1) depth (x :: rest) nodes o =
      match m.expandLevel cap depth (room == 0) (x :: rest) { nodes, outcomes := o } with
      | (l, some stop) => { nodes := l.nodes, outcomes := l.outcomes, stop := some stop }
      | (l, none) =>
        m.expandLevels cap room (depth + 1) l.next.reverse l.nodes l.outcomes := rfl

/-- The expansion of levels, case by case: the depth, its nodes, the tree before and the tree in
the end. -/
inductive Machine.Builds (m : Machine) (limits : Limits) :
    Nat → List (Nat × Configuration) → Array Node → Outcomes → Tree → Prop where
  | ended {depth : Nat} {frontier : List (Nat × Configuration)} {nodes : Array Node} {o : Outcomes}
      (h : depth = limits.depth ∨ frontier = []) :
      Builds m limits depth frontier nodes o { nodes, outcomes := o, stop := none }
  | stopped {depth : Nat} {frontier : List (Nat × Configuration)} {nodes : Array Node}
      {o : Outcomes} {l : Level} {stop : Stop}
      (hx : m.Expands limits depth frontier { nodes, outcomes := o } (l, some stop)) :
      Builds m limits depth frontier nodes o
        { nodes := l.nodes, outcomes := l.outcomes, stop := some stop }
  | level {depth : Nat} {frontier : List (Nat × Configuration)} {nodes : Array Node}
      {o : Outcomes} {l : Level} {t : Tree}
      (hx : m.Expands limits depth frontier { nodes, outcomes := o } (l, none))
      (h : Builds m limits (depth + 1) l.next.reverse l.nodes l.outcomes t) :
      Builds m limits depth frontier nodes o t

/-- Every expansion of levels is one of the cases. -/
theorem Machine.builds_expandLevels (m : Machine) {limits : Limits} {room depth : Nat}
    (hroom : depth + room = limits.depth) (frontier : List (Nat × Configuration))
    (nodes : Array Node) (o : Outcomes) : m.Builds limits depth frontier nodes o
      (m.expandLevels limits.maxConfigurations room depth frontier nodes o) := by
  induction room generalizing depth frontier nodes o with
  | zero => exact .ended (.inl hroom)
  | succ room ih =>
    cases frontier with
    | nil => exact .ended (.inr rfl)
    | cons x rest =>
      have hx : m.Expands limits depth (x :: rest) { nodes, outcomes := o }
          (m.expandLevel limits.maxConfigurations depth (room == 0) (x :: rest)
            { nodes, outcomes := o }) :=
        m.expands_expandLevel (by omega) (by rw [beq_iff_eq]; omega) _ _
      rw [expandLevels_cons]
      split
      · rename_i l stop he
        rw [he] at hx
        exact .stopped hx
      · rename_i l he
        rw [he] at hx
        exact .level hx (ih (by omega) _ _ _)

namespace Tree.BuiltTo

variable {depth : Nat} {frontier : List (Nat × Configuration)} {nodes : Array Node} {o : Outcomes}
  {l : Level}

/-- The root alone is the tree before anything is expanded. -/
theorem root (m : Machine) (limits : Limits) : BuiltTo m limits 0 [(0, m.start)]
    #[{ parent := none, entry := m.startEntry }] {} := by
  refine ⟨⟨.root, by simp [keys], ?_, fun {n} hn => ?_, fun {v i} hv => ?_⟩, fun {n} hn => ?_,
    fun {x} => ?_, fun _ hd => absurd hd (Nat.not_lt_zero _)⟩
  · exact Nat.le_max_left _ _
  · obtain rfl := List.mem_singleton.mp (Array.mem_def.mp hn)
    exact limits.depth_pos
  · cases v <;> cases hv
  · obtain rfl := List.mem_singleton.mp (Array.mem_def.mp hn)
    exact Nat.le_refl _
  · obtain ⟨i, c⟩ := x
    rw [List.mem_singleton]
    constructor
    · rintro ⟨rfl, rfl⟩
      exact ⟨_, rfl, rfl, rfl⟩
    · rintro ⟨n, hn, -, hc⟩
      obtain ⟨hi, rfl⟩ := Array.getElem?_eq_some_iff.mp hn
      obtain rfl : i = 0 := by simpa using hi
      exact Prod.ext rfl hc.symm

theorem at_frontier (h : BuiltTo m limits depth frontier nodes o) :
    Level.At { nodes, outcomes := o } depth frontier := fun _ hx => h.frontier.mp hx

theorem level_sound (h : BuiltTo m limits depth frontier nodes o) {r : Level × Option Stop}
    (hx : m.Expands limits depth frontier { nodes, outcomes := o } r) :
    Level.Sound m limits depth r.1 :=
  (Level.Sound.start h.sound fun _ hn => h.step_le hn).changes (hx.changes h.at_frontier)

/-- What is accounted for stays so while deeper nodes are expanded. -/
theorem accounted_changes (h : BuiltTo m limits depth frontier nodes o)
    (hc : Level.Changes m limits depth { nodes, outcomes := o } l) {n : Node} (hn : n ∈ l.nodes)
    (hd : n.entry.step < depth) : n.Accounted m limits l.nodes l.outcomes := by
  obtain ⟨i, hi⟩ := Array.mem_iff_getElem?.mp hn
  have hold : nodes[i]? = some n := (hc.old_or_deeper hi).resolve_right (by omega)
  exact (h.accounted (Array.mem_of_getElem? hold) hd).kept hc.kept

/-- A complete expansion builds the tree one level deeper. -/
theorem next (h : BuiltTo m limits depth frontier nodes o)
    (hx : m.Expands limits depth frontier { nodes, outcomes := o } (l, none)) :
    BuiltTo m limits (depth + 1) l.next.reverse l.nodes l.outcomes := by
  have hl := h.level_sound hx
  have hc := hx.changes h.at_frontier
  refine ⟨hl.tree, hl.step_le, List.mem_reverse.trans hl.next, fun {n} hn hlt => ?_⟩
  rcases Nat.lt_or_ge n.entry.step depth with hlt' | hge
  · exact h.accounted_changes hc hn hlt'
  · obtain rfl : n.entry.step = depth := by omega
    obtain ⟨i, hi⟩ := Array.mem_iff_getElem?.mp hn
    have hold : nodes[i]? = some n := (hc.old_or_deeper hi).resolve_right (Nat.ne_of_lt hlt)
    have hmem : (i, n.entry.configuration) ∈ frontier := h.frontier.mpr ⟨n, hold, rfl, rfl⟩
    obtain ⟨hends, hgrows⟩ := hx.accounted h.at_frontier rfl _ hmem
    exact ⟨hends, fun deep _ hs => hl.seen.mp (hgrows deep _ hs)⟩

/-- When nothing is left to expand, the tree is explored. -/
theorem explored (h : BuiltTo m limits depth frontier nodes o)
    (hend : depth = limits.depth ∨ frontier = []) :
    Explored m limits { nodes, outcomes := o, stop := none } := by
  refine ⟨h.sound, nofun, nofun, fun _ {n} hn => h.accounted hn ?_⟩
  rcases hend with rfl | rfl
  · exact h.sound.step_lt hn
  · refine Nat.lt_of_le_of_ne (h.step_le hn) fun hd => ?_
    obtain ⟨i, hi⟩ := Array.mem_iff_getElem?.mp hn
    exact List.not_mem_nil ((h.frontier (x := (i, n.entry.configuration))).mpr ⟨n, hi, hd, rfl⟩)

private theorem explored_of_builds {t : Tree} (h : BuiltTo m limits depth frontier nodes o)
    (hb : m.Builds limits depth frontier nodes o t) : Explored m limits t := by
  induction hb with
  | ended hend => exact h.explored hend
  | stopped hx =>
    exact ⟨(h.level_sound hx).tree, fun hs => hx.isSome_accepted hs,
      fun hs => hx.isSome_timeout hs, nofun⟩
  | level hx _ ih => exact ih (h.next hx)

end Tree.BuiltTo

/-- The tree of a machine within its limits is explored. -/
theorem Machine.explored_tree (m : Machine) (limits : Limits) :
    Tree.Explored m limits (m.tree limits) :=
  (Tree.BuiltTo.root m limits).explored_of_builds (m.builds_expandLevels (Nat.zero_add _) _ _ _)

end TapeMachine
