import Mathlib.Logic.Relation
import TapeMachine.Proofs.TreeGrowth

/-!
# Expansion of a level

While a level is expanded only two things happen: a branch that ends is recorded at its node, and a
successor becomes a new node. `Level.Change` says under which conditions, and all that holds of a
level is derived from it: no two nodes of the same depth are alike, every outcome is that of its
node, and a branch that could go on was ended by a limit. `Machine.Expands` lists the cases of the
expansion; from it follows that every node that was expanded is accounted for.
-/

namespace TapeMachine

variable {m : Machine} {limits : Limits} {depth : Nat} {l l' : Level}

namespace Level

@[simp] theorem nodes_record (l : Level) (v : Verdict) (i : Nat) :
    (l.record v i).nodes = l.nodes := rfl

@[simp] theorem outcomes_record (l : Level) (v : Verdict) (i : Nat) :
    (l.record v i).outcomes = l.outcomes.record v i := rfl

@[simp] theorem seen_record (l : Level) (v : Verdict) (i : Nat) :
    (l.record v i).seen = l.seen := rfl

@[simp] theorem next_record (l : Level) (v : Verdict) (i : Nat) :
    (l.record v i).next = l.next := rfl

@[simp] theorem nodes_add (l : Level) (i d : Nat) (s : Successor) :
    (l.add i d s).nodes = l.nodes.push { parent := some i, entry := s.entry (d + 1) } := rfl

@[simp] theorem outcomes_add (l : Level) (i d : Nat) (s : Successor) :
    (l.add i d s).outcomes = l.outcomes := rfl

@[simp] theorem seen_add (l : Level) (i d : Nat) (s : Successor) :
    (l.add i d s).seen = l.seen.insert s.configuration.appearance := rfl

@[simp] theorem next_add (l : Level) (i d : Nat) (s : Successor) :
    (l.add i d s).next = (l.nodes.size, s.configuration) :: l.next := rfl

/-- One change of the tree while the nodes of a depth are expanded. -/
inductive Change (m : Machine) (limits : Limits) (depth : Nat) : Level → Level → Prop where
  | record {l : Level} {i : Nat} {n : Node} (hn : l.nodes[i]? = some n)
      (cut : (m.step n.entry.configuration).ending = .timeout →
        n.entry.step + 1 = limits.depth ∨ limits.maxConfigurations ≤ l.nodes.size) :
      Change m limits depth l (l.record (m.step n.entry.configuration).ending i)
  | add {l : Level} {i : Nat} {n : Node} {s : Successor} (hn : l.nodes[i]? = some n)
      (hd : n.entry.step = depth) (hs : s ∈ (m.step n.entry.configuration).successors)
      (deep : depth + 1 < limits.depth) (room : l.nodes.size < limits.maxConfigurations)
      (fresh : s.configuration.appearance ∉ l.seen) :
      Change m limits depth l (l.add i depth s)

/-- Any number of changes. -/
abbrev Changes (m : Machine) (limits : Limits) (depth : Nat) : Level → Level → Prop :=
  Relation.ReflTransGen (Change m limits depth)

/-- Nothing is lost from one level to another. -/
structure Kept (l l' : Level) : Prop where
  nodes {i : Nat} {n : Node} (h : l.nodes[i]? = some n) : l'.nodes[i]? = some n
  outcomes {v : Verdict} {i : Nat} (h : l.outcomes.first? v = some i) :
    l'.outcomes.first? v = some i
  seen {a : Appearance} (h : a ∈ l.seen) : a ∈ l'.seen

theorem Kept.refl (l : Level) : Kept l l := ⟨id, id, id⟩

theorem Kept.trans {l l' l'' : Level} (h : Kept l l') (h' : Kept l' l'') : Kept l l'' :=
  ⟨fun hn => h'.nodes (h.nodes hn), fun hv => h'.outcomes (h.outcomes hv),
    fun ha => h'.seen (h.seen ha)⟩

theorem Kept.isSome (h : Kept l l') {v : Verdict} (hv : (l.outcomes.first? v).isSome) :
    (l'.outcomes.first? v).isSome := by
  obtain ⟨i, hi⟩ := Option.isSome_iff_exists.mp hv
  exact Option.isSome_iff_exists.mpr ⟨i, h.outcomes hi⟩

theorem Kept.record (l : Level) (v : Verdict) (i : Nat) : Kept l (l.record v i) := by
  refine ⟨id, fun {w j} hw => ?_, id⟩
  rw [outcomes_record, Outcomes.first?_record, hw]
  split_ifs <;> rfl

theorem Kept.add (l : Level) (i d : Nat) (s : Successor) : Kept l (l.add i d s) :=
  ⟨getElem?_push_of_getElem? _, id, fun ha => by simp [ha]⟩

theorem Change.kept (h : Change m limits depth l l') : Kept l l' := by
  cases h with
  | record hn cut => exact .record ..
  | add hn hd hs deep room fresh => exact .add ..

theorem Changes.kept (h : Changes m limits depth l l') : Kept l l' := by
  induction h with
  | refl => exact .refl _
  | tail _ h ih => exact ih.trans h.kept

/-- Every new node lies one level deeper. -/
theorem Changes.old_or_deeper (h : Changes m limits depth l l') {i : Nat} {n : Node}
    (hn : l'.nodes[i]? = some n) : l.nodes[i]? = some n ∨ n.entry.step = depth + 1 := by
  induction h with
  | refl => exact .inl hn
  | tail _ h ih =>
    cases h with
    | record _ _ => exact ih hn
    | add _ _ _ _ _ _ =>
      rcases getElem?_push_cases hn with hn | ⟨-, rfl⟩
      · exact ih hn
      · exact .inr rfl

end Level

/-- What holds of a tree whenever it is looked at: its nodes have grown from the root, those of the
same depth are not alike, and every outcome is that of its node. -/
structure Tree.Sound (m : Machine) (limits : Limits) (nodes : Array Node) (o : Outcomes) :
    Prop where
  grown : m.Grown nodes
  nodup : (keys nodes).Nodup
  size_le : nodes.size ≤ max 1 limits.maxConfigurations
  step_lt {n : Node} (h : n ∈ nodes) : n.entry.step < limits.depth
  outcomes {v : Verdict} {i : Nat} (h : o.first? v = some i) : ∃ n, nodes[i]? = some n ∧
    (m.step n.entry.configuration).ending = v ∧
      (v = .timeout → n.entry.step + 1 = limits.depth ∨ limits.maxConfigurations ≤ nodes.size)

/-- What holds of a level while the nodes of a depth are expanded. -/
structure Level.Sound (m : Machine) (limits : Limits) (depth : Nat) (l : Level) : Prop where
  tree : Tree.Sound m limits l.nodes l.outcomes
  step_le {n : Node} (h : n ∈ l.nodes) : n.entry.step ≤ depth + 1
  seen {a : Appearance} : a ∈ l.seen ↔ (depth + 1, a) ∈ Tree.keys l.nodes
  next {x : Nat × Configuration} : x ∈ l.next ↔ ∃ n, l.nodes[x.1]? = some n ∧
    n.entry.step = depth + 1 ∧ n.entry.configuration = x.2

namespace Level.Sound

theorem record (h : Sound m limits depth l) {i : Nat} {n : Node} (hn : l.nodes[i]? = some n)
    (cut : (m.step n.entry.configuration).ending = .timeout →
      n.entry.step + 1 = limits.depth ∨ limits.maxConfigurations ≤ l.nodes.size) :
    Sound m limits depth (l.record (m.step n.entry.configuration).ending i) := by
  refine ⟨⟨h.tree.grown, h.tree.nodup, h.tree.size_le, h.tree.step_lt, fun {v j} hv => ?_⟩,
    h.step_le, h.seen, h.next⟩
  rcases Outcomes.first?_record_eq_some hv with ho | ⟨-, rfl, rfl⟩
  · exact h.tree.outcomes ho
  · exact ⟨n, hn, rfl, cut⟩

theorem add (h : Sound m limits depth l) {i : Nat} {n : Node} {s : Successor}
    (hn : l.nodes[i]? = some n) (hd : n.entry.step = depth)
    (hs : s ∈ (m.step n.entry.configuration).successors) (deep : depth + 1 < limits.depth)
    (room : l.nodes.size < limits.maxConfigurations)
    (fresh : s.configuration.appearance ∉ l.seen) : Sound m limits depth (l.add i depth s) := by
  subst hd
  have hkey : (Node.key { parent := some i, entry := s.entry (n.entry.step + 1) }) =
      (n.entry.step + 1, s.configuration.appearance) := rfl
  refine ⟨⟨h.tree.grown.push hn hs, ?_, ?_, ?_, ?_⟩, ?_, ?_, ?_⟩
  · rw [nodes_add, Tree.keys_push, List.nodup_append, hkey]
    refine ⟨h.tree.nodup, by simp, ?_⟩
    rintro k hk _ hk' rfl
    obtain rfl := List.mem_singleton.mp hk'
    exact fresh (h.seen.mpr hk)
  · simp only [nodes_add, Array.size_push]
    omega
  · intro k hk
    rcases Array.mem_push.mp hk with hk | rfl
    · exact h.tree.step_lt hk
    · exact deep
  · intro v j hv
    obtain ⟨k, hk, hv, ht⟩ := h.tree.outcomes hv
    refine ⟨k, getElem?_push_of_getElem? _ hk, hv, fun he => (ht he).imp_right fun hc => ?_⟩
    simp only [nodes_add, Array.size_push]
    omega
  · intro k hk
    rcases Array.mem_push.mp hk with hk | rfl
    · exact h.step_le hk
    · exact Nat.le_refl _
  · intro a
    rw [seen_add, Std.HashSet.mem_insert, nodes_add, Tree.keys_push, List.mem_append, hkey, h.seen]
    simp only [beq_iff_eq, List.mem_singleton, Prod.mk.injEq, true_and]
    rw [or_comm, eq_comm]
  · rintro ⟨j, c⟩
    rw [next_add, List.mem_cons, h.next]
    constructor
    · rintro (he | ⟨k, hk, hks, hkc⟩)
      · obtain ⟨rfl, rfl⟩ := Prod.mk.inj he
        exact ⟨_, Array.getElem?_push_size, rfl, rfl⟩
      · exact ⟨k, getElem?_push_of_getElem? _ hk, hks, hkc⟩
    · rintro ⟨k, hk, hks, hkc⟩
      rcases getElem?_push_cases hk with hk | ⟨hj, rfl⟩
      · exact .inr ⟨k, hk, hks, hkc⟩
      · exact .inl (Prod.ext hj hkc.symm)

theorem changes (h : Sound m limits depth l) (hc : Changes m limits depth l l') :
    Sound m limits depth l' := by
  induction hc with
  | refl => exact h
  | tail _ hc ih =>
    cases hc with
    | record hn cut => exact ih.record hn cut
    | add hn hd hs deep room fresh => exact ih.add hn hd hs deep room fresh

end Level.Sound

namespace Level

variable {i : Nat} {n : Node} {successors : List Successor}

theorem changes_extend (hn : l.nodes[i]? = some n) (hd : n.entry.step = depth)
    (deep : depth + 1 < limits.depth)
    (hs : ∀ s ∈ successors, s ∈ (m.step n.entry.configuration).successors) {full : Bool}
    (he : extend limits.maxConfigurations i depth successors l = (l', full)) :
    Changes m limits depth l l' := by
  induction successors generalizing l with
  | nil =>
    obtain ⟨rfl, -⟩ := Prod.mk.inj he
    exact .refl
  | cons s rest ih =>
    obtain ⟨hs, hrest⟩ := List.forall_mem_cons.mp hs
    rw [extend] at he
    split_ifs at he with hcap hseen
    · obtain ⟨rfl, -⟩ := Prod.mk.inj he
      rw [← Step.ending_eq_timeout_iff.mpr (List.ne_nil_of_mem hs)]
      exact .single (.record hn fun _ => .inr hcap)
    · exact ih hn hrest he
    · have hc : Change m limits depth l (l.add i depth s) :=
        .add hn hd hs deep (Nat.lt_of_not_le hcap) (by simpa using hseen)
      exact .head hc (ih (hc.kept.nodes hn) hrest he)

/-- Where the tree was full, the node that was to be expanded is recorded as cut off. -/
theorem extend_full {cap : Nat} (h : extend cap i depth successors l = (l', true)) :
    (l'.outcomes.first? .timeout).isSome ∧ cap ≤ l'.nodes.size := by
  induction successors generalizing l with
  | nil => cases h
  | cons s rest ih =>
    rw [extend] at h
    split_ifs at h with hcap hseen
    · obtain ⟨rfl, -⟩ := Prod.mk.inj h
      exact ⟨l.outcomes.isSome_first?_record .timeout i, hcap⟩
    · exact ih h
    · exact ih h

/-- Where it was not, the next level has something alike to every successor. -/
theorem extend_grown (hn : l.nodes[i]? = some n) (hd : n.entry.step = depth)
    (deep : depth + 1 < limits.depth)
    (hs : ∀ s ∈ successors, s ∈ (m.step n.entry.configuration).successors)
    (h : extend limits.maxConfigurations i depth successors l = (l', false)) :
    ∀ s ∈ successors, s.configuration.appearance ∈ l'.seen := by
  induction successors generalizing l with
  | nil => simp
  | cons s rest ih =>
    obtain ⟨hs, hrest⟩ := List.forall_mem_cons.mp hs
    rw [extend] at h
    split_ifs at h with hcap hseen
    · cases h
    · have hk := (changes_extend hn hd deep hrest h).kept
      exact List.forall_mem_cons.mpr ⟨hk.seen (by simpa using hseen), ih hn hrest h⟩
    · have hn' : (l.add i depth s).nodes[i]? = some n := getElem?_push_of_getElem? _ hn
      have hk := (changes_extend hn' hd deep hrest h).kept
      exact List.forall_mem_cons.mpr ⟨hk.seen (by simp), ih hn' hrest h⟩

end Level

@[simp] theorem Machine.expandLevel_nil (m : Machine) (cap depth : Nat) (last : Bool) (l : Level) :
    m.expandLevel cap depth last [] l = (l, none) := rfl

/-- The expansion of a level decides at each node by what follows its configuration. -/
theorem Machine.expandLevel_cons (m : Machine) (cap depth : Nat) (last : Bool) (i : Nat)
    (c : Configuration) (rest : List (Nat × Configuration)) (l : Level) :
    m.expandLevel cap depth last ((i, c) :: rest) l =
      if m.step c = .halt .accept then (l.record .accepted i, some .accepted)
      else if (m.step c).successors = [] then
        m.expandLevel cap depth last rest (l.record (m.step c).verdict i)
      else if last = true then m.expandLevel cap depth last rest (l.record .timeout i)
      else if (l.extend cap i depth (m.step c).successors).2 = true then
        ((l.extend cap i depth (m.step c).successors).1, some .capped)
      else m.expandLevel cap depth last rest (l.extend cap i depth (m.step c).successors).1 := by
  rw [expandLevel]
  split
  · rename_i h
    rw [if_pos h]
  · rename_i h
    rw [if_neg h]
    split
    · rename_i hs
      rw [if_pos hs]
    · rename_i hs
      rw [if_neg hs]
      split_ifs with hl he
      · rfl
      · split <;> simp_all
      · split <;> simp_all

/-- The expansion of the nodes of a depth, case by case: what is left to expand, the level before
and the outcome. -/
inductive Machine.Expands (m : Machine) (limits : Limits) (depth : Nat) :
    List (Nat × Configuration) → Level → Level × Option Stop → Prop where
  | done {l : Level} : Expands m limits depth [] l (l, none)
  | accepts {i : Nat} {c : Configuration} {rest : List (Nat × Configuration)} {l : Level}
      (h : m.step c = .halt .accept) :
      Expands m limits depth ((i, c) :: rest) l (l.record .accepted i, some .accepted)
  | ends {i : Nat} {c : Configuration} {rest : List (Nat × Configuration)} {l : Level}
      {r : Level × Option Stop} (cut : (m.step c).successors ≠ [] → depth + 1 = limits.depth)
      (h : Expands m limits depth rest (l.record (m.step c).ending i) r) :
      Expands m limits depth ((i, c) :: rest) l r
  | full {i : Nat} {c : Configuration} {rest : List (Nat × Configuration)} {l l' : Level}
      (deep : depth + 1 < limits.depth)
      (h : l.extend limits.maxConfigurations i depth (m.step c).successors = (l', true)) :
      Expands m limits depth ((i, c) :: rest) l (l', some .capped)
  | grows {i : Nat} {c : Configuration} {rest : List (Nat × Configuration)} {l l' : Level}
      {r : Level × Option Stop} (deep : depth + 1 < limits.depth)
      (more : (m.step c).successors ≠ [])
      (he : l.extend limits.maxConfigurations i depth (m.step c).successors = (l', false))
      (h : Expands m limits depth rest l' r) : Expands m limits depth ((i, c) :: rest) l r

/-- Every expansion is one of the cases. -/
theorem Machine.expands_expandLevel (m : Machine) (hd : depth + 1 ≤ limits.depth) {last : Bool}
    (hl : last = true ↔ depth + 1 = limits.depth) (frontier : List (Nat × Configuration))
    (l : Level) : m.Expands limits depth frontier l
      (m.expandLevel limits.maxConfigurations depth last frontier l) := by
  induction frontier generalizing l with
  | nil => exact .done
  | cons x rest ih =>
    obtain ⟨i, c⟩ := x
    have hdeep (hlast : ¬ last = true) : depth + 1 < limits.depth :=
      Nat.lt_of_le_of_ne hd fun h => hlast (hl.mpr h)
    rw [expandLevel_cons]
    split_ifs with ha hs hlast hfull
    · exact .accepts ha
    · rw [← Step.ending_of_successors_eq_nil hs]
      exact .ends (fun h => absurd hs h) (ih _)
    · rw [← Step.ending_eq_timeout_iff.mpr hs]
      exact .ends (fun _ => hl.mp hlast) (ih _)
    · exact .full (hdeep hlast) (Prod.ext rfl hfull)
    · exact .grows (hdeep hlast) hs (Prod.ext rfl (Bool.eq_false_iff.mpr hfull)) (ih _)

/-- The nodes of a list have the given depth and configurations. -/
def Level.At (l : Level) (depth : Nat) (frontier : List (Nat × Configuration)) : Prop :=
  ∀ x ∈ frontier, ∃ n, l.nodes[x.1]? = some n ∧ n.entry.step = depth ∧ n.entry.configuration = x.2

theorem Level.At.kept {frontier : List (Nat × Configuration)} (h : l.At depth frontier)
    (hk : Kept l l') : l'.At depth frontier := by
  intro x hx
  obtain ⟨n, hn, h⟩ := h x hx
  exact ⟨n, hk.nodes hn, h⟩

namespace Machine.Expands

variable {frontier : List (Nat × Configuration)} {r : Level × Option Stop}

/-- Expanding the nodes of a depth is a number of changes. -/
theorem changes (h : m.Expands limits depth frontier l r) (ha : l.At depth frontier) :
    Level.Changes m limits depth l r.1 := by
  induction h with
  | done => exact .refl
  | @accepts i c rest l h =>
    obtain ⟨⟨n, hn, hd, rfl⟩, -⟩ := List.forall_mem_cons.mp ha
    rw [← Step.ending_eq_accepted_iff.mpr h]
    exact .single (.record hn fun ht => by simp [h, Step.ending, Halt.verdict] at ht)
  | @ends i c rest l r cut h ih =>
    obtain ⟨⟨n, hn, hd, rfl⟩, hrest⟩ := List.forall_mem_cons.mp ha
    have hc : Level.Change m limits depth l
        (l.record (m.step n.entry.configuration).ending i) :=
      .record hn fun ht => .inl (by rw [hd]; exact cut (Step.ending_eq_timeout_iff.mp ht))
    exact .head hc (ih (Level.At.kept hrest hc.kept))
  | @full i c rest l l' deep h =>
    obtain ⟨⟨n, hn, hd, rfl⟩, -⟩ := List.forall_mem_cons.mp ha
    exact Level.changes_extend hn hd deep (fun _ hs => hs) h
  | @grows i c rest l l' r deep more he h ih =>
    obtain ⟨⟨n, hn, hd, rfl⟩, hrest⟩ := List.forall_mem_cons.mp ha
    have hc := Level.changes_extend hn hd deep (fun _ hs => hs) he
    exact hc.trans (ih (Level.At.kept hrest hc.kept))

/-- An expansion that an accepting node ends has recorded one. -/
theorem isSome_accepted (h : m.Expands limits depth frontier l r) (hr : r.2 = some .accepted) :
    (r.1.outcomes.first? .accepted).isSome := by
  induction h with
  | done => cases hr
  | @accepts i c rest l h => exact l.outcomes.isSome_first?_record .accepted i
  | ends cut h ih => exact ih hr
  | full deep h => cases hr
  | grows deep more he h ih => exact ih hr

/-- An expansion that a full tree ends has recorded a branch that was cut off. -/
theorem isSome_timeout (h : m.Expands limits depth frontier l r) (hr : r.2 = some .capped) :
    (r.1.outcomes.first? .timeout).isSome ∧ limits.maxConfigurations ≤ r.1.nodes.size := by
  induction h with
  | done => cases hr
  | accepts h => cases hr
  | ends cut h ih => exact ih hr
  | full deep h => exact Level.extend_full h
  | grows deep more he h ih => exact ih hr

/-- After a complete expansion the outcome of every branch that ends is recorded, and every other
node has all its successors, up to alike ones, on the next level. -/
theorem accounted (h : m.Expands limits depth frontier l r) (ha : l.At depth frontier)
    (hr : r.2 = none) : ∀ x ∈ frontier,
      (((m.step x.2).ending = .timeout → depth + 1 = limits.depth) →
        (r.1.outcomes.first? (m.step x.2).ending).isSome) ∧
      (depth + 1 < limits.depth →
        ∀ s ∈ (m.step x.2).successors, s.configuration.appearance ∈ r.1.seen) := by
  induction h with
  | done => simp
  | accepts h => cases hr
  | full deep h => cases hr
  | @ends i c rest l r cut h ih =>
    obtain ⟨⟨n, hn, hd, rfl⟩, hrest⟩ := List.forall_mem_cons.mp ha
    have hrest : (l.record (m.step n.entry.configuration).ending i).At depth rest := hrest
    refine List.forall_mem_cons.mpr ⟨⟨fun _ => ?_, fun deep s hs => ?_⟩, ih hrest hr⟩
    · exact (h.changes hrest).kept.isSome (l.outcomes.isSome_first?_record _ i)
    · have := cut (List.ne_nil_of_mem hs)
      omega
  | @grows i c rest l l' r deep more he h ih =>
    obtain ⟨⟨n, hn, hd, rfl⟩, hrest⟩ := List.forall_mem_cons.mp ha
    have hc := Level.changes_extend hn hd deep (fun _ hs => hs) he
    have hrest := Level.At.kept hrest hc.kept
    refine List.forall_mem_cons.mpr ⟨⟨fun ht => ?_, fun _ s hs => ?_⟩, ih hrest hr⟩
    · have := ht (Step.ending_eq_timeout_iff.mpr more)
      omega
    · exact (h.changes hrest).kept.seen (Level.extend_grown hn hd deep (fun _ hs => hs) he s hs)

end Machine.Expands

end TapeMachine
