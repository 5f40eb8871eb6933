import TapeMachine.Proofs.RecordedTrace
import TapeMachine.Proofs.TreePath

/-!
# Growth of the tree

An array of nodes is `Grown` when it starts with the root and every other node was added as a
successor of one that was there. Then parents come before their children, and the lineage of a node
records a computation of the machine that ends at the node and is as long as the node is deep.
-/

namespace TapeMachine

/-- What tells nodes apart: their depth and what their configurations show. -/
def Node.key (n : Node) : Nat × Appearance := (n.entry.step, n.entry.configuration.appearance)

def Tree.keys (nodes : Array Node) : List (Nat × Appearance) := nodes.toList.map Node.key

theorem Tree.mem_keys {nodes : Array Node} {k : Nat × Appearance} :
    k ∈ keys nodes ↔ ∃ n ∈ nodes, n.key = k := by
  simp [keys]

@[simp] theorem Tree.keys_push (nodes : Array Node) (n : Node) :
    keys (nodes.push n) = keys nodes ++ [n.key] := by
  simp [keys]

theorem getElem?_push_of_getElem? {nodes : Array Node} {i : Nat} {n : Node} (new : Node)
    (h : nodes[i]? = some n) : (nodes.push new)[i]? = some n := by
  obtain ⟨hi, he⟩ := Array.getElem?_eq_some_iff.mp h
  rw [Array.getElem?_push_lt hi, he]

/-- A node of a longer array is an old one or the new one. -/
theorem getElem?_push_cases {nodes : Array Node} {i : Nat} {n new : Node}
    (h : (nodes.push new)[i]? = some n) :
    nodes[i]? = some n ∨ i = nodes.size ∧ n = new := by
  rw [Array.getElem?_push] at h
  split_ifs at h with hi
  · exact .inr ⟨hi, (Option.some.inj h).symm⟩
  · exact .inl h

/-- The first node at which a branch ended with a verdict. -/
def Outcomes.first? (o : Outcomes) : Verdict → Option Nat
  | .accepted => o.accepted
  | .timeout => o.timeout
  | .rejected => o.rejected
  | .haltedNonFinal => o.halted

theorem Outcomes.first?_record (o : Outcomes) (v w : Verdict) (i : Nat) :
    (o.record v i).first? w = if v = w then o.first? w <|> some i else o.first? w := by
  cases v <;> cases w <;> rfl

/-- A recorded outcome was there before, or is the new one where there was none. -/
theorem Outcomes.first?_record_eq_some {o : Outcomes} {v w : Verdict} {i j : Nat}
    (h : (o.record v i).first? w = some j) :
    o.first? w = some j ∨ o.first? w = none ∧ v = w ∧ i = j := by
  rw [first?_record] at h
  split_ifs at h with he
  · cases ho : o.first? w with
    | some k => exact .inl (by simpa [ho] using h)
    | none => exact .inr ⟨rfl, he, by simpa [ho] using h⟩
  · exact .inl h

theorem Outcomes.isSome_first?_record (o : Outcomes) (v : Verdict) (i : Nat) :
    ((o.record v i).first? v).isSome := by
  rw [first?_record, if_pos rfl]
  cases o.first? v <;> rfl

theorem Outcomes.isSome_first?_record_of_isSome {o : Outcomes} {w : Verdict} (v : Verdict) (i : Nat)
    (h : (o.first? w).isSome) : ((o.record v i).first? w).isSome := by
  obtain ⟨j, hj⟩ := Option.isSome_iff_exists.mp h
  rw [first?_record, hj]
  split_ifs <;> rfl

namespace Machine

/-- The array has grown from the root by adding successors of nodes that were there. -/
inductive Grown (m : Machine) : Array Node → Prop where
  | root : Grown m #[{ parent := none, entry := m.startEntry }]
  | push {nodes : Array Node} {i : Nat} {n : Node} {s : Successor} (h : Grown m nodes)
      (hn : nodes[i]? = some n) (hs : s ∈ (m.step n.entry.configuration).successors) :
      Grown m (nodes.push { parent := some i, entry := s.entry (n.entry.step + 1) })

namespace Grown

variable {m : Machine} {nodes : Array Node}

theorem getElem?_zero (h : m.Grown nodes) :
    nodes[0]? = some { parent := none, entry := m.startEntry } := by
  induction h with
  | root => rfl
  | push h hn hs ih => exact getElem?_push_of_getElem? _ ih

theorem ordered (h : m.Grown nodes) : Tree.Ordered nodes := by
  induction h with
  | root =>
    intro i n p hn hp
    obtain ⟨hi, rfl⟩ := Array.getElem?_eq_some_iff.mp hn
    simp at hp
  | @push nodes i n s h hn hs ih =>
    intro j k p hk hp
    rcases getElem?_push_cases hk with hk | ⟨rfl, rfl⟩
    · exact ih j k p hk hp
    · cases hp
      exact (Array.getElem?_eq_some_iff.mp hn).1

/-- A node is the root or a successor of its parent. -/
theorem parent_cases (h : m.Grown nodes) {i : Nat} {n : Node} (hn : nodes[i]? = some n) :
    n = { parent := none, entry := m.startEntry } ∨
      ∃ p parent, nodes[p]? = some parent ∧
        ∃ s ∈ (m.step parent.entry.configuration).successors,
          n = { parent := some p, entry := s.entry (parent.entry.step + 1) } := by
  induction h with
  | root =>
    obtain ⟨hi, rfl⟩ := Array.getElem?_eq_some_iff.mp hn
    simp
  | @push nodes j k s h hk hs ih =>
    rcases getElem?_push_cases hn with hn | ⟨rfl, rfl⟩
    · rcases ih hn with hroot | ⟨p, parent, hp, hs⟩
      · exact .inl hroot
      · exact .inr ⟨p, parent, getElem?_push_of_getElem? _ hp, hs⟩
    · exact .inr ⟨j, k, getElem?_push_of_getElem? _ hk, s, hs, rfl⟩

/-- Every node lies at the end of a computation that is as long as the node is deep. -/
theorem reaches (h : m.Grown nodes) {n : Node} (hn : n ∈ nodes) :
    m.Reaches n.entry.step n.entry.configuration := by
  induction h generalizing n with
  | root =>
    obtain rfl := List.mem_singleton.mp (Array.mem_def.mp hn)
    exact .start
  | @push nodes i p s h hp hs ih =>
    rcases Array.mem_push.mp hn with hn | rfl
    · exact ih hn
    · exact (ih (Array.mem_of_getElem? hp)).next hs

/-- The lineage of a node records a computation that ends there. -/
theorem records (h : m.Grown nodes) {i : Nat} {entries : List TraceEntry}
    (hl : Tree.Lineage nodes i entries) : ∃ n, nodes[i]? = some n ∧
      m.Records entries n.entry.configuration ∧ entries.length = n.entry.step + 1 := by
  induction hl with
  | @root i n hn hp =>
    refine ⟨n, hn, ?_⟩
    rcases h.parent_cases hn with rfl | ⟨_, _, _, _, _, rfl⟩
    · exact ⟨.start, rfl⟩
    · cases hp
  | @child i p n entries hn hp hl ih =>
    refine ⟨n, hn, ?_⟩
    obtain ⟨parent, hparent, hr, hlen⟩ := ih
    rcases h.parent_cases hn with rfl | ⟨q, other, hq, s, hs, rfl⟩
    · cases hp
    · cases hp
      obtain rfl := Option.some.inj (hparent.symm.trans hq)
      rw [← hlen]
      exact ⟨hr.next hs, by simp [Successor.entry]⟩

end Grown

end Machine

end TapeMachine
