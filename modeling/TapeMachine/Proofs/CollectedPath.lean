import TapeMachine.Proofs.DecidedVerdict

/-!
# Collecting the path to a node

Where parents come before their children, the walk up from a node ends by itself, and no node is
looked for outside the array, although the last node takes the place of each one that is taken out.
What is collected are the entries of the nodes from the root to the given one. The tree of an
exploration always is such an array.
-/

namespace TapeMachine

/-- The way up from the node that decided an exploration comes to the root, and all of its nodes are
found. -/
theorem Machine.pathTo?_tree (m : Machine) (limits : Limits) : ∃ i,
    (m.settle (m.tree limits)).decide = some ((m.explore limits).verdict, i) ∧
      i < (m.tree limits).nodes.size ∧
      ∀ bound, i < bound →
        Tree.pathTo? (m.tree limits).nodes bound i = some (m.explore limits).path := by
  have ho := (m.explored_tree limits).sound.grown.ordered
  obtain ⟨i, n, hd, hn, -, hl⟩ := m.explore_decided limits
  have hi := (Array.getElem?_eq_some_iff.mp hn).1
  obtain ⟨way, hway⟩ := Tree.exists_ascent ho hi
  rw [hl.unique hway.lineage]
  exact ⟨i, hd, hi, fun _ hb => hway.pathTo?_eq ho hb⟩

namespace Tree

/-- Wherever parents come before their children, the walk up from a node ends at the root by itself,
every node on the way is still in its place when it is taken out and the last node moves there, and
what is collected are the entries from the root to the node. The tree of every exploration is
ordered so, and its path is collected from the node that decided it. -/
theorem path_collected :
    (∀ (nodes : Array Node) (target : Nat), Ordered nodes → target < nodes.size →
      ∃ way, Ascent nodes target way ∧ way.length ≤ target + 1 ∧
        (∀ before i n after, way = before ++ (i, n) :: after → ∃ left,
          takeEach? (before.map Prod.fst) nodes = some (before.map Prod.snd, left) ∧
          Removal nodes left i n) ∧
        (∀ bound, target < bound →
          chain? nodes bound (some target) = some (way.map Prod.fst) ∧
          pathTo? nodes bound target = some (way.reverse.map (·.2.entry))) ∧
        pathTo nodes target = way.reverse.map (·.2.entry)) ∧
    ∀ (m : Machine) (limits : Limits), Ordered (m.tree limits).nodes ∧
      ∃ target, (m.settle (m.tree limits)).decide = some ((m.explore limits).verdict, target) ∧
        target < (m.tree limits).nodes.size ∧
        ∀ bound, target < bound →
          pathTo? (m.tree limits).nodes bound target = some (m.explore limits).path := by
  refine ⟨fun nodes target ho htarget => ?_, fun m limits => ?_⟩
  · obtain ⟨way, hway⟩ := exists_ascent ho htarget
    have hle : way.length ≤ target + 1 := hway.length_le ho
    refine ⟨way, hway, hle, fun before i n after hsplit => hway.removal ho hsplit,
      fun bound hb => ⟨?_, hway.pathTo?_eq ho hb⟩, hway.pathTo_eq ho⟩
    exact chain?_eq_some_iff.mpr ⟨way, hway, Nat.le_trans hle hb, rfl⟩
  · exact ⟨(m.explored_tree limits).sound.grown.ordered, m.pathTo?_tree limits⟩

/-- A node whose entry tells where the head is. -/
def headNode (parent : Option Nat) (step : Nat) (head : Int) : Node where
  parent
  entry := { step, transition := none, configuration := { (default : Configuration) with head } }

/-- A root with two children and one more node below each of them. -/
def twoBranches : Array Node :=
  #[headNode none 0 0, headNode (some 0) 1 1, headNode (some 0) 1 2, headNode (some 1) 2 3,
    headNode (some 2) 2 4]

/-- The nodes of one branch are taken out while those of the other one move between them. -/
theorem path_collected_twoBranches :
    Ordered twoBranches ∧ 3 < twoBranches.size ∧ 4 < twoBranches.size ∧
    pathTo? twoBranches 4 3 = some [(headNode none 0 0).entry, (headNode (some 0) 1 1).entry,
      (headNode (some 1) 2 3).entry] ∧
    pathTo? twoBranches 5 4 = some [(headNode none 0 0).entry, (headNode (some 0) 1 2).entry,
      (headNode (some 2) 2 4).entry] := by
  have ho : Ordered twoBranches := by
    have hall : ∀ i : Fin twoBranches.size, ∀ p ∈ twoBranches[i].parent, p < i := by decide
    intro i n p hn hp
    obtain ⟨hi, rfl⟩ := Array.getElem?_eq_some_iff.mp hn
    exact hall ⟨i, hi⟩ p hp
  obtain ⟨_, -, -, -, hthree, hthree'⟩ := path_collected.1 twoBranches 3 ho (by decide)
  obtain ⟨_, -, -, -, hfour, hfour'⟩ := path_collected.1 twoBranches 4 ho (by decide)
  refine ⟨ho, by decide, by decide, ?_, ?_⟩
  · rw [(hthree 4 (by decide)).2, ← hthree']
    rfl
  · rw [(hfour 5 (by decide)).2, ← hfour']
    rfl

/-- Where a parent comes behind its child the walk up ends, too, but the parent has moved by the
time it is taken out. -/
example :
    let nodes : Array Node := #[{ (default : Node) with parent := some 1 }, default]
    chain? nodes 2 (some 0) = some [0, 1] ∧ pathTo? nodes 2 0 = none := by
  decide

end Tree

end TapeMachine
