import Std.Data.HashSet
import TapeMachine.Machine

/-!
# Exploring every computation

The configurations that a machine can reach form a tree. `Machine.explore` builds it level by level,
so the first accepting configuration that it meets ends a shortest accepting computation. Alike
configurations of one level have alike futures, and only the first of them becomes a node. A branch
ends where it halts, where its path is as long as the limits allow, or where the tree has as many
nodes as the limits allow. `Outcomes.decide` combines the ends of all branches into one verdict.
-/

namespace TapeMachine

/-- A node of the tree. Nodes are numbered in the order in which they are created. -/
structure Node where
  /-- The number of the node that this one follows; the root has none. -/
  parent : Option Nat
  entry : TraceEntry
  deriving DecidableEq, Inhabited

/-- For each verdict the first node at which a branch ended with it. -/
structure Outcomes where
  accepted : Option Nat := none
  timeout : Option Nat := none
  rejected : Option Nat := none
  halted : Option Nat := none
  deriving DecidableEq, Inhabited

namespace Outcomes

def record (o : Outcomes) (verdict : Verdict) (node : Nat) : Outcomes :=
  match verdict with
  | .accepted => { o with accepted := o.accepted <|> some node }
  | .timeout => { o with timeout := o.timeout <|> some node }
  | .rejected => { o with rejected := o.rejected <|> some node }
  | .haltedNonFinal => { o with halted := o.halted <|> some node }

/-- The verdict on the whole tree with the node that decided it. Accepting beats everything; a
branch that was cut off beats rejecting, because it may have gone on forever. -/
def decide (o : Outcomes) : Option (Verdict × Nat) :=
  o.accepted.map (.accepted, ·) <|> o.timeout.map (.timeout, ·) <|>
    o.rejected.map (.rejected, ·) <|> o.halted.map (.haltedNonFinal, ·)

end Outcomes

/-- The tree while one of its levels is expanded. -/
structure Level where
  nodes : Array Node
  outcomes : Outcomes
  seen : Std.HashSet Appearance := ∅
  /-- The nodes of the next level with their configurations, the latest first. -/
  next : List (Nat × Configuration) := []

namespace Level

def record (l : Level) (verdict : Verdict) (node : Nat) : Level :=
  { l with outcomes := l.outcomes.record verdict node }

def add (l : Level) (parent depth : Nat) (s : Successor) : Level :=
  let entry : TraceEntry :=
    { step := depth + 1, transition := some s.transition, configuration := s.configuration }
  let index := l.nodes.size
  { l with
    nodes := l.nodes.push { parent := some parent, entry }
    seen := l.seen.insert s.configuration.appearance
    next := (index, s.configuration) :: l.next }

/-- Adds the successors of a node to the next level, except those that are alike to one that is
there already. Answers whether the tree was full before a successor could be looked at. -/
def extend (cap parent depth : Nat) : List Successor → Level → Level × Bool
  | [], l => (l, false)
  | s :: rest, l =>
    if cap ≤ l.nodes.size then (l.record .timeout parent, true)
    else if l.seen.contains s.configuration.appearance then extend cap parent depth rest l
    else extend cap parent depth rest (l.add parent depth s)

end Level

inductive Stop where
  | accepted
  | capped
  deriving DecidableEq

/-- The tree once it is not expanded any further. -/
structure Tree where
  nodes : Array Node
  outcomes : Outcomes
  stop : Option Stop

namespace Tree

/-- The numbers of the nodes from a node up to the root, at most as many as given. -/
def chain (nodes : Array Node) : Nat → Nat → List Nat
  | 0, _ => []
  | length + 1, index =>
    index :: match nodes[index]?.bind (·.parent) with
      | none => []
      | some parent => chain nodes length parent

/-- Takes a node out of the array; the last node moves into its place. -/
def takeOut (nodes : Array Node) (index : Nat) : Option Node × Array Node :=
  if h : index < nodes.size then
    (some nodes[index], (nodes.swap index (nodes.size - 1)).pop)
  else (none, nodes)

/-- Takes nodes out one after the other and lists their entries, the last one first. -/
def takeEntries : List Nat → Array Node → List TraceEntry → List TraceEntry
  | [], _, entries => entries
  | index :: rest, nodes, entries =>
    let (node, nodes) := takeOut nodes index
    takeEntries rest nodes (node.elim entries fun n => n.entry :: entries)

/-- The entries from the root to a node. A parent has a smaller number than its child, so taking
out the nodes from the target upwards never moves one that is still needed. -/
def pathTo (nodes : Array Node) (target : Nat) : List TraceEntry :=
  takeEntries (chain nodes (target + 1) target) nodes []

/-- The numbers of the nodes from a node up to the root. There is no answer where the way up leads
out of the array, nor where it does not end after as many nodes as given. -/
def chain? (nodes : Array Node) : Nat → Option Nat → Option (List Nat)
  | _, none => some []
  | 0, some _ => none
  | bound + 1, some index =>
    nodes[index]?.bind fun node => (chain? nodes bound node.parent).map (index :: ·)

/-- Takes nodes out one after the other and lists them, with the array that is left. There is no
answer where one of them is not in the array any more. -/
def takeEach? : List Nat → Array Node → Option (List Node × Array Node)
  | [], nodes => some ([], nodes)
  | index :: rest, nodes =>
    match takeOut nodes index with
    | (none, _) => none
    | (some node, nodes) => (takeEach? rest nodes).map fun r => (node :: r.1, r.2)

/-- The entries from the root to a node, where every node on the way up is looked for. Where parents
come before their children there is an answer with every bound beyond the node, so that `pathTo` can
do without looking. -/
def pathTo? (nodes : Array Node) (bound target : Nat) : Option (List TraceEntry) :=
  (chain? nodes bound (some target)).bind fun indices =>
    (takeEach? indices nodes).map fun taken => (taken.1.map (·.entry)).reverse

end Tree

structure Exploration where
  verdict : Verdict
  path : List TraceEntry
  explored : Nat
  /-- Whether the limit on that number ended the exploration. -/
  capped : Bool
  deriving DecidableEq

def Exploration.run (e : Exploration) : Run :=
  { verdict := e.verdict, trace := ⟨e.path⟩, explored := e.explored }

namespace Machine

def startEntry (m : Machine) : TraceEntry :=
  { step := 0, transition := none, configuration := m.start }

/-- Expands the nodes of a level in turn, unless one of them accepts or the tree is full. The nodes
of the last level are cut off instead of expanded. -/
def expandLevel (m : Machine) (cap depth : Nat) (last : Bool) :
    List (Nat × Configuration) → Level → Level × Option Stop
  | [], l => (l, none)
  | (index, c) :: rest, l =>
    match m.step c with
    | .halt .accept => (l.record .accepted index, some .accepted)
    | step =>
      match step.successors with
      | [] => expandLevel m cap depth last rest (l.record step.verdict index)
      | successors =>
        if last then expandLevel m cap depth last rest (l.record .timeout index)
        else match l.extend cap index depth successors with
          | (l, true) => (l, some .capped)
          | (l, false) => expandLevel m cap depth last rest l

/-- Expands at most the given number of levels, as long as there are nodes to expand. -/
def expandLevels (m : Machine) (cap : Nat) :
    Nat → Nat → List (Nat × Configuration) → Array Node → Outcomes → Tree
  | 0, _, _, nodes, outcomes => { nodes, outcomes, stop := none }
  | _ + 1, _, [], nodes, outcomes => { nodes, outcomes, stop := none }
  | room + 1, depth, frontier, nodes, outcomes =>
    match m.expandLevel cap depth (room == 0) frontier { nodes, outcomes } with
    | (l, some stop) => { nodes := l.nodes, outcomes := l.outcomes, stop := some stop }
    | (l, none) => expandLevels m cap room (depth + 1) l.next.reverse l.nodes l.outcomes

def tree (m : Machine) (limits : Limits) : Tree :=
  m.expandLevels limits.maxConfigurations limits.depth 0 [(0, m.start)]
    #[{ parent := none, entry := m.startEntry }] {}

def firstAccepting? (m : Machine) (nodes : Array Node) : Option Nat :=
  nodes.findIdx? fun node => m.haltingState? node.entry.configuration.state = some .accept

/-- How the branches of a tree ended. In a tree that is full, nodes that were created and not
expanded may accept too. -/
def settle (m : Machine) (t : Tree) : Outcomes :=
  match t.stop with
  | some .capped => { t.outcomes with
      accepted := t.outcomes.accepted <|> m.firstAccepting? t.nodes }
  | _ => t.outcomes

/-- Explores every computation of the machine within the limits. -/
def explore (m : Machine) (limits : Limits) : Exploration :=
  let t := m.tree limits
  let (verdict, target) := (m.settle t).decide.getD (.timeout, 0)
  { verdict
    path := Tree.pathTo t.nodes target
    explored := t.nodes.size
    capped := t.stop = some .capped }

end Machine

end TapeMachine
