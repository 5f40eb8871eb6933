import TapeMachine.Exploration

/-!
# The path to a node

Where every parent has a smaller number than its children, the way up from a node comes to the root,
and `pathTo` lists exactly the entries from the root to the node. It takes nodes out of the array
from the target upwards, and what moves into an emptied place never lies before it: no node that is
still to be taken is moved, and every one is found.
-/

namespace TapeMachine.Tree

/-- Every parent comes before its children. -/
def Ordered (nodes : Array Node) : Prop :=
  ∀ (i : Nat) (n : Node) (p : Nat), nodes[i]? = some n → n.parent = some p → p < i

/-- The entries on the way from the root to a node. -/
inductive Lineage (nodes : Array Node) : Nat → List TraceEntry → Prop where
  | root {i : Nat} {n : Node} (hn : nodes[i]? = some n) (hp : n.parent = none) :
      Lineage nodes i [n.entry]
  | child {i p : Nat} {n : Node} {entries : List TraceEntry} (hn : nodes[i]? = some n)
      (hp : n.parent = some p) (h : Lineage nodes p entries) :
      Lineage nodes i (entries ++ [n.entry])

/-- The nodes on the way up from a node to the root, with their numbers. -/
inductive Ascent (nodes : Array Node) : Nat → List (Nat × Node) → Prop where
  | root {i : Nat} {n : Node} (hn : nodes[i]? = some n) (hp : n.parent = none) :
      Ascent nodes i [(i, n)]
  | child {i p : Nat} {n : Node} {way : List (Nat × Node)} (hn : nodes[i]? = some n)
      (hp : n.parent = some p) (h : Ascent nodes p way) : Ascent nodes i ((i, n) :: way)

/-- A node is taken out of what is left of an array: it is there, it and all nodes before it stand
where they stood at first, and the last node moves into its place. -/
structure Removal (nodes left : Array Node) (i : Nat) (n : Node) : Prop where
  lt_size : i < left.size
  same : ∀ j ≤ i, left[j]? = nodes[j]?
  taken : (takeOut left i).1 = some n
  filled : ∀ j, (takeOut left i).2[j]? =
    if j + 1 < left.size then left[if j = i then left.size - 1 else j]? else none

/-- The second array begins with the nodes of the first one. -/
def Begins (nodes nodes' : Array Node) : Prop :=
  ∀ (i : Nat) (n : Node), nodes[i]? = some n → nodes'[i]? = some n

variable {nodes nodes' : Array Node}

theorem Begins.trans {nodes'' : Array Node} (h : Begins nodes nodes') (h' : Begins nodes' nodes'') :
    Begins nodes nodes'' :=
  fun i n hn => h' i n (h i n hn)

theorem Lineage.begins {i : Nat} {entries : List TraceEntry} (h : Lineage nodes i entries)
    (hb : Begins nodes nodes') : Lineage nodes' i entries := by
  induction h with
  | root hn hp => exact .root (hb _ _ hn) hp
  | child hn hp _ ih => exact .child (hb _ _ hn) hp ih

/-- A node is on one way only from the root. -/
theorem Lineage.unique {i : Nat} {entries entries' : List TraceEntry}
    (h : Lineage nodes i entries) (h' : Lineage nodes i entries') : entries = entries' := by
  induction h generalizing entries' with
  | root hn hp =>
    cases h' with
    | root hn' hp' => rw [Option.some.inj (hn.symm.trans hn')]
    | child hn' hp' h' =>
      rw [← Option.some.inj (hn.symm.trans hn'), hp] at hp'
      cases hp'
  | child hn hp h ih =>
    cases h' with
    | root hn' hp' =>
      rw [← Option.some.inj (hn.symm.trans hn'), hp] at hp'
      cases hp'
    | child hn' hp' h' =>
      obtain rfl := Option.some.inj (hn.symm.trans hn')
      obtain rfl := Option.some.inj (hp.symm.trans hp')
      rw [ih h']

/-- The way from the root to a node has no more nodes than there are up to it. -/
theorem Lineage.length_le (ho : Ordered nodes) {i : Nat} {entries : List TraceEntry}
    (h : Lineage nodes i entries) : entries.length ≤ i + 1 := by
  induction h with
  | root hn hp => simp
  | child hn hp h ih =>
    have := ho _ _ _ hn hp
    simp only [List.length_append, List.length_singleton]
    omega

/-- Where parents come before their children the way up from a node comes to a root. -/
theorem exists_ascent (ho : Ordered nodes) {i : Nat} (hi : i < nodes.size) :
    ∃ way, Ascent nodes i way := by
  induction i using Nat.strongRecOn with
  | ind i ih =>
    have hn := Array.getElem?_eq_getElem hi
    cases hp : nodes[i].parent with
    | none => exact ⟨_, .root hn hp⟩
    | some p =>
      have hlt : p < i := ho i _ p hn hp
      obtain ⟨way, hway⟩ := ih p hlt (Nat.lt_trans hlt hi)
      exact ⟨_, .child hn hp hway⟩

namespace Ascent

variable {i : Nat} {way : List (Nat × Node)}

theorem lineage (h : Ascent nodes i way) : Lineage nodes i (way.reverse.map (·.2.entry)) := by
  induction h with
  | root hn hp => exact .root hn hp
  | child hn hp _ ih =>
    rw [List.reverse_cons, List.map_append]
    exact .child hn hp ih

private theorem getElem? (h : Ascent nodes i way) : ∀ x ∈ way, nodes[x.1]? = some x.2 := by
  induction h with
  | root hn hp => exact List.forall_mem_singleton.mpr hn
  | child hn hp _ ih => exact List.forall_mem_cons.mpr ⟨hn, ih⟩

theorem le (ho : Ordered nodes) (h : Ascent nodes i way) : ∀ x ∈ way, x.1 ≤ i := by
  induction h with
  | root hn hp => exact List.forall_mem_singleton.mpr (Nat.le_refl _)
  | child hn hp _ ih =>
    have hlt := ho _ _ _ hn hp
    exact List.forall_mem_cons.mpr
      ⟨Nat.le_refl _, fun x hx => Nat.le_of_lt (Nat.lt_of_le_of_lt (ih x hx) hlt)⟩

/-- On the way up the numbers become smaller. -/
theorem descending (ho : Ordered nodes) (h : Ascent nodes i way) :
    (way.map Prod.fst).Pairwise (· > ·) := by
  induction h with
  | root hn hp => exact List.pairwise_singleton _ _
  | child hn hp h ih =>
    refine List.pairwise_cons.mpr ⟨fun j hj => ?_, ih⟩
    obtain ⟨x, hx, rfl⟩ := List.mem_map.mp hj
    exact Nat.lt_of_le_of_lt (h.le ho x hx) (ho _ _ _ hn hp)

theorem length_le (ho : Ordered nodes) (h : Ascent nodes i way) : way.length ≤ i + 1 := by
  simpa using h.lineage.length_le ho

/-- A bound that the way up keeps to does not cut it short. -/
theorem chain_eq (h : Ascent nodes i way) {length : Nat} (hle : way.length ≤ length) :
    chain nodes length i = way.map Prod.fst := by
  induction h generalizing length with
  | root hn hp =>
    obtain ⟨length, rfl⟩ := Nat.exists_eq_add_one_of_ne_zero (Nat.ne_zero_of_lt hle)
    simp [chain, hn, hp]
  | child hn hp _ ih =>
    obtain ⟨length, rfl⟩ := Nat.exists_eq_add_one_of_ne_zero (Nat.ne_zero_of_lt hle)
    rw [chain, hn, Option.bind_some, hp, List.map_cons, ← ih (Nat.le_of_succ_le_succ hle)]

end Ascent

/-- The walk up comes to an end exactly where it meets a root within its bound. -/
theorem chain?_eq_some_iff {bound i : Nat} {indices : List Nat} :
    chain? nodes bound (some i) = some indices ↔
      ∃ way, Ascent nodes i way ∧ way.length ≤ bound ∧ way.map Prod.fst = indices := by
  constructor
  · -- by induction on the bound: a turn of the walk is a node of the way up
    intro h
    induction bound generalizing i indices with
    | zero => cases h
    | succ bound ih =>
      obtain ⟨n, hn, h⟩ := Option.bind_eq_some_iff.mp h
      obtain ⟨rest, hrest, rfl⟩ := Option.map_eq_some_iff.mp h
      cases hp : n.parent with
      | none =>
        rw [hp, chain?] at hrest
        obtain rfl := Option.some.inj hrest
        exact ⟨_, .root hn hp, by simp, rfl⟩
      | some p =>
        rw [hp] at hrest
        obtain ⟨way, hway, hle, rfl⟩ := ih hrest
        exact ⟨_, .child hn hp hway, Nat.succ_le_succ hle, rfl⟩
  · rintro ⟨way, h, hle, rfl⟩
    induction h generalizing bound with
    | root hn hp =>
      obtain ⟨bound, rfl⟩ := Nat.exists_eq_add_one_of_ne_zero (Nat.ne_zero_of_lt hle)
      simp [chain?, hn, hp]
    | child hn hp _ ih =>
      obtain ⟨bound, rfl⟩ := Nat.exists_eq_add_one_of_ne_zero (Nat.ne_zero_of_lt hle)
      rw [chain?, hn, Option.bind_some, hp, ih (Nat.le_of_succ_le_succ hle)]
      rfl

section TakeOut

variable {a : Array Node} {i : Nat} {n : Node}

/-- After a node was taken out the last one stands in its place, and the others are where they
were. -/
theorem getElem?_takeOut (hi : i < a.size) (j : Nat) :
    (takeOut a i).2[j]? = if j + 1 < a.size then a[if j = i then a.size - 1 else j]? else none := by
  simp only [takeOut, dif_pos hi, Array.getElem?_pop, Array.getElem?_swap, Array.size_swap]
  by_cases hj : j + 1 < a.size
  · have hlast : a.size - 1 ≠ j := by omega
    rw [if_pos (by omega), if_neg hlast, if_pos hj]
    by_cases he : j = i
    · rw [if_pos he, if_pos he.symm, Array.getElem?_eq_getElem]
    · rw [if_neg he, if_neg (Ne.symm he)]
  · rw [if_neg hj, if_neg (by omega)]

/-- The nodes before the one taken out stay where they are. -/
theorem getElem?_takeOut_of_lt (hi : i < a.size) {j : Nat} (hj : j < i) :
    (takeOut a i).2[j]? = a[j]? := by
  rw [getElem?_takeOut hi, if_pos (Nat.lt_of_le_of_lt hj hi), if_neg (Nat.ne_of_lt hj)]

private theorem fst_takeOut (h : a[i]? = some n) : (takeOut a i).1 = some n := by
  obtain ⟨hi, he⟩ := Array.getElem?_eq_some_iff.mp h
  rw [takeOut, dif_pos hi, he]

private theorem takeEach?_cons (h : a[i]? = some n) (rest : List Nat) : takeEach? (i :: rest) a =
    (takeEach? rest (takeOut a i).2).map fun r => (n :: r.1, r.2) := by
  have hout : takeOut a i = (some n, (takeOut a i).2) := Prod.ext (fst_takeOut h) rfl
  rw [takeEach?, hout]

/-- Nodes with smaller and smaller numbers are all found, as they were at first, and those before
all of them stay where they are. -/
theorem exists_takeEach? {way : List (Nat × Node)}
    (hd : (way.map Prod.fst).Pairwise (· > ·)) (ha : ∀ x ∈ way, a[x.1]? = some x.2) :
    ∃ left, takeEach? (way.map Prod.fst) a = some (way.map Prod.snd, left) ∧
      ∀ j, (∀ x ∈ way, j < x.1) → left[j]? = a[j]? := by
  induction way generalizing a with
  | nil => exact ⟨a, rfl, fun _ _ => rfl⟩
  | cons x way ih =>
    obtain ⟨i, n⟩ := x
    obtain ⟨hn, ha⟩ := List.forall_mem_cons.mp ha
    obtain ⟨hlt, hd⟩ := List.pairwise_cons.mp hd
    have hi : i < a.size := (Array.getElem?_eq_some_iff.mp hn).1
    -- what is still to be taken lies before the node that goes now
    have hrest : ∀ y ∈ way, (takeOut a i).2[y.1]? = some y.2 := fun y hy =>
      (getElem?_takeOut_of_lt hi (hlt _ (List.mem_map_of_mem hy))).trans (ha y hy)
    obtain ⟨left, hleft, hsame⟩ := ih hd hrest
    refine ⟨left, ?_, fun j hj => ?_⟩
    · rw [List.map_cons, takeEach?_cons hn, hleft]
      rfl
    · obtain ⟨hji, hj⟩ := List.forall_mem_cons.mp hj
      exact (hsame j hj).trans (getElem?_takeOut_of_lt hi hji)

/-- Where every node is found the entries are the same as without looking. -/
theorem takeEntries_eq {indices : List Nat} {taken : List Node} {left : Array Node}
    (h : takeEach? indices a = some (taken, left)) (entries : List TraceEntry) :
    takeEntries indices a entries = (taken.map (·.entry)).reverse ++ entries := by
  induction indices generalizing a taken entries with
  | nil =>
    obtain ⟨rfl, -⟩ := Prod.mk.inj (Option.some.inj h)
    rfl
  | cons i rest ih =>
    rw [takeEach?] at h
    split at h
    · cases h
    · rename_i n a' hout
      obtain ⟨⟨taken, left⟩, hrest, h⟩ := Option.map_eq_some_iff.mp h
      obtain ⟨rfl, rfl⟩ := Prod.mk.inj h
      simp [takeEntries, hout, ih hrest]

end TakeOut

namespace Ascent

variable {i : Nat} {way : List (Nat × Node)}

/-- The nodes of a way up are taken out in turn. -/
theorem removal (ho : Ordered nodes) (h : Ascent nodes i way)
    {before after : List (Nat × Node)} {x : Nat × Node} (hway : way = before ++ x :: after) :
    ∃ left, takeEach? (before.map Prod.fst) nodes = some (before.map Prod.snd, left) ∧
      Removal nodes left x.1 x.2 := by
  have hd := h.descending ho
  have hnodes := h.getElem?
  rw [hway] at hd hnodes
  rw [List.map_append, List.pairwise_append] at hd
  obtain ⟨hbefore, -, hcross⟩ := hd
  obtain ⟨left, hleft, hsame⟩ := exists_takeEach? hbefore fun y hy =>
    hnodes y (List.mem_append_left _ hy)
  -- all that was taken before had a larger number
  have hintact : ∀ j ≤ x.1, left[j]? = nodes[j]? := fun j hj => hsame j fun y hy =>
    Nat.lt_of_le_of_lt hj (hcross _ (List.mem_map_of_mem hy) _ (List.mem_map_of_mem (by simp)))
  have hx : left[x.1]? = some x.2 := (hintact _ (Nat.le_refl _)).trans (hnodes x (by simp))
  have hlt : x.1 < left.size := (Array.getElem?_eq_some_iff.mp hx).1
  exact ⟨left, hleft, hlt, hintact, fst_takeOut hx, getElem?_takeOut hlt⟩

theorem pathTo?_eq (ho : Ordered nodes) (h : Ascent nodes i way) {bound : Nat} (hb : i < bound) :
    pathTo? nodes bound i = some (way.reverse.map (·.2.entry)) := by
  have hchain := chain?_eq_some_iff.mpr ⟨way, h, Nat.le_trans (h.length_le ho) hb, rfl⟩
  obtain ⟨left, hleft, -⟩ := exists_takeEach? (h.descending ho) h.getElem?
  rw [pathTo?, hchain, Option.bind_some, hleft]
  simp [List.map_reverse]

theorem pathTo_eq (ho : Ordered nodes) (h : Ascent nodes i way) :
    pathTo nodes i = way.reverse.map (·.2.entry) := by
  obtain ⟨left, hleft, -⟩ := exists_takeEach? (h.descending ho) h.getElem?
  rw [pathTo, h.chain_eq (h.length_le ho), takeEntries_eq hleft]
  simp [List.map_reverse]

end Ascent

/-- `pathTo` lists the entries from the root to a node. -/
theorem lineage_pathTo (ho : Ordered nodes) {target : Nat} (h : target < nodes.size) :
    Lineage nodes target (pathTo nodes target) := by
  obtain ⟨way, hway⟩ := exists_ascent ho h
  rw [hway.pathTo_eq ho]
  exact hway.lineage

end TapeMachine.Tree
