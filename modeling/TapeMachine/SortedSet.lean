/-!
# Sorted lists without repetition

Sets that are shown to the reader are lists in increasing order. `sortedSet` builds one from any
list; its members are those of the list, and no other increasing list has them.
-/

namespace TapeMachine

variable {α : Type} [LT α] [DecidableLT α] [DecidableEq α]

/-- Puts a member into its place in a sorted list, unless it is there already. -/
def insertSorted (x : α) : List α → List α
  | [] => [x]
  | y :: ys => if x < y then x :: y :: ys else if x = y then y :: ys else y :: insertSorted x ys

/-- The members of a list in increasing order, each once. -/
def sortedSet (xs : List α) : List α := xs.foldr insertSorted []

@[simp] theorem mem_insertSorted {x y : α} {ys : List α} :
    y ∈ insertSorted x ys ↔ y = x ∨ y ∈ ys := by
  induction ys with
  | nil => simp [insertSorted]
  | cons z zs ih => grind [insertSorted]

@[simp] theorem mem_sortedSet {y : α} {xs : List α} : y ∈ sortedSet xs ↔ y ∈ xs := by
  induction xs with
  | nil => simp [sortedSet]
  | cons x xs ih =>
    rw [sortedSet, List.foldr_cons, mem_insertSorted, List.mem_cons]
    exact or_congr_right ih

section Order

variable [LE α] [Std.IsLinearOrder α] [Std.LawfulOrderLT α]

theorem pairwise_insertSorted {x : α} {ys : List α} (h : ys.Pairwise (· < ·)) :
    (insertSorted x ys).Pairwise (· < ·) := by
  induction ys with
  | nil => simp [insertSorted]
  | cons y ys ih =>
    obtain ⟨hy, hys⟩ := List.pairwise_cons.mp h
    by_cases hlt : x < y
    · have hx (z) (hz : z ∈ y :: ys) : x < z := by
        rcases List.mem_cons.mp hz with rfl | hz
        · exact hlt
        · exact Std.lt_trans hlt (hy z hz)
      rw [insertSorted, if_pos hlt]
      exact List.pairwise_cons.mpr ⟨hx, h⟩
    · by_cases heq : x = y
      · rwa [insertSorted, if_neg hlt, if_pos heq]
      · have hyx : y < x := Std.lt_of_le_of_ne (Std.not_lt.mp hlt) (Ne.symm heq)
        have hins (z) (hz : z ∈ insertSorted x ys) : y < z := by
          rcases mem_insertSorted.mp hz with rfl | hz
          · exact hyx
          · exact hy z hz
        rw [insertSorted, if_neg hlt, if_neg heq]
        exact List.pairwise_cons.mpr ⟨hins, ih hys⟩

theorem pairwise_sortedSet (xs : List α) : (sortedSet xs).Pairwise (· < ·) := by
  induction xs with
  | nil => exact .nil
  | cons x xs ih => exact pairwise_insertSorted ih

omit [DecidableLT α] [DecidableEq α] [Std.IsLinearOrder α] in
theorem nodup_of_pairwise_lt {xs : List α} (h : xs.Pairwise (· < ·)) : xs.Nodup := by
  refine h.imp fun {x y} hlt => ?_
  rintro rfl
  exact Std.lt_irrefl hlt

omit [DecidableLT α] [DecidableEq α] in
/-- Increasing lists with the same members are the same list. -/
theorem eq_of_pairwise_lt {xs ys : List α} (hxs : xs.Pairwise (· < ·)) (hys : ys.Pairwise (· < ·))
    (h : ∀ z, z ∈ xs ↔ z ∈ ys) : xs = ys := by
  have hperm := (List.perm_ext_iff_of_nodup (nodup_of_pairwise_lt hxs)
    (nodup_of_pairwise_lt hys)).mpr h
  refine hperm.eq_of_pairwise (fun x y _ _ hxy hyx => ?_) hxs hys
  exact absurd (Std.lt_trans hxy hyx) Std.lt_irrefl

/-- Sorting a list without repetition only changes its order. -/
theorem perm_sortedSet {xs : List α} (h : xs.Nodup) : (sortedSet xs).Perm xs :=
  (List.perm_ext_iff_of_nodup (nodup_of_pairwise_lt (pairwise_sortedSet xs)) h).mpr
    fun _ => mem_sortedSet

omit [DecidableLT α] [DecidableEq α] in
/-- In an increasing list what is less than a member stands before it. -/
theorem mem_of_lt_of_pairwise_lt {lesser greater : List α} {x y : α}
    (h : (lesser ++ y :: greater).Pairwise (· < ·)) (hx : x ∈ lesser ++ y :: greater)
    (hlt : x < y) : x ∈ lesser := by
  rcases List.mem_append.mp hx with hx | hx
  · exact hx
  · obtain ⟨hy, -⟩ := List.pairwise_cons.mp (List.pairwise_append.mp h).2.1
    rcases List.mem_cons.mp hx with rfl | hx
    · exact absurd hlt Std.lt_irrefl
    · exact absurd (Std.lt_trans hlt (hy x hx)) Std.lt_irrefl

end Order

end TapeMachine
