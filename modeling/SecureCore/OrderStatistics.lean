import Mathlib.Data.List.Sort
import Mathlib.Tactic

/-! Ranks in a sorted list. If more than half of the elements lie in an interval, so
do the middle ones. -/

namespace SecureCore.OrderStatistics

def Majority {α : Type} (p : α → Prop) [DecidablePred p] (xs : List α) : Prop :=
  xs.length < 2 * xs.countP (p ·)

instance {α : Type} (p : α → Prop) [DecidablePred p] (xs : List α) : Decidable (Majority p xs) :=
  inferInstanceAs (Decidable (_ < _))

section Counts

variable {α : Type} {p : α → Prop} [DecidablePred p] {xs ys : List α} {n : Nat}

theorem Majority.perm (majority : Majority p xs) (same : xs.Perm ys) : Majority p ys := by
  rw [Majority, ← same.length_eq, ← same.countP_eq]
  exact majority

theorem countP_le_of_front (front : ∀ y ∈ xs.take n, ¬ p y) :
    xs.countP (p ·) ≤ xs.length - n := by
  have hfront : (xs.take n).countP (p ·) = 0 := by
    rw [List.countP_eq_zero]
    intro y hy
    simpa using front y hy
  rw [← List.take_append_drop n xs, List.countP_append, hfront, Nat.zero_add,
    List.take_append_drop, ← List.length_drop]
  exact List.countP_le_length

theorem countP_le_of_back (back : ∀ y ∈ xs.drop n, ¬ p y) : xs.countP (p ·) ≤ n := by
  have hback : (xs.drop n).countP (p ·) = 0 := by
    rw [List.countP_eq_zero]
    intro y hy
    simpa using back y hy
  calc xs.countP (p ·) = (xs.take n).countP (p ·) := by
        rw [← List.take_append_drop n xs, List.countP_append, hback, List.take_append_drop,
          Nat.add_zero]
    _ ≤ (xs.take n).length := List.countP_le_length
    _ ≤ n := List.length_take_le n xs

end Counts

section Ranks

variable {α : Type} [LinearOrder α] {xs : List α} {x y lo hi : α} {i : Nat}

theorem le_of_mem_take (sorted : xs.Pairwise (· ≤ ·)) (rank : xs[i]? = some x)
    (front : y ∈ xs.take (i + 1)) : y ≤ x := by
  obtain ⟨hi, rfl⟩ := List.getElem?_eq_some_iff.mp rank
  obtain ⟨j, hj, rfl⟩ := List.mem_take_iff_getElem.mp front
  rcases Nat.lt_or_ge j i with hlt | hge
  · exact List.pairwise_iff_getElem.mp sorted j i _ hi hlt
  · obtain rfl : j = i := by omega
    exact le_rfl

theorem le_of_mem_drop (sorted : xs.Pairwise (· ≤ ·)) (rank : xs[i]? = some x)
    (back : y ∈ xs.drop i) : x ≤ y := by
  obtain ⟨hi, rfl⟩ := List.getElem?_eq_some_iff.mp rank
  obtain ⟨j, hj, rfl⟩ := List.mem_drop_iff_getElem.mp back
  rcases Nat.eq_zero_or_pos j with rfl | hpos
  · exact le_rfl
  · exact List.pairwise_iff_getElem.mp sorted i (i + j) hi (by omega) (by omega)

theorem Majority.middle (majority : Majority (fun y => lo ≤ y ∧ y ≤ hi) xs)
    (sorted : xs.Pairwise (· ≤ ·)) (rank : xs[i]? = some x)
    (central : 2 * i ≤ xs.length ∧ xs.length ≤ 2 * i + 2) : lo ≤ x ∧ x ≤ hi := by
  -- A middle element of a sorted list lies where most elements lie: were it outside, one half
  -- of the list would be outside with it.
  rw [Majority] at majority
  constructor
  · by_contra below
    have hfront : ∀ y ∈ xs.take (i + 1), ¬ (lo ≤ y ∧ y ≤ hi) := fun y hy hin =>
      below (hin.1.trans (le_of_mem_take sorted rank hy))
    have hcount := countP_le_of_front hfront
    omega
  · by_contra above
    have hback : ∀ y ∈ xs.drop i, ¬ (lo ≤ y ∧ y ≤ hi) := fun y hy hin =>
      above ((le_of_mem_drop sorted rank hy).trans hin.2)
    have hcount := countP_le_of_back hback
    omega

end Ranks

end SecureCore.OrderStatistics
