import Mathlib.Data.List.Perm.Basic
import Mathlib.Algebra.GroupWithZero.Nat

/-! Splitting a list by a route: the parts of the first `n` routes are the whole list. -/
namespace MarketFeed.Routing

variable {α : Type*}

theorem flatMap_filter_below (xs : List α) (route : α → Nat) (n : Nat) :
    ((List.range n).flatMap fun s => xs.filter fun x => route x = s).Perm
      (xs.filter fun x => route x < n) := by
  induction n with
  | zero => simp
  | succ n ih =>
    have split := List.filter_append_perm (fun x => decide (route x < n))
      (xs.filter fun x => route x < n + 1)
    rw [List.filter_filter,List.filter_filter] at split
    have low : (xs.filter fun x => decide (route x < n) && decide (route x < n + 1)) =
        xs.filter fun x => route x < n := by
      refine List.filter_congr fun x _ => ?_
      simp only [← Bool.decide_and]
      exact decide_eq_decide.mpr (by omega)
    have last : (xs.filter fun x => !decide (route x < n) && decide (route x < n + 1)) =
        xs.filter fun x => route x = n := by
      refine List.filter_congr fun x _ => ?_
      simp only [← decide_not,← Bool.decide_and]
      exact decide_eq_decide.mpr (by omega)
    rw [low,last] at split
    rw [List.range_succ,List.flatMap_append]
    simpa using (ih.append_right _).trans split

theorem flatMap_filter_perm (xs : List α) (route : α → Nat) (n : Nat) (inside : ∀ x ∈ xs, route x < n) :
    ((List.range n).flatMap fun s => xs.filter fun x => route x = s).Perm xs := by
  have whole : (xs.filter fun x => route x < n) = xs := by simpa using inside
  simpa [whole] using flatMap_filter_below xs route n

/-- Counting at one more place adds to the sum of the counts. -/
theorem sum_raise {f g : Nat → Nat} (n k : Nat) (inside : k < n) (here : g k = f k + 1)
    (others : ∀ j, j ≠ k → g j = f j) : ((List.range n).map g).sum = ((List.range n).map f).sum + 1 := by
  induction n with
  | zero => omega
  | succ n ih =>
    simp only [List.range_succ,List.map_append,List.sum_append,List.map_singleton,List.sum_singleton]
    rcases eq_or_ne k n with rfl | other
    · have below : (List.range k).map g = (List.range k).map f :=
        List.map_congr_left fun j member => others j (Nat.ne_of_lt (List.mem_range.mp member))
      rw [below,here]
      omega
    · rw [ih (by omega),others n other.symm]
      omega

end MarketFeed.Routing
