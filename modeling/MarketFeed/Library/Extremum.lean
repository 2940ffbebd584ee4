import Mathlib.Order.Bounds.Basic
import Mathlib.Order.Interval.Set.Basic
import Mathlib.Tactic.Push

/-! Running extrema of a set of indices, with a sentinel for the empty set, and
the linear walks that find the next one. -/
namespace MarketFeed.Extremum

section Sentinel
variable {α : Type*} [LinearOrder α] {sentinel best : α} {s : Set α}

theorem greatest_insert (x : α) (greatest : IsGreatest (insert sentinel s) best) :
    IsGreatest (insert sentinel (insert x s)) (max x best) := by
  rw [Set.insert_comm]
  exact greatest.insert x

theorem least_insert (x : α) (least : IsLeast (insert sentinel s) best) :
    IsLeast (insert sentinel (insert x s)) (min x best) := by
  rw [Set.insert_comm]
  exact least.insert x

theorem greatest_remove (x : α) (other : x ≠ best) (greatest : IsGreatest (insert sentinel s) best) :
    IsGreatest (insert sentinel (s \ {x})) best := by
  refine ⟨?_,fun y member => greatest.2 (Set.insert_subset_insert Set.sdiff_subset member)⟩
  rcases greatest.1 with equal | member
  · exact Or.inl equal
  · exact Or.inr ⟨member,fun equal => other equal.symm⟩

theorem least_remove (x : α) (other : x ≠ best) (least : IsLeast (insert sentinel s) best) :
    IsLeast (insert sentinel (s \ {x})) best := by
  refine ⟨?_,fun y member => least.2 (Set.insert_subset_insert Set.sdiff_subset member)⟩
  rcases least.1 with equal | member
  · exact Or.inl equal
  · exact Or.inr ⟨member,fun equal => other equal.symm⟩

end Sentinel

/-- The greatest index below the argument that satisfies `p`, `-1` if none does. -/
def walkDown (p : Nat → Bool) : Nat → Int
  | 0 => -1
  | n + 1 => if p n then n else walkDown p n

/-- The least index from `top - r` on that satisfies `p`, `top` if none does. -/
def walkUp (p : Nat → Bool) (top : Nat) : Nat → Int
  | 0 => top
  | r + 1 => if p (top - (r + 1)) then (top - (r + 1) : Nat) else walkUp p top r

theorem walkDown_greatest (p : Nat → Bool) (n : Nat) :
    IsGreatest (insert (-1) {i : Int | ∃ k < n, p k ∧ i = k}) (walkDown p n) := by
  induction n with
  | zero => simp [walkDown]
  | succ n ih =>
    by_cases holds : p n = true
    · simp only [walkDown,holds,if_true]
      refine ⟨Or.inr ⟨n,by omega,holds,rfl⟩,?_⟩
      rintro i (rfl | ⟨k,bound,_,rfl⟩) <;> omega
    · simp only [walkDown,holds]
      refine ⟨?_,?_⟩
      · rcases ih.1 with equal | ⟨k,bound,found,equal⟩
        · exact Or.inl equal
        · exact Or.inr ⟨k,by omega,found,equal⟩
      · rintro i (rfl | ⟨k,bound,found,rfl⟩)
        · exact ih.2 (Or.inl rfl)
        · have before : k ≠ n := fun equal => holds (equal ▸ found)
          exact ih.2 (Or.inr ⟨k,by omega,found,rfl⟩)

theorem walkUp_least (p : Nat → Bool) (top r : Nat) (inside : r ≤ top) :
    IsLeast (insert (top : Int) {i : Int | ∃ k, top - r ≤ k ∧ k < top ∧ p k ∧ i = k})
      (walkUp p top r) := by
  induction r with
  | zero =>
    refine ⟨Or.inl rfl,?_⟩
    rintro i (rfl | ⟨k,lower,upper,_,rfl⟩)
    · exact le_refl _
    · omega
  | succ r ih =>
    have ih := ih (by omega)
    by_cases holds : p (top - (r + 1)) = true
    · simp only [walkUp,holds,if_true]
      refine ⟨Or.inr ⟨top - (r + 1),le_refl _,by omega,holds,rfl⟩,?_⟩
      rintro i (rfl | ⟨k,lower,_,_,rfl⟩) <;> omega
    · simp only [walkUp,holds]
      refine ⟨?_,?_⟩
      · rcases ih.1 with equal | ⟨k,lower,upper,found,equal⟩
        · exact Or.inl equal
        · exact Or.inr ⟨k,by omega,upper,found,equal⟩
      · rintro i (rfl | ⟨k,lower,upper,found,rfl⟩)
        · exact ih.2 (Or.inl rfl)
        · have after : k ≠ top - (r + 1) := fun equal => holds (equal ▸ found)
          exact ih.2 (Or.inr ⟨k,by omega,upper,found,rfl⟩)

end MarketFeed.Extremum
