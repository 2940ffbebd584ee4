import Mathlib.Data.List.Basic
import Mathlib.Algebra.GroupWithZero.Nat

/-! A queue that marks join at the back and leave from the front once they are too old. -/
namespace MarketFeed.Window

variable {α : Type*}

/-- In an ordered queue the front holds all that is to go. -/
theorem dropWhile_ordered (p : α → Bool) (xs : List α) (ordered : xs.Pairwise fun a b => p b = true → p a = true) :
    xs.dropWhile p = xs.filter fun x => !p x := by
  induction xs with
  | nil => rfl
  | cons x rest ih =>
    obtain ⟨first,later⟩ := List.pairwise_cons.mp ordered
    cases gone : p x with
    | true => rw [List.dropWhile_cons_of_pos gone,List.filter_cons_of_neg (by simp [gone]),ih later]
    | false =>
      have stay : ∀ y ∈ x :: rest, (!p y) = true := by
        intro y member
        rcases List.mem_cons.mp member with rfl | inside
        · simp [gone]
        · rw [Bool.not_eq_true']
          exact Bool.eq_false_iff.mpr fun goes => by simp [gone] at first; simp [first y inside] at goes
      rw [List.dropWhile_cons_of_neg (by simp [gone]),List.filter_eq_self.mpr stay]

/-- Marks at least `n` apart, so many of them within a stretch. -/
theorem spaced_length (n low high : Nat) (xs : List Nat) (spaced : xs.Pairwise fun a b => a + n ≤ b)
    (within : ∀ x ∈ xs, low ≤ x ∧ x ≤ high) : xs.length * n ≤ high - low + n := by
  induction xs generalizing low with
  | nil => simp
  | cons x rest ih =>
    obtain ⟨first,later⟩ := List.pairwise_cons.mp spaced
    obtain ⟨above,below⟩ := within x (List.mem_cons_self ..)
    have shorter := ih (x + n) later fun y member => ⟨first y member,(within y (List.mem_cons_of_mem _ member)).2⟩
    rw [List.length_cons,Nat.succ_mul]
    cases rest with
    | nil => simp
    | cons y others =>
      have next := first y (List.mem_cons_self ..)
      have last := (within y (List.mem_cons_of_mem _ (List.mem_cons_self ..))).2
      omega

/-- What each mark has counted so far, in sum, when those that `q` lets through count one more. -/
theorem sum_counted (f g : α → Nat) (q : α → Bool) (xs : List α)
    (grows : ∀ x ∈ xs, g x = f x + if q x then 1 else 0) : (xs.map g).sum = (xs.map f).sum + xs.countP q := by
  induction xs with
  | nil => rfl
  | cons x rest ih =>
    have here := grows x (List.mem_cons_self ..)
    have later := ih fun y member => grows y (List.mem_cons_of_mem _ member)
    rw [List.map_cons,List.map_cons,List.sum_cons,List.sum_cons,List.countP_cons,here,later]
    omega

end MarketFeed.Window
