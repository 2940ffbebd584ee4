import Mathlib.Data.List.Perm.Basic

/-! Removal from an unordered vector: the last element takes the place of the removed one. -/
namespace MarketFeed.SwapRemove

variable {α : Type*}

def swapRemove (xs : List α) (i : Nat) : List α :=
  match xs.getLast? with
  | none => []
  | some last => (xs.set i last).dropLast

theorem swapRemove_perm (xs : List α) (i : Nat) (inside : i < xs.length) :
    (swapRemove xs i).Perm (xs.eraseIdx i) := by
  have filled : xs ≠ [] := List.ne_nil_of_length_pos (Nat.zero_lt_of_lt inside)
  obtain ⟨front,last,rfl⟩ : ∃ front last, xs = front ++ [last] :=
    ⟨_,_,(List.dropLast_concat_getLast filled).symm⟩
  rw [List.length_append,List.length_singleton] at inside
  unfold swapRemove
  simp only [List.getLast?_append,List.getLast?_singleton,Option.some_or]
  rcases Nat.lt_or_ge i front.length with before | atEnd
  · rw [List.set_append_left i last before,List.dropLast_concat,List.eraseIdx_append_of_lt_length before]
    exact (List.set_perm_cons_eraseIdx before last).trans (List.perm_append_singleton last _).symm
  · have same : i = front.length := by omega
    rw [same,List.set_append_right _ _ (Nat.le_refl _)]
    simp [List.eraseIdx_append_of_length_le]

theorem modify_perm (xs : List α) (i : Nat) (f : α → α) (inside : i < xs.length) :
    (xs.modify i f).Perm (f xs[i] :: xs.eraseIdx i) := by
  rw [List.modify_eq_set_getElem? f i xs]
  simpa [inside] using List.set_perm_cons_eraseIdx inside (f xs[i])

end MarketFeed.SwapRemove
