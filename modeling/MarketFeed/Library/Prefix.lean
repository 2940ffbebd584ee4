import Mathlib.Data.List.Infix

/-! Invariants along a fold: what one step preserves holds after every prefix. -/
namespace MarketFeed.Prefix

variable {σ α : Type*}

theorem split_of_prefix {xs done : List α} {x : α} (before : done ++ [x] <+: xs) :
    ∃ rest, xs = done ++ x :: rest := by
  obtain ⟨rest,equal⟩ := before
  exact ⟨rest,by simpa using equal.symm⟩

theorem prefix_of_split {xs done rest : List α} {x : α} (split : xs = done ++ x :: rest) :
    done <+: xs ∧ done ++ [x] <+: xs :=
  ⟨⟨x :: rest,split.symm⟩,⟨rest,by simpa using split.symm⟩⟩

/-- The state may depend on the steps done so far. -/
theorem invariant_prefix (xs : List α) (invariant : List α → Prop) (start : invariant [])
    (next : ∀ done x rest, xs = done ++ x :: rest → invariant done → invariant (done ++ [x])) :
    ∀ done, done <+: xs → invariant done := by
  intro done
  induction done using List.reverseRecOn with
  | nil => exact fun _ => start
  | append_singleton done x ih =>
    intro before
    obtain ⟨rest,split⟩ := split_of_prefix before
    exact next done x rest split (ih (prefix_of_split split).1)

theorem foldl_concat (step : σ → α → σ) (s : σ) (done : List α) (x : α) :
    (done ++ [x]).foldl step s = step (done.foldl step s) x := by
  simp

end MarketFeed.Prefix
