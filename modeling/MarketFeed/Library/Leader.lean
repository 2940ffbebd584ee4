import Mathlib.Order.Bounds.Basic
import Mathlib.Data.List.Induction

/-! A scan for the best of a list in which some candidates are void: a later one takes over
only when strictly better, so the first of the best stays. -/
namespace MarketFeed.Leader

section Scan
variable {α κ : Type*} [LinearOrder κ] (valid : α → Bool) (beats : α → α → Bool)

def contend (best x : α) : α := if valid x && (!valid best || beats x best) then x else best

def scan (start : α) (xs : List α) : α := xs.foldl (contend valid beats) start

/-- The first of the best valid candidates. -/
structure Leads (rank : α → κ) (xs : List α) (x : α) : Prop where
  counts : valid x = true
  place : ∃ before after, xs = before ++ x :: after ∧ ∀ y ∈ before, valid y = true → rank y < rank x
  best : ∀ y ∈ xs, valid y = true → rank y ≤ rank x

variable {valid beats} {rank : α → κ} {xs : List α} {best x : α}

theorem leads_first (void : ∀ y ∈ xs, valid y = false) (holds : valid x = true) :
    Leads valid rank (xs ++ [x]) x := by
  refine ⟨holds,⟨xs,[],rfl,fun y member contra => ?_⟩,fun y member contra => ?_⟩
  · simp [void y member] at contra
  · rcases List.mem_append.mp member with earlier | last
    · simp [void y earlier] at contra
    · rw [List.mem_singleton.mp last]

theorem Leads.overtaken (leads : Leads valid rank xs best) (holds : valid x = true) (better : rank best < rank x) :
    Leads valid rank (xs ++ [x]) x := by
  refine ⟨holds,⟨xs,[],rfl,fun y member counts => (leads.best y member counts).trans_lt better⟩,?_⟩
  intro y member counts
  rcases List.mem_append.mp member with earlier | last
  · exact (leads.best y earlier counts).trans better.le
  · rw [List.mem_singleton.mp last]

theorem Leads.stays (leads : Leads valid rank xs best) (worse : valid x = true → rank x ≤ rank best) :
    Leads valid rank (xs ++ [x]) best := by
  obtain ⟨before,after,split,first⟩ := leads.place
  refine ⟨leads.counts,⟨before,after ++ [x],by simp [split],first⟩,fun y member counts => ?_⟩
  rcases List.mem_append.mp member with earlier | last
  · exact leads.best y earlier counts
  · obtain rfl := List.mem_singleton.mp last
    exact worse counts

theorem scan_concat (start : α) (xs : List α) (x : α) :
    scan valid beats start (xs ++ [x]) = contend valid beats (scan valid beats start xs) x := by
  simp [scan]

theorem scan_void (start : α) (xs : List α) (void : ∀ x ∈ xs, valid x = false) :
    scan valid beats start xs = start := by
  induction xs using List.reverseRecOn with
  | nil => rfl
  | append_singleton xs x ih =>
    rw [scan_concat,ih fun y member => void y (List.mem_append_left _ member)]
    simp [contend,void x (by simp)]

variable (valid beats) in
/-- The scan finds the first of the best, or keeps a void start where every candidate is void. -/
theorem scan_leads (order : ∀ x y, beats x y = true ↔ rank y < rank x) (start : α) (void : valid start = false)
    (xs : List α) : (scan valid beats start xs = start ∧ ∀ x ∈ xs, valid x = false) ∨
      Leads valid rank xs (scan valid beats start xs) := by
  induction xs using List.reverseRecOn with
  | nil => exact Or.inl ⟨rfl,by simp⟩
  | append_singleton xs x ih =>
    rw [scan_concat]
    by_cases holds : valid x = true
    · rcases ih with ⟨same,empty⟩ | leads
      · refine Or.inr ?_
        simpa [contend,same,holds,void] using leads_first empty holds
      · refine Or.inr ?_
        by_cases better : rank (scan valid beats start xs) < rank x
        · simpa [contend,holds,(order _ _).mpr better] using leads.overtaken holds better
        · have stays := mt (order _ _).mp better
          simpa [contend,leads.counts,stays] using leads.stays fun _ => not_lt.mp better
    · have idle : contend valid beats (scan valid beats start xs) x = scan valid beats start xs := by
        simp [contend,holds]
      rw [idle]
      rcases ih with ⟨same,empty⟩ | leads
      · refine Or.inl ⟨same,fun y member => ?_⟩
        rcases List.mem_append.mp member with earlier | last
        · exact empty y earlier
        · simpa [List.mem_singleton.mp last] using holds
      · exact Or.inr (leads.stays fun counts => absurd counts holds)

end Scan

end MarketFeed.Leader
