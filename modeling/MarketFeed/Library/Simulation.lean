import Mathlib.Logic.Relation

/-! Two transition systems and a relation between their states: what one step of the concrete
system is above, and how a step of the abstract one is carried out below. -/
namespace MarketFeed.Simulation
open Relation

variable {C A : Type*}

/-- A concrete step is none or one of the abstract system's. -/
def Matches (stepC : C → C → Prop) (stepA : A → A → Prop) (R : C → A → Prop) : Prop :=
  ∀ c a c', R c a → stepC c c' → ∃ a', (a' = a ∨ stepA a a') ∧ R c' a'

/-- An abstract step is some of the concrete system's. -/
def Lifts (stepC : C → C → Prop) (stepA : A → A → Prop) (R : C → A → Prop) : Prop :=
  ∀ c a a', R c a → stepA a a' → ∃ c', ReflTransGen stepC c c' ∧ R c' a'

section Runs
variable {stepC : C → C → Prop} {stepA : A → A → Prop} {R : C → A → Prop}

theorem Matches.runs (matched : Matches stepC stepA R) {c c' : C} {a : A} (related : R c a)
    (run : ReflTransGen stepC c c') : ∃ a', ReflTransGen stepA a a' ∧ R c' a' := by
  induction run with
  | refl => exact ⟨a,.refl,related⟩
  | tail _ step ih =>
    obtain ⟨middle,before,related⟩ := ih
    obtain ⟨a',same | taken,related⟩ := matched _ _ _ related step
    · exact ⟨a',same ▸ before,related⟩
    · exact ⟨a',before.tail taken,related⟩

theorem Lifts.runs (lifted : Lifts stepC stepA R) {c : C} {a a' : A} (related : R c a) (run : ReflTransGen stepA a a') :
    ∃ c', ReflTransGen stepC c c' ∧ R c' a' := by
  induction run with
  | refl => exact ⟨c,.refl,related⟩
  | tail _ step ih =>
    obtain ⟨middle,before,related⟩ := ih
    obtain ⟨c',taken,related⟩ := lifted _ _ _ related step
    exact ⟨c',before.trans taken,related⟩

end Runs

end MarketFeed.Simulation
