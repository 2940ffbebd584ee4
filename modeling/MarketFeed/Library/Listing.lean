import MarketFeed.Library.FiniteMap
import Mathlib.Algebra.GroupWithZero.Nat
import Mathlib.Algebra.Order.BigOperators.Group.List

/-! A list of keyed entries that lists a finite map: each key once, in any order. -/
namespace MarketFeed.FiniteMap

variable {K V : Type*} [DecidableEq K]

structure Lists (entries : List (K × V)) (m : Map K V) : Prop where
  keys : (entries.map Prod.fst).Nodup
  exact : ∀ k v, m.lookup k = some v ↔ (k,v) ∈ entries

namespace Lists
variable {entries rest : List (K × V)} {m : Map K V} {k : K} {v : V}

theorem empty : Lists [] (∅ : Map K V) := by
  refine ⟨List.nodup_nil,?_⟩
  intro k v
  simp

theorem perm (lists : Lists entries m) (same : entries.Perm rest) : Lists rest m := by
  refine ⟨(same.map Prod.fst).nodup_iff.mp lists.keys,?_⟩
  intro k v
  rw [lists.exact,same.mem_iff]

theorem absent (lists : Lists entries m) (fresh : k ∉ entries.map Prod.fst) : m.lookup k = none := by
  cases found : m.lookup k with
  | none => rfl
  | some v => exact absurd (List.mem_map_of_mem ((lists.exact k v).mp found)) fresh

theorem found (lists : Lists ((k,v) :: rest) m) : m.lookup k = some v :=
  (lists.exact k v).mpr (List.mem_cons_self ..)

theorem insert (lists : Lists entries m) (fresh : k ∉ entries.map Prod.fst) :
    Lists ((k,v) :: entries) (m.insert k v) := by
  refine ⟨List.nodup_cons.mpr ⟨fresh,lists.keys⟩,?_⟩
  intro j w
  rw [lookup_insert_if,List.mem_cons,Prod.mk.injEq]
  split
  next same =>
    subst same
    have gone : (j,w) ∉ entries := fun member => fresh (List.mem_map_of_mem (f := Prod.fst) member)
    simp [gone,eq_comm]
  next other => simp [other,lists.exact]

theorem erase (lists : Lists ((k,v) :: rest) m) : Lists rest (m.erase k) := by
  obtain ⟨fresh,keys⟩ : k ∉ rest.map Prod.fst ∧ (rest.map Prod.fst).Nodup := List.nodup_cons.mp lists.keys
  refine ⟨keys,?_⟩
  intro j w
  rw [lookup_erase_if]
  split
  next same =>
    subst same
    have gone : (j,w) ∉ rest := fun member => fresh (List.mem_map_of_mem (f := Prod.fst) member)
    simp [gone]
  next other => simp [lists.exact,other]

theorem overwrite (lists : Lists ((k,v) :: rest) m) (w : V) : Lists ((k,w) :: rest) (m.insert k w) := by
  rw [← insert_erase]
  exact lists.erase.insert (List.nodup_cons.mp lists.keys).1

theorem weight_sum (f : V → Nat) (lists : Lists entries m) :
    weight f m = (entries.map fun entry => f entry.2).sum := by
  induction entries generalizing m with
  | nil =>
    have blank : m = ∅ := Finmap.ext_lookup fun k => by simpa using lists.absent (k := k) (by simp)
    rw [blank,weight_empty]
    rfl
  | cons entry rest ih => rw [weight_split f m _ _ lists.found,ih lists.erase,List.map_cons,List.sum_cons]

end Lists
end MarketFeed.FiniteMap
