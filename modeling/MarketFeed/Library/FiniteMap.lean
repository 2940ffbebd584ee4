import Mathlib.Data.Finmap
import Mathlib.Algebra.BigOperators.Group.Finset.Basic
import Mathlib.Algebra.Order.BigOperators.Group.Finset

/-! Sums over the values of a finite map: what inserting, erasing and overwriting
an entry does to them. -/
namespace MarketFeed.FiniteMap
open scoped BigOperators

variable {K V W : Type*} [DecidableEq K]

abbrev Map (K V : Type*) := Finmap (fun _ : K => V)

def weight (f : V → Nat) (m : Map K V) : Nat := ∑ k ∈ m.keys, ((m.lookup k).map f).getD 0

theorem weight_empty (f : V → Nat) : weight f (∅ : Map K V) = 0 := by
  simp [weight]

theorem mem_keys_iff (m : Map K V) (k : K) : k ∈ m.keys ↔ (m.lookup k).isSome := by
  rw [Finmap.mem_keys,Finmap.lookup_isSome]

theorem keys_insert (m : Map K V) (k : K) (v : V) : (m.insert k v).keys = insert k m.keys := by
  ext j
  simp [Finmap.mem_keys,Finmap.mem_insert]

theorem keys_congr (m : Map K V) (n : Map K W) (same : ∀ k, (m.lookup k).isSome = (n.lookup k).isSome) :
    m.keys = n.keys := by
  ext k
  rw [mem_keys_iff,mem_keys_iff,same k]

theorem weight_congr (f : V → Nat) (g : W → Nat) (m : Map K V) (n : Map K W)
    (same : ∀ k, (m.lookup k).map f = (n.lookup k).map g) : weight f m = weight g n := by
  have keys : m.keys = n.keys := by
    apply keys_congr
    intro k
    have equal := congrArg Option.isSome (same k)
    simpa using equal
  simp only [weight,keys,same]

theorem weight_insert_absent (f : V → Nat) (m : Map K V) (k : K) (v : V) (absent : m.lookup k = none) :
    weight f (m.insert k v) = f v + weight f m := by
  have outside : k ∉ m.keys := by simp [mem_keys_iff,absent]
  rw [weight,keys_insert,Finset.sum_insert outside,Finmap.lookup_insert]
  congr 1
  apply Finset.sum_congr rfl
  intro j member
  have other : j ≠ k := fun equal => outside (equal ▸ member)
  rw [Finmap.lookup_insert_of_ne m other]

theorem weight_split (f : V → Nat) (m : Map K V) (k : K) (v : V) (found : m.lookup k = some v) :
    weight f m = f v + weight f (m.erase k) := by
  have member : k ∈ m.keys := by simp [mem_keys_iff,found]
  rw [weight,← Finset.add_sum_erase _ _ member,found,weight,Finmap.keys_erase]
  congr 1
  apply Finset.sum_congr rfl
  intro j inside
  rw [Finmap.lookup_erase_ne (Finset.ne_of_mem_erase inside)]

theorem weight_ge (f : V → Nat) (m : Map K V) (k : K) (v : V) (found : m.lookup k = some v) :
    f v ≤ weight f m := by
  rw [weight_split f m k v found]
  exact Nat.le_add_right _ _

theorem lookup_insert_if (m : Map K V) (k j : K) (v : V) :
    (m.insert k v).lookup j = if j = k then some v else m.lookup j := by
  split
  next same => rw [same,Finmap.lookup_insert]
  next other => exact Finmap.lookup_insert_of_ne m other

theorem lookup_erase_if (m : Map K V) (k j : K) :
    (m.erase k).lookup j = if j = k then none else m.lookup j := by
  split
  next same => rw [same,Finmap.lookup_erase]
  next other => exact Finmap.lookup_erase_ne other

theorem insert_erase (m : Map K V) (k : K) (v : V) : (m.erase k).insert k v = m.insert k v := by
  apply Finmap.ext_lookup
  intro j
  simp only [lookup_insert_if,lookup_erase_if]
  split <;> rfl

theorem weight_overwrite (f : V → Nat) (m : Map K V) (k : K) (v : V) :
    weight f (m.insert k v) = f v + weight f (m.erase k) := by
  rw [← insert_erase,weight_insert_absent f _ k v (Finmap.lookup_erase k m)]

/-- All that `m` says, `n` says too. -/
def Included (m n : Map K V) : Prop := ∀ k v, m.lookup k = some v → n.lookup k = some v

theorem Included.insert {m n : Map K V} (included : Included m n) (k : K) (v : V) :
    Included (m.insert k v) (n.insert k v) := by
  intro j w found
  rw [lookup_insert_if] at found ⊢
  split at found
  next same => rwa [if_pos same]
  next other =>
    rw [if_neg other]
    exact included j w found

theorem Included.erase {m n : Map K V} (included : Included m n) (k : K) : Included (m.erase k) (n.erase k) := by
  intro j w found
  rw [lookup_erase_if] at found ⊢
  split at found
  next => cases found
  next other =>
    rw [if_neg other]
    exact included j w found

theorem erase_absent (m : Map K V) (k : K) (absent : m.lookup k = none) : m.erase k = m := by
  apply Finmap.ext_lookup
  intro j
  rw [lookup_erase_if]
  split
  next same => rw [same,absent]
  next other => rfl

theorem weight_erase_le (f : V → Nat) (m : Map K V) (k : K) : weight f (m.erase k) ≤ weight f m := by
  cases found : m.lookup k with
  | none => rw [erase_absent m k found]
  | some v =>
    rw [weight_split f m k v found]
    exact Nat.le_add_left _ _

theorem weight_insert_le (f : V → Nat) (m : Map K V) (k : K) (v : V) :
    weight f (m.insert k v) ≤ f v + weight f m := by
  rw [weight_overwrite]
  exact Nat.add_le_add_left (weight_erase_le f m k) _

/-- An overwritten value leaves the sum and the new one joins it. -/
theorem weight_insert (f : V → Nat) (m : Map K V) (k : K) (v : V) :
    weight f (m.insert k v) + ((m.lookup k).map f).getD 0 = weight f m + f v := by
  rw [weight_overwrite]
  cases found : m.lookup k with
  | none => simp [erase_absent m k found,Nat.add_comm]
  | some w =>
    have split := weight_split f m k w found
    simp only [Option.map_some,Option.getD_some]
    omega

theorem weight_erase (f : V → Nat) (m : Map K V) (k : K) :
    weight f (m.erase k) + ((m.lookup k).map f).getD 0 = weight f m := by
  cases found : m.lookup k with
  | none => simp [erase_absent m k found]
  | some w =>
    have split := weight_split f m k w found
    simp only [Option.map_some,Option.getD_some]
    omega

theorem weight_sum {ι : Type*} (s : Finset ι) (f : ι → V → Nat) (m : Map K V) :
    ∑ i ∈ s, weight (f i) m = weight (fun v => ∑ i ∈ s, f i v) m := by
  unfold weight
  rw [Finset.sum_comm]
  refine Finset.sum_congr rfl fun k _ => ?_
  cases m.lookup k with
  | none => simp
  | some v => rfl

/-- The number of entries is the sum of ones. -/
theorem weight_one (m : Map K V) : weight (fun _ => 1) m = m.keys.card := by
  rw [weight,Finset.card_eq_sum_ones]
  refine Finset.sum_congr rfl fun k member => ?_
  obtain ⟨v,found⟩ := Option.isSome_iff_exists.mp ((mem_keys_iff m k).mp member)
  simp [found]

theorem weight_pos_iff (f : V → Nat) (m : Map K V) :
    0 < weight f m ↔ ∃ k v, m.lookup k = some v ∧ 0 < f v := by
  refine ⟨?_,?_⟩
  · intro positive
    obtain ⟨k,_,held⟩ := Finset.exists_ne_zero_of_sum_ne_zero (Nat.ne_of_gt positive)
    cases found : m.lookup k with
    | none => simp [found] at held
    | some v => exact ⟨k,v,found,Nat.pos_of_ne_zero (by simpa [found] using held)⟩
  · rintro ⟨k,v,found,positive⟩
    exact lt_of_lt_of_le positive (weight_ge f m k v found)

end MarketFeed.FiniteMap
