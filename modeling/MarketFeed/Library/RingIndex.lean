import Mathlib.Data.Nat.ModEq
import Mathlib.Tactic.NormNum

/-! Indices of a circular buffer whose capacity is a power of two: `x &&& (capacity - 1)`
is `x` modulo the capacity, also across the wrap of the 64-bit word itself. -/
namespace MarketFeed.RingIndex

variable {capacity : UInt64}

theorem sub_one_toNat (positive : 1 ≤ capacity) : (capacity - 1).toNat = capacity.toNat - 1 :=
  UInt64.toNat_sub_of_le _ _ positive

section PowerOfTwo
variable (power : capacity &&& (capacity - 1) = 0) (positive : 1 ≤ capacity)
include power positive

theorem exists_exponent : ∃ k < 64, capacity.toNat = 2^k := by
  have bound := capacity.toNat_lt
  have one : 1 ≤ capacity.toNat := UInt64.le_iff_toNat_le.mp positive
  have clear : capacity.toNat &&& (capacity.toNat - 1) = 0 := by
    rw [← sub_one_toNat positive,← UInt64.toNat_and,power]
    rfl
  obtain ⟨k,equal⟩ := (Nat.and_sub_one_eq_zero_iff_isPowerOfTwo (by omega)).mp clear
  refine ⟨k,?_,equal⟩
  rw [equal] at bound
  exact (Nat.pow_lt_pow_iff_right (by norm_num)).mp bound

theorem capacity_dvd : capacity.toNat ∣ 2^64 := by
  obtain ⟨k,small,equal⟩ := exists_exponent power positive
  rw [equal]
  exact pow_dvd_pow 2 small.le

theorem mask_toNat (x : UInt64) : (x &&& (capacity - 1)).toNat = x.toNat % capacity.toNat := by
  obtain ⟨k,small,equal⟩ := exists_exponent power positive
  rw [UInt64.toNat_and,sub_one_toNat positive,equal]
  exact Nat.and_two_pow_sub_one_eq_mod _ _

theorem mask_next (x : UInt64) (n : Nat) (here : x.toNat = n % capacity.toNat) :
    ((x + 1) &&& (capacity - 1)).toNat = (n + 1) % capacity.toNat := by
  rw [mask_toNat power positive,UInt64.toNat_add,Nat.mod_mod_of_dvd _ (capacity_dvd power positive),here]
  simp [Nat.add_mod]

/-- The masked difference of two indices is the distance between their positions. -/
theorem mask_distance (x y : UInt64) (n length : Nat) (short : length < capacity.toNat)
    (ahead : x.toNat = (n + length) % capacity.toNat) (here : y.toNat = n % capacity.toNat) :
    ((x - y) &&& (capacity - 1)).toNat = length := by
  have dvd := capacity_dvd power positive
  have cancel : (x.toNat + (2^64 - y.toNat)) + n ≡ n + length [MOD capacity.toNat] := by
    have bound := y.toNat_lt
    calc (x.toNat + (2^64 - y.toNat)) + n
        ≡ ((n + length) + (2^64 - y.toNat)) + y.toNat [MOD capacity.toNat] := by
          refine Nat.ModEq.add (Nat.ModEq.add_right _ ?_) ?_
          · rw [ahead]
            exact Nat.mod_modEq _ _
          · rw [here]
            exact (Nat.mod_modEq _ _).symm
      _ = (n + length) + 2^64 := by omega
      _ ≡ (n + length) + 0 [MOD capacity.toNat] :=
          Nat.ModEq.add_left _ (Nat.modEq_zero_iff_dvd.mpr dvd)
  have distance : x.toNat + (2^64 - y.toNat) ≡ length [MOD capacity.toNat] := by
    rw [Nat.add_comm n length] at cancel
    exact Nat.ModEq.add_right_cancel' n cancel
  rw [mask_toNat power positive,UInt64.toNat_sub,Nat.mod_mod_of_dvd _ dvd,Nat.add_comm]
  exact Eq.trans distance (Nat.mod_eq_of_lt short)

end PowerOfTwo

/-- Two positions less than a capacity apart share a slot only if they are one. -/
theorem slot_inj {c : Nat} (n i j : Nat) (left : i < c) (right : j < c) (same : (n + i) % c = (n + j) % c) :
    i = j := by
  have congruent : i ≡ j [MOD c] := Nat.ModEq.add_left_cancel' n same
  exact (Nat.mod_eq_of_lt left).symm.trans (Eq.trans congruent (Nat.mod_eq_of_lt right))

end MarketFeed.RingIndex
