import Mathlib.Data.Int.Basic
import Mathlib.Tactic.Ring

/-! Fixed-width arithmetic: when a machine operation is the exact one. -/
namespace MarketFeed.Word

/-- The implicit conversion of a 32-bit unsigned operand to a 64-bit signed one. -/
def widen (n : UInt32) : Int64 := n.toUInt64.toInt64

@[simp] theorem toInt_widen (n : UInt32) : (widen n).toInt = n.toNat := by
  have bound := n.toNat_lt
  have same : widen n = Int64.ofNat n.toNat := by
    apply Int64.toBitVec_inj.mp
    apply BitVec.eq_of_toNat_eq
    simp [widen]
  rw [same]
  exact Int64.toInt_ofNat_of_lt (by omega)

theorem toInt_add_widen (q : Int64) (n : UInt32) (nonneg : 0 ≤ q.toInt)
    (fits : q.toInt + n.toNat < 2^63) : (q + widen n).toInt = q.toInt + n.toNat := by
  rw [Int64.toInt_add,toInt_widen]
  exact Int.bmod_eq_of_le (by omega) (by omega)

theorem toInt_sub_widen (q : Int64) (n : UInt32) (nonneg : 0 ≤ q.toInt) :
    (q - widen n).toInt = q.toInt - n.toNat := by
  have upper := q.toInt_lt
  have bound := n.toNat_lt
  rw [Int64.toInt_sub,toInt_widen]
  exact Int.bmod_eq_of_le (by omega) (by omega)

theorem toInt_add_ofInt (q : Int64) (n : Int) (nonneg : 0 ≤ n) (small : n < 2^63) (fits : q.toInt + n < 2^63) :
    (q + Int64.ofInt n).toInt = q.toInt + n := by
  have lowest := q.le_toInt
  rw [Int64.toInt_add,Int64.toInt_ofInt_of_le (by omega) small]
  exact Int.bmod_eq_of_le (by omega) (by omega)

theorem neg_iff (q : Int64) : q < 0 ↔ q.toInt < 0 := by
  simp [Int64.lt_iff_toInt_lt]

theorem eq_zero_iff (q : Int64) : q = 0 ↔ q.toInt = 0 := by
  rw [← Int64.toInt_inj]
  simp

@[simp] theorem widen_zero : widen 0 = 0 := by decide

end MarketFeed.Word
