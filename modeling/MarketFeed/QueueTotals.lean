import MarketFeed.QueueTracker

/-! Two readings of one list: `level_total_qty` narrows the sum to 32 bits, `qty_ahead_of_seq`
keeps 64. -/
namespace MarketFeed.QueuePositionBook
open FastAheadTracker

/-- Every quantity at the level rests under an arrival number below the counter. -/
def Behind (book : QueuePositionBook) (key : LevelKey) : Prop :=
  ∀ node ∈ book.level key, node.entry.qty ≠ 0 → node.entry.seq < book.currentSeq

/-- The level total, the oracle and the exact sum agree, and an order placed now is seeded with at
least what rests ahead of it. -/
structure NothingLost (book : QueuePositionBook) (key : LevelKey) : Prop where
  total : (book.levelTotalQty key).toNat = (book.qtyAheadOfSeq key book.currentSeq).toNat
  oracle : (book.qtyAheadOfSeq key book.currentSeq).toNat = held (book.level key)
  seeded : held (book.level key) ≤ (place book key).2.aheadQty.toInt

theorem aheadOf_le (nodes : List Node) (n : Nat) : aheadOf nodes n ≤ held nodes := by
  refine List.sum_le_sum fun node _ => ?_
  split <;> omega

theorem aheadOf_eq_held_iff (nodes : List Node) (n : Nat) :
    aheadOf nodes n = held nodes ↔ ∀ node ∈ nodes, node.entry.qty ≠ 0 → node.entry.seq.toNat < n := by
  induction nodes with
  | nil => simp [aheadOf,held]
  | cons node rest ih =>
    have le := aheadOf_le rest n
    have split_ : aheadOf (node :: rest) n =
        (if node.entry.seq.toNat < n then node.entry.qty.toNat else 0) + aheadOf rest n := by
      simp [aheadOf]
    have zero : node.entry.qty = 0 ↔ node.entry.qty.toNat = 0 := by
      rw [← UInt32.toNat_inj,UInt32.toNat_zero]
    rw [split_,held_cons,List.forall_mem_cons,← ih]
    by_cases before : node.entry.seq.toNat < n
    · rw [if_pos before]
      simp only [before,implies_true,true_and]
      omega
    · rw [if_neg before]
      simp only [before,imp_false,not_not,zero]
      omega

theorem behind_iff (book : QueuePositionBook) (key : LevelKey) :
    book.Behind key ↔ aheadOf (book.level key) book.currentSeq.toNat = held (book.level key) := by
  simp only [Behind,aheadOf_eq_held_iff,UInt64.lt_iff_toNat_lt]

theorem arrived_behind {book : QueuePositionBook} (arrived : Arrived book) (key : LevelKey) : book.Behind key :=
  fun node member _ => UInt64.lt_iff_toNat_lt.mpr (arrived key node member)

/-- A level is read without loss exactly when its sum fits in 32 bits and the counter has not
come round to its entries, which takes 2^64 arrivals. -/
theorem nothingLost_iff (messages : List WireMsg) (key : LevelKey) :
    let book := ({} : QueuePositionBook).applyAll messages
    (book.NothingLost key ↔ held (book.level key) < 2^32 ∧ book.Behind key) ∧
      (messages.countP introduces < 2^64 → book.Behind key) := by
  intro book
  have total := levelTotalQty_toNat book key
  have oracle := qtyAheadOfSeq_toNat book key book.currentSeq
  have le := aheadOf_le (book.level key) book.currentSeq.toNat
  refine ⟨⟨?_,?_⟩,?_⟩
  · rintro ⟨same,whole,_⟩
    rw [behind_iff]
    omega
  · rintro ⟨small,behind⟩
    rw [behind_iff] at behind
    refine ⟨by omega,by omega,?_⟩
    rw [place,construct_aheadQty]
    omega
  · intro few
    have counted := counted_applyAll messages {} 0 counted_empty (by omega)
    exact arrived_behind counted.arrived key

theorem nothingLost_iff_two : (({} : QueuePositionBook).applyAll
    [.add ⟨⟨0,0⟩,1,.buy,100,5⟩,.add ⟨⟨0,0⟩,2,.buy,100,7⟩]).NothingLost ⟨0,.buy,100⟩ :=
  have exactly := nothingLost_iff [.add ⟨⟨0,0⟩,1,.buy,100,5⟩,.add ⟨⟨0,0⟩,2,.buy,100,7⟩] ⟨0,.buy,100⟩
  exactly.1.mpr ⟨by decide,exactly.2 (by decide)⟩

/-- Two orders of 2^32 together: the level reads as empty and a newcomer starts at the front. -/
theorem full_level_reads_empty :
    let book := ({} : QueuePositionBook).applyAll
      [.add ⟨⟨0,0⟩,1,.buy,100,4294967295⟩,.add ⟨⟨0,0⟩,2,.buy,100,1⟩]
    book.levelTotalQty ⟨0,.buy,100⟩ = 0 ∧
    book.qtyAheadOfSeq ⟨0,.buy,100⟩ book.currentSeq = 4294967296 ∧
    (place book ⟨0,.buy,100⟩).2.becameFront = true ∧ ¬book.NothingLost ⟨0,.buy,100⟩ := by
  refine ⟨by decide,by decide,by decide,fun lost => ?_⟩
  exact absurd lost.total (by decide)

end MarketFeed.QueuePositionBook
