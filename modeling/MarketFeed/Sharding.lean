import MarketFeed.Normalizer
import Mathlib.Data.Nat.Count

/-! The constructor's tables: an instrument's shard is its remainder, its local index the
number of earlier instruments with that remainder, so no two instruments share a book. -/
namespace MarketFeed.Normalizer

def residents (n shard k : Nat) : Nat := Nat.count (fun i => i % n = shard) k

theorem residents_le (n shard k : Nat) : residents n shard k ≤ k := Nat.count_le _

theorem residents_inj (n i j : Nat) (sameShard : i % n = j % n)
    (sameLocal : residents n (i % n) i = residents n (j % n) j) : i = j := by
  rw [← sameShard] at sameLocal
  exact Nat.count_injective (p := fun k => k % n = i % n) rfl sameShard.symm sameLocal

structure Blank (shard : Shard) : Prop where
  orders : shard.orders = ∅
  queue : shard.queue = []
  processed : shard.processed = 0
  droppedFull : shard.droppedFull = 0
  applied : shard.applied = []

structure Enrolled (n k : Nat) (nz : Normalizer) : Prop where
  numShards : nz.numShards = n
  shard : ∀ i < k, nz.instrumentToShard i = UInt16.ofNat (i % n)
  loc : ∀ i < k, nz.instrumentToLocal i = UInt16.ofNat (residents n (i % n) i)
  books : ∀ s, (nz.shards s).books = List.replicate (residents n s k) {}
  blank : ∀ s, Blank (nz.shards s)

theorem enrolled_step {n k : Nat} {nz : Normalizer} (enrolled : Enrolled n k nz) :
    Enrolled n (k + 1) (nz.enroll k) := by
  have numShards := enrolled.numShards
  refine ⟨numShards,?_,?_,?_,?_⟩
  · intro i inside
    simp only [enroll,numShards,Function.update_apply]
    split
    next same => rw [same]
    next other => exact enrolled.shard i (by omega)
  · intro i inside
    simp only [enroll,numShards,enrolled.books,List.length_replicate,Function.update_apply]
    split
    next same => rw [same]
    next other => exact enrolled.loc i (by omega)
  · intro s
    simp only [enroll,numShards,Function.update_apply,residents,Nat.count_succ]
    split
    next same => rw [if_pos same.symm,enrolled.books,same,List.replicate_succ']; rfl
    next other => rw [if_neg (fun same => other same.symm),enrolled.books]; rfl
  · intro s
    simp only [enroll,Function.update_apply]
    split
    next same => exact ⟨(enrolled.blank _).orders,(enrolled.blank _).queue,(enrolled.blank _).processed,
        (enrolled.blank _).droppedFull,(enrolled.blank _).applied⟩
    next other => exact enrolled.blank s

theorem enrolled_range (n k : Nat) :
    Enrolled n k ((List.range k).foldl enroll { numShards := n }) := by
  induction k with
  | zero => exact ⟨rfl,by simp,by simp,fun s => rfl,fun s => ⟨rfl,rfl,rfl,rfl,rfl⟩⟩
  | succ k ih =>
    rw [List.range_succ,List.foldl_append]
    exact enrolled_step ih

theorem enrolled_construct (n : Nat) : Enrolled n numInstruments (construct n) := by
  rw [construct]
  exact enrolled_range n numInstruments

/-- The tables as numbers; the 16-bit casts lose nothing. -/
structure Addressed (n : Nat) (nz : Normalizer) : Prop where
  numShards : nz.numShards = n
  shard : ∀ i < numInstruments, (nz.instrumentToShard i).toNat = i % n
  loc : ∀ i < numInstruments, (nz.instrumentToLocal i).toNat = residents n (i % n) i

theorem addressed_construct (n : Nat) : Addressed n (construct n) := by
  have enrolled := enrolled_construct n
  refine ⟨enrolled.numShards,?_,?_⟩
  · intro i inside
    have small := Nat.mod_le i n
    simp only [numInstruments] at inside
    rw [enrolled.shard i inside]
    exact Nat.mod_eq_of_lt (by omega)
  · intro i inside
    have small := residents_le n (i % n) i
    simp only [numInstruments] at inside
    rw [enrolled.loc i inside]
    exact Nat.mod_eq_of_lt (by omega)

theorem Addressed.inj {n : Nat} {nz : Normalizer} (addressed : Addressed n nz) (i j : Nat)
    (left : i < numInstruments) (right : j < numInstruments)
    (sameShard : nz.instrumentToShard i = nz.instrumentToShard j)
    (sameLocal : nz.instrumentToLocal i = nz.instrumentToLocal j) : i = j := by
  refine residents_inj n i j ?_ ?_
  · rw [← addressed.shard i left,← addressed.shard j right,sameShard]
  · rw [← addressed.loc i left,← addressed.loc j right,sameLocal]

theorem Addressed.shardOf_lt {n : Nat} {nz : Normalizer} (addressed : Addressed n nz) (positive : 1 ≤ n)
    (m : WireMsg) (known : instrumentOf m < numInstruments) : nz.shardOf m < n := by
  rw [shardOf,addressed.shard _ known]
  exact Nat.mod_lt _ positive

structure Priced (n k : Nat) (reference : Nat → Int64) (nz : Normalizer) : Prop where
  addressed : Addressed n nz
  blank : ∀ s, Blank (nz.shards s)
  books : ∀ i < numInstruments, nz.bookForInstrument i =
    some (if i < k then ({} : OrderBook).init (reference i) else {})

theorem priced_construct (n : Nat) (reference : Nat → Int64) : Priced n 0 reference (construct n) := by
  have enrolled := enrolled_construct n
  have addressed := addressed_construct n
  refine ⟨addressed,enrolled.blank,?_⟩
  intro i inside
  have within : residents n (i % n) i < residents n (i % n) numInstruments :=
    Nat.count_strict_mono rfl inside
  have books := enrolled.books (i % n)
  rw [bookForInstrument,addressed.shard i inside,addressed.loc i inside,books]
  simp [within]

theorem priced_step {n k : Nat} {reference : Nat → Int64} {nz : Normalizer}
    (priced : Priced n k reference nz) (inside : k < numInstruments) :
    Priced n (k + 1) reference (nz.initReferencePrice k (reference k)) := by
  obtain ⟨addressed,blank,books⟩ := priced
  refine ⟨⟨addressed.numShards,addressed.shard,addressed.loc⟩,?_,?_⟩
  · intro s
    simp only [initReferencePrice,Function.update_apply]
    split
    next same => exact ⟨(blank _).orders,(blank _).queue,(blank _).processed,(blank _).droppedFull,
        (blank _).applied⟩
    next other => exact blank s
  · intro i known
    have before := books i known
    simp only [bookForInstrument,initReferencePrice,Function.update_apply] at before ⊢
    split
    next sameShard =>
      rw [← sameShard,List.getElem?_modify,before]
      split
      next sameLocal =>
        have same := addressed.inj k i inside known (UInt16.toNat_inj.mp sameShard.symm)
          (UInt16.toNat_inj.mp sameLocal)
        simp [same]
      next other =>
        have differ : i ≠ k := fun same => other (by rw [same])
        simp [show (i < k + 1) = (i < k) by simp; omega]
    next otherShard =>
      have differ : i ≠ k := fun same => otherShard (by rw [same])
      rw [before]
      simp [show (i < k + 1) = (i < k) by simp; omega]

@[irreducible] def ready (n : Nat) (reference : Nat → Int64) : Normalizer := (construct n).initReferencePrices reference

theorem priced_range (n : Nat) (reference : Nat → Int64) (k : Nat) (inside : k ≤ numInstruments) :
    Priced n k reference ((List.range k).foldl
      (fun nz i => nz.initReferencePrice i (reference i)) (construct n)) := by
  induction k with
  | zero =>
    rw [List.range_zero,List.foldl_nil]
    exact priced_construct n reference
  | succ k ih =>
    rw [List.range_succ,List.foldl_append,List.foldl_cons,List.foldl_nil]
    exact priced_step (ih (Nat.le_of_succ_le inside)) inside

theorem priced_ready (n : Nat) (reference : Nat → Int64) :
    Priced n numInstruments reference (ready n reference) := by
  unfold ready initReferencePrices
  exact priced_range n reference numInstruments (Nat.le_refl _)

end MarketFeed.Normalizer
