import MarketFeed.Depth

/-! The band check over the full 64-bit price range: the index is narrowed before it is
compared, so a price far outside the band can pass for one of its levels. -/
namespace MarketFeed.OrderBook
open Word

/-- The call returned true and rewrote one level of one side. -/
structure ActsAt (b : OrderBook) (side : Side) (k : Fin kLevels) (f : Int64 → Int64)
    (result : Bool × OrderBook) : Prop where
  returned : result.1 = true
  counted : result.2.dropped = b.dropped
  levels : ∀ other j, result.2.side other j = if other = side ∧ j = k then f (b.side other j) else b.side other j

structure Refuses (b : OrderBook) (result : Bool × OrderBook) : Prop where
  returned : result.1 = false
  counted : result.2.dropped = b.dropped + 1
  kept : SameDepth b result.2

/-- What the three functions owe at a price `offset` ticks above the base price. -/
structure KeepsBand (b : OrderBook) (offset : Int) (side : Side) (p : Int64) (qty : UInt32) : Prop where
  inside : ∀ k : Fin kLevels, offset = k →
    ActsAt b side k (· + widen qty) (b.add side p qty) ∧
    ActsAt b side k (reduced · qty) (b.reduce side p qty) ∧ b.qtyAt side p = b.side side k
  outside : ¬(0 ≤ offset ∧ offset < kLevels) →
    Refuses b (b.add side p qty) ∧ Refuses b (b.reduce side p qty) ∧ b.qtyAt side p = 0

/-- Outside the band, with low 32 bits that read as one of its levels. -/
def Aliased (offset : Int) : Prop := ¬(0 ≤ offset ∧ offset < kLevels) ∧ offset % 2^32 < kLevels

instance (offset : Int) : Decidable (Aliased offset) := by unfold Aliased; infer_instance

section
variable (b : OrderBook) (side : Side) (p : Int64) (qty : UInt32)

theorem add_acts (k : Fin kLevels) (located : b.level p = some k) :
    ActsAt b side k (· + widen qty) (b.add side p qty) := by
  refine ⟨?_,?_,fun other j => ?_⟩
  · cases side <;> simp [add,located]
  · cases side <;> simp [add,located]
  · rw [add_side,located]
    simp only [Option.some.injEq,and_comm,eq_comm]

theorem reduce_acts (k : Fin kLevels) (located : b.level p = some k) :
    ActsAt b side k (reduced · qty) (b.reduce side p qty) := by
  refine ⟨?_,?_,fun other j => ?_⟩
  · cases side <;> simp [reduce,located]
  · cases side <;> simp [reduce,located]
  · rw [reduce_side,located]
    simp only [Option.some.injEq,and_comm,eq_comm]

theorem add_refuses (located : b.level p = none) : Refuses b (b.add side p qty) := by
  constructor <;> simp [add,located,SameDepth]

theorem reduce_refuses (located : b.level p = none) : Refuses b (b.reduce side p qty) := by
  constructor <;> simp [reduce,located,SameDepth]

end

theorem level_aliased (b : OrderBook) (p : Int64) (low : -2^63 ≤ p.toInt - b.basePrice.toInt)
    (high : p.toInt - b.basePrice.toInt < 2^63) (aliased : Aliased (p.toInt - b.basePrice.toInt)) :
    ∃ k, b.level p = some k := by
  obtain ⟨_,small⟩ := aliased
  exact ⟨⟨((p.toInt - b.basePrice.toInt) % 2^32).toNat,by omega⟩,
    (level_wrapped b p low high _).mpr (by simp only; omega)⟩

theorem level_outside (b : OrderBook) (p : Int64) (low : -2^63 ≤ p.toInt - b.basePrice.toInt)
    (high : p.toInt - b.basePrice.toInt < 2^63)
    (outside : ¬(0 ≤ p.toInt - b.basePrice.toInt ∧ p.toInt - b.basePrice.toInt < kLevels))
    (plain : ¬Aliased (p.toInt - b.basePrice.toInt)) : b.level p = none := by
  cases located : b.level p with
  | none => rfl
  | some k =>
    have wrapped := (level_wrapped b p low high k).mp located
    have bound : (k : Int) < kLevels := by exact_mod_cast k.isLt
    exact absurd ⟨outside,by omega⟩ plain

/-- At any state of a book the band is kept at a price exactly when the narrowed offset does not
alias a level. -/
theorem keepsBand_iff (b : OrderBook) (reference : Int64) (cs : List Call) (side : Side) (p : Int64)
    (qty : UInt32) (based : -2^63 ≤ reference.toInt - kHalf)
    (low : -2^63 ≤ p.toInt - (reference.toInt - kHalf))
    (high : p.toInt - (reference.toInt - kHalf) < 2^63) :
    KeepsBand ((b.init reference).calls cs) (p.toInt - (reference.toInt - kHalf)) side p qty ↔
      ¬Aliased (p.toInt - (reference.toInt - kHalf)) := by
  have base : ((b.init reference).calls cs).basePrice.toInt = reference.toInt - kHalf := by
    have upper := reference.toInt_lt
    have half : (Int64.ofNat kHalf).toInt = kHalf := by decide
    rw [calls_basePrice]
    simp only [init]
    rw [Int64.toInt_sub,half]
    exact Int.bmod_eq_of_le (by omega) (by simp only [kHalf]; omega)
  generalize (b.init reference).calls cs = book at base ⊢
  rw [← base] at low high ⊢
  refine ⟨fun keeps aliased => ?_,fun plain => ⟨fun k here => ?_,fun outside => ?_⟩⟩
  · obtain ⟨k,located⟩ := level_aliased book p low high aliased
    have returned := (add_acts book side p qty k located).returned
    rw [(keeps.outside aliased.1).1.returned] at returned
    contradiction
  · have bound : (k : Int) < kLevels := by exact_mod_cast k.isLt
    have size : (kLevels : Int) = 16384 := rfl
    have located := (level_wrapped book p low high k).mpr (by omega)
    refine ⟨add_acts book side p qty k located,reduce_acts book side p qty k located,?_⟩
    simp only [qtyAt,located]
  · have located := level_outside book p low high outside plain
    refine ⟨add_refuses book side p qty located,reduce_refuses book side p qty located,?_⟩
    simp only [qtyAt,located]

theorem keepsBand_iff_below : KeepsBand ((init {} 10000).calls [.add .buy 10000 5])
    ((1807 : Int64).toInt - ((10000 : Int64).toInt - kHalf)) .sell 1807 9 :=
  (keepsBand_iff {} 10000 [.add .buy 10000 5] .sell 1807 9 (by decide) (by decide) (by decide)).mpr (by decide)

/-- A bid 2^32 ticks above the lowest level of the band is accepted into that level. -/
theorem far_price_accepted :
    ((init {} 10000).add .buy 4294969104 5).1 = true ∧
    ((init {} 10000).add .buy 4294969104 5).2.bidQty ⟨0,by decide⟩ = 5 ∧
    ¬KeepsBand (init {} 10000) ((4294969104 : Int64).toInt - ((10000 : Int64).toInt - kHalf)) .buy 4294969104 5 := by
  refine ⟨by decide,by decide,fun keeps => ?_⟩
  have returned := (keeps.outside (by decide)).1.returned
  exact absurd returned (by decide)

end MarketFeed.OrderBook
