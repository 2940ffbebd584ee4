import MarketFeed.Nbbo

/-! The size of a published quote. The quote is the touch of the first venue at the best price,
with the level narrowed to 32 bits. -/
namespace MarketFeed.NbboAggregator
open OrderBook

def hasTouch : Side → OrderBook → Bool
  | .buy => hasBid
  | .sell => hasAsk

def touchTicks : Side → OrderBook → Int64
  | .buy => bestBidTicks
  | .sell => bestAskTicks

def touchQty : Side → OrderBook → Int64
  | .buy => bestBidQty
  | .sell => bestAskQty

/-- Venue `n` stands first among those with the best touch of a side. -/
structure Foremost (side : Side) (venues : List OrderBook) (n : Nat) (b : OrderBook) : Prop where
  here : venues[n]? = some b
  shown : hasTouch side b = true
  best : ∀ c ∈ venues, hasTouch side c = true →
    rank side (touchTicks side c).toInt ≤ rank side (touchTicks side b).toInt
  first : ∀ m c, m < n → venues[m]? = some c → hasTouch side c = true →
    rank side (touchTicks side c).toInt < rank side (touchTicks side b).toInt

section Touch
variable (side : Side)

theorem sideQuote_shown (b : OrderBook) (venueId : Int32) (shown : hasTouch side b = true) :
    sideQuote side b venueId = ⟨venueId,touchTicks side b,narrow (touchQty side b),true⟩ := by
  cases side with
  | buy => exact if_pos shown
  | sell => exact if_pos shown

theorem sideQuote_valid (b : OrderBook) (venueId : Int32) :
    (sideQuote side b venueId).valid = hasTouch side b := by
  by_cases shown : hasTouch side b = true
  · rw [sideQuote_shown side b venueId shown,shown]
  · rw [Bool.eq_false_of_not_eq_true shown]
    cases side with
    | buy => exact congrArg Quote.valid (if_neg shown)
    | sell => exact congrArg Quote.valid (if_neg shown)

theorem level_touch (b : OrderBook) (k : Fin kLevels) : b.level (b.basePrice + Int64.ofInt (k : Nat)) = some k := by
  have bound := k.isLt
  have size : kLevels = 16384 := rfl
  have idx : b.indexOf (b.basePrice + Int64.ofInt (k : Nat)) = (k : Nat) := by
    rw [indexOf,Int64.toInt_toInt32,Int64.add_comm,Int64.add_sub_cancel,Int64.toInt_ofInt_of_le (by omega) (by omega)]
    exact Int.bmod_eq_of_le (by omega) (by omega)
  simp [level,idx]

theorem touch_level {b : OrderBook} (top : b.TopOfBook) (shown : hasTouch side b = true) :
    0 < (touchQty side b).toInt ∧ b.qtyAt side (touchTicks side b) = touchQty side b := by
  cases side with
  | buy =>
    refine ⟨top.readings.bidQty_pos shown,?_⟩
    rcases bidBest_cases top.bidBest with ⟨none_,_⟩ | ⟨k,best,_⟩
    · simp [hasTouch,hasBid,none_] at shown
    · simp only [touchTicks,touchQty,bestBidTicks,bestBidQty,qtyAt,best,level_touch,readAt_coe]
      exact (if_pos shown).symm
  | sell =>
    refine ⟨top.readings.askQty_pos shown,?_⟩
    rcases askBest_cases top.askBest with ⟨none_,_⟩ | ⟨k,best,_⟩
    · simp [hasTouch,hasAsk,none_] at shown
    · simp only [touchTicks,touchQty,bestAskTicks,bestAskQty,qtyAt,best,level_touch,readAt_coe]
      exact (if_pos shown).symm

end Touch

theorem narrow_toNat (q : Int64) (nonneg : 0 ≤ q.toInt) : ((narrow q).toNat : Int) = q.toInt % 2^32 := by
  have whole : q.toUInt64.toNat = q.toInt.toNat :=
    Int64.toNat_toUInt64_of_le (Int64.le_iff_toInt_le.mpr (by simpa using nonneg))
  rw [narrow,UInt64.toNat_toUInt32,whole]
  omega

theorem ofNat_toInt (n m : Nat) (same : (Int32.ofNat n).toInt = m) : m ≤ n ∧ m < 2^31 := by
  rw [Int32.toInt_ofNat'] at same
  have wrapped := Int.bmod_def n Int32.size
  have size : Int32.size = 2^32 := rfl
  rw [size] at wrapped same
  split at wrapped <;> omega

theorem Foremost.unique {side : Side} {venues : List OrderBook} {n m : Nat} {b c : OrderBook}
    (one : Foremost side venues n b) (two : Foremost side venues m c) : n = m := by
  rcases Nat.lt_trichotomy n m with earlier | same | later
  · have behind := two.first n b earlier one.here one.shown
    exact absurd (one.best c (List.mem_of_getElem? two.here) two.shown) (not_le.mpr behind)
  · exact same
  · have behind := one.first m c later two.here two.shown
    exact absurd (two.best b (List.mem_of_getElem? one.here) one.shown) (not_le.mpr behind)

/-- The consolidated quote is the touch of the foremost venue. -/
theorem sideBest_foremost (side : Side) (venues : List OrderBook) :
    (sideBest side venues = {} ∧ ∀ b ∈ venues, hasTouch side b = false) ∨
      ∃ n b, Foremost side venues n b ∧
        sideBest side venues = ⟨Int32.ofNat n,touchTicks side b,narrow (touchQty side b),true⟩ := by
  rw [sideBest_eq]
  unfold consolidate
  rcases Leader.scan_leads Quote.valid (sideBeats side) (beats_iff side) {} rfl
    (quotes (sideQuote side) venues) with ⟨same,void⟩ | leads
  · refine Or.inl ⟨same,fun b member => ?_⟩
    obtain ⟨n,here⟩ := List.mem_iff_getElem?.mp member
    rw [← sideQuote_valid side b (Int32.ofNat n)]
    exact void _ (mem_quotes.mpr ⟨n,b,here,rfl⟩)
  · obtain ⟨before,after,split,first⟩ := leads.place
    have counts := leads.counts
    have best := leads.best
    generalize Leader.scan Quote.valid (sideBeats side) {} (quotes (sideQuote side) venues) = quote at *
    obtain ⟨b,here,rfl⟩ := quotes_named split
    rw [sideQuote_valid] at counts
    have shown (m : Nat) (c : OrderBook) (touch : hasTouch side c = true) :=
      sideQuote_shown side c (Int32.ofNat m) touch
    rw [shown before.length b counts] at best first ⊢
    refine Or.inr ⟨before.length,b,⟨here,counts,fun c member touch => ?_,fun m c earlier there touch => ?_⟩,rfl⟩
    · obtain ⟨m,there⟩ := List.mem_iff_getElem?.mp member
      have behind := best _ (mem_quotes.mpr ⟨m,c,there,rfl⟩)
      rw [shown m c touch] at behind
      exact behind rfl
    · have behind := first _ (quotes_before split there earlier)
      rw [shown m c touch] at behind
      exact behind rfl

/-- A valid quote names a venue whose touch it is and carries the whole level. -/
def TrueSize (side : Side) (venues : List OrderBook) (quote : Quote) : Prop :=
  quote.valid = true → ∃ (n : Nat) (b : OrderBook), quote.venueId.toInt = n ∧ venues[n]? = some b ∧
    hasTouch side b = true ∧ quote.priceTicks = touchTicks side b ∧
    quote.qty.toNat = (b.qtyAt side quote.priceTicks).toInt ∧ 1 ≤ quote.qty.toNat

def SmallTouch (side : Side) (venues : List OrderBook) : Prop :=
  ∀ n b, Foremost side venues n b → n < 2^31 ∧ (touchQty side b).toInt < 2^32

theorem trueSize_iff (side : Side) (venues : List OrderBook) (top : ∀ b ∈ venues, b.TopOfBook) :
    TrueSize side venues (sideBest side venues) ↔ SmallTouch side venues := by
  rcases sideBest_foremost side venues with ⟨same,void⟩ | ⟨n,b,foremost,same⟩
  · rw [same]
    refine ⟨fun _ n b foremost => ?_,fun _ contra => by simp at contra⟩
    have hidden := void b (List.mem_of_getElem? foremost.here)
    rw [foremost.shown] at hidden
    contradiction
  · obtain ⟨positive,level⟩ := touch_level side (top b (List.mem_of_getElem? foremost.here)) foremost.shown
    have narrowed := narrow_toNat (touchQty side b) positive.le
    rw [same]
    refine ⟨fun sized m c other => ?_,fun small _ => ?_⟩
    · obtain rfl := foremost.unique other
      obtain rfl : b = c := Option.some.inj (foremost.here.symm.trans other.here)
      obtain ⟨m,c,named,there,shown,price,qty,_⟩ := sized rfl
      obtain ⟨le,bound⟩ := ofNat_toInt n m named
      -- an earlier venue named by a wrapped index would show the same touch
      rcases Nat.lt_or_eq_of_le le with earlier | rfl
      · have behind := foremost.first m c earlier there shown
        rw [← price] at behind
        exact absurd behind (lt_irrefl _)
      · obtain rfl : b = c := Option.some.inj (foremost.here.symm.trans there)
        simp only [level] at qty
        exact ⟨bound,by omega⟩
    · obtain ⟨bound,fits⟩ := small n b foremost
      refine ⟨n,b,Int32.toInt_ofNat_of_lt bound,foremost.here,foremost.shown,rfl,?_,?_⟩
      · simp only [level]
        omega
      · simp only
        omega

/-- A quote carries its level's true size exactly when the first venue at the best touch holds
less than 2^32 there and has an index that an `int` can name. -/
theorem quote_size_iff (venues : List OrderBook) (reached : ∀ b ∈ venues, b.Reached) :
    (TrueSize .buy venues (bestBid venues) ↔ SmallTouch .buy venues) ∧
    (TrueSize .sell venues (bestOffer venues) ↔ SmallTouch .sell venues) := by
  have top : ∀ b ∈ venues, b.TopOfBook := fun b member => (reached b member).topOfBook
  exact ⟨trueSize_iff .buy venues top,trueSize_iff .sell venues top⟩

theorem quote_size_iff_one : TrueSize .buy [bidding 9999 5] (bestBid [bidding 9999 5]) := by
  have reached : ∀ b ∈ [bidding 9999 5], b.Reached := by simp [bidding_reached]
  refine (quote_size_iff [bidding 9999 5] reached).1.mpr fun n b foremost => ?_
  have inside := (List.getElem?_eq_some_iff.mp foremost.here).1
  obtain rfl : n = 0 := by simpa using inside
  obtain rfl : bidding 9999 5 = b := Option.some.inj foremost.here
  exact ⟨by decide,by decide⟩

/-- Two bids of 2^32 together are published with size 0. -/
theorem full_touch_reads_empty :
    let venue := (init {} 10000).calls [.add .buy 10000 4294967295,.add .buy 10000 1]
    venue.Reached ∧ venue.qtyAt .buy 10000 = 4294967296 ∧
    bestBid [venue] = ⟨0,10000,0,true⟩ ∧ ¬TrueSize .buy [venue] (bestBid [venue]) := by
  intro venue
  have reached : venue.Reached := reached_of_short {} 10000 _ (by simp) (by simp)
  have shown : venue.hasBid = true := by decide
  have quote : bestBid [venue] = ⟨0,10000,0,true⟩ := by
    rw [best_single venue shown]
    decide
  refine ⟨reached,by decide,quote,fun sized => ?_⟩
  obtain ⟨_,_,_,_,_,_,_,positive⟩ := sized (by rw [quote])
  rw [quote] at positive
  exact absurd positive (by decide)

end MarketFeed.NbboAggregator
