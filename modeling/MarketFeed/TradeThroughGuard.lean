import MarketFeed.Nbbo

/-! The guard that rejects an outbound order which would trade through a better quote of
another venue. -/
namespace MarketFeed
open OrderBook NbboAggregator

structure OutboundOrder where
  side : Side
  limitPriceTicks : Int64
  qty : UInt32
  venueId : Int32

inductive GuardDecision where
  | accepted
  | rejectedTradeThrough
  | rejectedNoLiquidity
  deriving DecidableEq, Repr

structure GuardResult where
  decision : GuardDecision
  betterQuote : Option Quote := none
  ownTouchTicks : Int64 := 0
  deriving DecidableEq, Repr

namespace TradeThroughGuard

/-- `venues[order.venue_id]`, none where the source reads outside the vector. -/
def own (order : OutboundOrder) (venues : List OrderBook) : Option OrderBook :=
  if order.venueId < 0 then none else venues[order.venueId.toInt.toNat]?

def evaluate (order : OutboundOrder) (venues : List OrderBook) : Option GuardResult :=
  (own order venues).map fun own =>
    match order.side with
    | .buy =>
      if !own.hasAsk then { decision := .rejectedNoLiquidity }
      else
        let ownTouch := own.bestAskTicks
        if order.limitPriceTicks < ownTouch then { decision := .accepted, ownTouchTicks := ownTouch }
        else
          let nbo := bestOffer venues
          if nbo.valid && nbo.venueId != order.venueId && decide (nbo.priceTicks < ownTouch) then
            { decision := .rejectedTradeThrough, betterQuote := some nbo, ownTouchTicks := ownTouch }
          else { decision := .accepted, ownTouchTicks := ownTouch }
    | .sell =>
      if !own.hasBid then { decision := .rejectedNoLiquidity }
      else
        let ownTouch := own.bestBidTicks
        if order.limitPriceTicks > ownTouch then { decision := .accepted, ownTouchTicks := ownTouch }
        else
          let nbb := bestBid venues
          if nbb.valid && nbb.venueId != order.venueId && decide (nbb.priceTicks > ownTouch) then
            { decision := .rejectedTradeThrough, betterQuote := some nbb, ownTouchTicks := ownTouch }
          else { decision := .accepted, ownTouchTicks := ownTouch }

/-- The side an order trades against. -/
def against : Side → Side
  | .buy => .sell
  | .sell => .buy

/-- A price of the quoting side that beats another: a lower ask, a higher bid. -/
def Beats : Side → Int → Int → Prop
  | .buy,p,t => t < p
  | .sell,p,t => p < t

/-- The limit reaches the touch. -/
def Marketable : Side → Int → Int → Prop
  | .buy,limit,touch => touch ≤ limit
  | .sell,limit,touch => limit ≤ touch

/-- Another venue shows a price that beats the order's own touch. -/
def BetterElsewhere (order : OutboundOrder) (venues : List OrderBook) (touch : Int) : Prop :=
  ∃ (n : Nat) (b : OrderBook) (p : Int), venues[n]? = some b ∧ (n : Int) ≠ order.venueId.toInt ∧ p ∈ b.prices (against order.side) ∧
    Beats (against order.side) p touch

/-- The quote a rejection names. -/
structure NamesBetter (order : OutboundOrder) (venues : List OrderBook) (result : GuardResult) (quote : Quote) :
    Prop where
  named : result.betterQuote = some quote
  other : quote.venueId ≠ order.venueId
  shown : ∃ (n : Nat) (b : OrderBook), venues[n]? = some b ∧ quote.venueId.toInt = n ∧
    quote.priceTicks.toInt ∈ b.prices (against order.side)
  beats : Beats (against order.side) quote.priceTicks.toInt result.ownTouchTicks.toInt
  best : ∀ b ∈ venues, ∀ p ∈ b.prices (against order.side),
    ¬Beats (against order.side) p quote.priceTicks.toInt

/-- The decision in terms of the levels of every venue. -/
structure Guards (order : OutboundOrder) (venues : List OrderBook) (own : OrderBook) (result : GuardResult) :
    Prop where
  noLiquidity : result.decision = .rejectedNoLiquidity ↔ own.prices (against order.side) = ∅
  tradeThrough : ∀ touch, IsBest (against order.side) (own.prices (against order.side)) touch →
    (result.decision = .rejectedTradeThrough ↔
      Marketable order.side order.limitPriceTicks.toInt touch ∧ BetterElsewhere order venues touch)
  accepted : ∀ touch, IsBest (against order.side) (own.prices (against order.side)) touch →
    (result.decision = .accepted ↔
      ¬(Marketable order.side order.limitPriceTicks.toInt touch ∧ BetterElsewhere order venues touch))
  names : result.decision = .rejectedTradeThrough → ∃ quote, NamesBetter order venues result quote
  best : (sideBest (against order.side) venues).valid = true →
    order.venueId = (sideBest (against order.side) venues).venueId → result.decision ≠ .rejectedTradeThrough

theorem beats_rank (side : Side) (p t : Int) : Beats side p t ↔ rank side t < rank side p := by
  cases side <;> simp [Beats,rank]

theorem marketable_rank (side : Side) (limit touch : Int) :
    Marketable side limit touch ↔ ¬rank (against side) touch < rank (against side) limit := by
  cases side <;> simp [Marketable,rank,against]

/-- Both branches of `evaluate` at once. -/
def judge (order : OutboundOrder) (touch best : Quote) : GuardResult :=
  if touch.valid = false then { decision := .rejectedNoLiquidity }
  else if rank (against order.side) touch.priceTicks.toInt <
      rank (against order.side) order.limitPriceTicks.toInt then
    { decision := .accepted, ownTouchTicks := touch.priceTicks }
  else if best.valid = true ∧ best.venueId ≠ order.venueId ∧
      rank (against order.side) touch.priceTicks.toInt < rank (against order.side) best.priceTicks.toInt then
    { decision := .rejectedTradeThrough, betterQuote := some best, ownTouchTicks := touch.priceTicks }
  else { decision := .accepted, ownTouchTicks := touch.priceTicks }

theorem evaluate_judge (order : OutboundOrder) (venues : List OrderBook) :
    evaluate order venues = (own order venues).map fun own =>
      judge order (sideQuote (against order.side) own order.venueId) (sideBest (against order.side) venues) := by
  unfold evaluate
  refine congrArg (Option.map · _) (funext fun own => ?_)
  unfold judge
  cases side : order.side with
  | buy =>
    cases shown : own.hasAsk with
    | false => simp [against,sideQuote,askQuote,shown]
    | true =>
      simp [against,sideQuote,sideBest,askQuote,shown,rank,Int64.lt_iff_toInt_lt,and_assoc]
  | sell =>
    cases shown : own.hasBid with
    | false => simp [against,sideQuote,bidQuote,shown]
    | true =>
      simp [against,sideQuote,sideBest,bidQuote,shown,rank,Int64.lt_iff_toInt_lt,and_assoc]

theorem evaluate_home (order : OutboundOrder) (venues : List OrderBook) (n : Nat) (book : OrderBook)
    (home : venues[n]? = some book) (index : order.venueId.toInt = n) : evaluate order venues =
      some (judge order (sideQuote (against order.side) book order.venueId) (sideBest (against order.side) venues)) := by
  have located : own order venues = some book := by
    have nonneg : ¬order.venueId < 0 := by
      rw [Int32.lt_iff_toInt_lt,index]
      exact not_lt.mpr (Int.natCast_nonneg n)
    rw [own,if_neg nonneg,index]
    exact home
  rw [evaluate_judge,located,Option.map_some]

theorem judge_liquid (order : OutboundOrder) (touch best : Quote) (counts : touch.valid = true) :
    (judge order touch best).decision ≠ .rejectedNoLiquidity := by
  unfold judge
  simp only [counts,Bool.true_eq_false,if_false]
  split
  · simp
  · split <;> simp

section Judge
variable {order : OutboundOrder} {venues : List OrderBook} {own : OrderBook} {touch best : Quote} {n : Nat}
  (home : venues[n]? = some own) (index : order.venueId.toInt = n)
  (shows : Shows own (against order.side) order.venueId touch) (nbbo : Nbbo (against order.side) venues best)
include home index shows nbbo

/-- The best quote beats the own touch exactly when some other venue does. -/
theorem betterElsewhere_iff (counts : touch.valid = true) :
    BetterElsewhere order venues touch.priceTicks.toInt ↔ best.valid = true ∧ best.venueId ≠ order.venueId ∧
      rank (against order.side) touch.priceTicks.toInt < rank (against order.side) best.priceTicks.toInt := by
  obtain ⟨_,own_best⟩ := (isBest_iff _ _ _).mp (shows.price counts)
  refine ⟨?_,?_⟩
  · rintro ⟨k,b,p,there,other,inside,beats⟩
    rw [beats_rank] at beats
    have valid := nbbo.valid_iff.mpr ⟨b,List.mem_of_getElem? there,p,inside⟩
    have above := ((isBest_iff _ _ _).mp (nbbo.price valid)).2 p ⟨b,List.mem_of_getElem? there,inside⟩
    refine ⟨valid,fun same => ?_,by omega⟩
    obtain ⟨m,b',place,held,priced⟩ := (nbbo.venue valid).1
    rw [same,index] at place
    obtain rfl : n = m := by omega
    rw [home] at held
    obtain rfl := Option.some.inj held
    have behind := own_best _ priced
    omega
  · rintro ⟨valid,other,better⟩
    obtain ⟨m,b,place,there,priced⟩ := (nbbo.venue valid).1
    refine ⟨m,b,_,there,fun same => other ?_,priced,(beats_rank _ _ _).mpr better⟩
    exact Int32.toInt_inj.mp (place.trans same)

theorem judge_tradeThrough (counts : touch.valid = true) :
    (judge order touch best).decision = .rejectedTradeThrough ↔
      Marketable order.side order.limitPriceTicks.toInt touch.priceTicks.toInt ∧
        BetterElsewhere order venues touch.priceTicks.toInt := by
  rw [marketable_rank,betterElsewhere_iff home index shows nbbo counts]
  unfold judge
  simp only [counts,Bool.true_eq_false,if_false]
  split
  next resting => simp [resting]
  next marketable =>
    split
    next better => exact ⟨fun _ => ⟨marketable,better⟩,fun _ => rfl⟩
    next fair => exact ⟨by simp,fun both => absurd both.2 fair⟩

omit home index shows in
theorem judge_names (rejected : (judge order touch best).decision = .rejectedTradeThrough) :
    NamesBetter order venues (judge order touch best) best := by
  unfold judge at rejected ⊢
  split at rejected
  next => contradiction
  next counts =>
    split at rejected
    next => contradiction
    next marketable =>
      split at rejected
      next better =>
        rw [if_neg counts,if_neg marketable,if_pos better]
        obtain ⟨m,b,place,there,priced⟩ := (nbbo.venue better.1).1
        refine ⟨rfl,better.2.1,⟨m,b,there,place,priced⟩,(beats_rank _ _ _).mpr better.2.2,?_⟩
        intro other member p inside beats
        have behind := ((isBest_iff _ _ _).mp (nbbo.price better.1)).2 p ⟨other,member,inside⟩
        exact absurd ((beats_rank _ _ _).mp beats) (not_lt.mpr behind)
      next => contradiction

theorem judge_guards (nbboVenue : best = sideBest (against order.side) venues) :
    Guards order venues own (judge order touch best) := by
  have named : (judge order touch best).decision = .rejectedTradeThrough →
      NamesBetter order venues (judge order touch best) best := judge_names nbbo
  have chosen : (sideBest (against order.side) venues).valid = true →
      order.venueId = (sideBest (against order.side) venues).venueId →
        (judge order touch best).decision ≠ .rejectedTradeThrough := by
    intro _ same rejected
    rw [← nbboVenue] at same
    exact (named rejected).other same.symm
  by_cases counts : touch.valid = true
  · have liquid := judge_liquid order touch best counts
    have through := judge_tradeThrough home index shows nbbo counts
    have filled := shows.valid_iff.mp counts
    have touches (t : Int) (best : IsBest (against order.side) (own.prices (against order.side)) t) :
        t = touch.priceTicks.toInt := by
      obtain ⟨here,above⟩ := (isBest_iff _ _ _).mp best
      obtain ⟨here',above'⟩ := (isBest_iff _ _ _).mp (shows.price counts)
      exact rank_injective _ _ _ (le_antisymm (above' t here) (above _ here'))
    refine ⟨⟨fun contra => absurd contra liquid,fun empty => absurd empty filled.ne_empty⟩,?_,?_,
      fun rejected => ⟨best,named rejected⟩,chosen⟩
    · intro t best
      rw [touches t best]
      exact through
    · intro t best
      rw [touches t best,← through]
      cases decided : (judge order touch _).decision with
      | accepted => simp
      | rejectedTradeThrough => simp
      | rejectedNoLiquidity => exact absurd decided liquid
  · have empty : own.prices (against order.side) = ∅ :=
      Set.not_nonempty_iff_eq_empty.mp (mt shows.valid_iff.mpr counts)
    have nowhere (t : Int) (best : IsBest (against order.side) (own.prices (against order.side)) t) : False := by
      have here := ((isBest_iff _ _ _).mp best).1
      rw [empty] at here
      exact here
    have decided : (judge order touch best).decision = .rejectedNoLiquidity := by
      simp [judge,counts]
    exact ⟨⟨fun _ => empty,fun _ => decided⟩,fun t best => (nowhere t best).elim,fun t best => (nowhere t best).elim,
      fun rejected => ⟨best,named rejected⟩,chosen⟩

end Judge

/-- An order whose venue is in the vector is judged by the levels of all venues. -/
theorem guard_exact (order : OutboundOrder) (venues : List OrderBook) (reached : ∀ b ∈ venues, b.Reached)
    (fit : ∀ b ∈ venues, b.PricesFit) (few : venues.length ≤ 2^31) (n : Nat) (book : OrderBook)
    (home : venues[n]? = some book) (index : order.venueId.toInt = n) :
    ∃ result, evaluate order venues = some result ∧ Guards order venues book result := by
  have top : ∀ b ∈ venues, b.TopOfBook := fun b member => (reached b member).topOfBook
  have member := List.mem_of_getElem? home
  refine ⟨_,evaluate_home order venues n book home index,?_⟩
  exact judge_guards home index (shows_quote (top _ member) (fit _ member) _ _)
    (consolidate_nbbo top fit few _) rfl

theorem guard_exact_sell :
    ∃ result, evaluate ⟨.sell,9000,5,0⟩ [bidding 9999 5,bidding 10001 3] = some result ∧
      Guards ⟨.sell,9000,5,0⟩ [bidding 9999 5,bidding 10001 3] (bidding 9999 5) result :=
  guard_exact ⟨.sell,9000,5,0⟩ [bidding 9999 5,bidding 10001 3] (by simp [bidding_reached])
    (by simp [bidding_reached]) (by decide) 0 _ rfl (by decide)

/-- The same three ways in which a quote is not its levels mislead the guard: liquidity seen where
none is, a rejection for a worse price, a better quote that names no venue. -/
theorem guard_fails :
    ((∀ side p, Call.add side p 0 ∉ List.replicate (2^31 + 1) (Call.add .buy 10000 4294967295)) ∧
      ¬∃ result, evaluate ⟨.sell,0,5,0⟩ [filled (2^31 + 1)] = some result ∧
        Guards ⟨.sell,0,5,0⟩ [filled (2^31 + 1)] (filled (2^31 + 1)) result) ∧
    ((edge.Reached ∧ (bidding 10000 5).Reached) ∧
      ¬∃ result, evaluate ⟨.sell,-9223372036854775808,5,0⟩ [edge,bidding 10000 5] = some result ∧
        Guards ⟨.sell,-9223372036854775808,5,0⟩ [edge,bidding 10000 5] edge result) ∧
    ((∀ b ∈ crowd, b.Reached ∧ b.PricesFit) ∧
      ¬∃ result, evaluate ⟨.sell,0,5,0⟩ crowd = some result ∧
        Guards ⟨.sell,0,5,0⟩ crowd (bidding 9999 5) result) := by
  refine ⟨⟨filled_positive,?_⟩,⟨⟨edge_reached,(bidding_reached 10000 5 (by decide)).1⟩,?_⟩,crowd_reached,?_⟩
  · rintro ⟨result,evaluated,guards⟩
    obtain ⟨shown,empty⟩ := filled_void
    rw [evaluate_home _ _ 0 (filled (2^31 + 1)) rfl rfl] at evaluated
    have counts : (bidQuote (filled (2^31 + 1)) 0).valid = true := by rw [bidQuote,if_pos shown]
    have liquid := judge_liquid ⟨.sell,0,5,0⟩ _ (bestBid [filled (2^31 + 1)]) counts
    have decided := guards.noLiquidity.mpr empty
    rw [← Option.some.inj evaluated] at decided
    exact liquid decided
  · rintro ⟨result,evaluated,guards⟩
    have rejected : evaluate ⟨.sell,-9223372036854775808,5,0⟩ [edge,bidding 10000 5] =
        some ⟨.rejectedTradeThrough,some ⟨1,10000,5,true⟩,-9223372036854775808⟩ := by decide
    obtain rfl := Option.some.inj (rejected.symm.trans evaluated)
    obtain ⟨quote,named⟩ := guards.names rfl
    obtain rfl := Option.some.inj named.named
    have above : edge.basePrice.toInt + (8192 : Nat) ∈ edge.prices .buy := ⟨⟨8192,by decide⟩,by decide,rfl⟩
    exact named.best edge (by simp) _ above (by decide : (10000 : Int) < edge.basePrice.toInt + (8192 : Nat))
  · rintro ⟨result,evaluated,guards⟩
    have first : crowd[0]? = some (bidding 9999 5) := by
      rw [crowd,List.cons_append]
      rfl
    rw [evaluate_home _ _ 0 _ first rfl] at evaluated
    have judged : judge ⟨.sell,0,5,0⟩ (bidQuote (bidding 9999 5) 0) (bestBid crowd) =
        ⟨.rejectedTradeThrough,some (bidQuote (bidding 10001 3) (Int32.ofNat (2^31))),9999⟩ := by
      rw [crowd_best]
      decide
    obtain rfl := judged.symm.trans (Option.some.inj evaluated)
    obtain ⟨quote,named⟩ := guards.names rfl
    obtain rfl := Option.some.inj named.named
    obtain ⟨n,_,_,index,_⟩ := named.shown
    have wrapped : (bidQuote (bidding 10001 3) (Int32.ofNat (2^31))).venueId.toInt = -2147483648 := by decide
    omega

end TradeThroughGuard
end MarketFeed
