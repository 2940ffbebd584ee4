import MarketFeed.VenueMarket
import MarketFeed.TradeThroughGuard

/-! The guard over venues that take turns: it decides on an outbound order by what the
generators keep live. -/
namespace MarketFeed.TradeThroughGuard
open VenueFeed NbboAggregator VenueMarket MarketSimulator

/-- Another venue's generator keeps an order live at a price that beats the order's own touch. -/
def BetterFlow (order : OutboundOrder) (venues : List VenueFeed) (touch : Int) : Prop :=
  ∃ (n : Nat) (v : VenueFeed) (p : Int), venues[n]? = some v ∧ (n : Int) ≠ order.venueId.toInt ∧
    p ∈ v.livePrices (against order.side) ∧ Beats (against order.side) p touch

/-- The decision in terms of the live orders; a rejection names the best of them. -/
structure FlowGuards (order : OutboundOrder) (venues : List VenueFeed) (own : VenueFeed) (result : GuardResult) :
    Prop where
  noLiquidity : result.decision = .rejectedNoLiquidity ↔ own.livePrices (against order.side) = ∅
  touch : result.decision ≠ .rejectedNoLiquidity →
    IsBest (against order.side) (own.livePrices (against order.side)) result.ownTouchTicks.toInt
  tradeThrough : result.decision = .rejectedTradeThrough ↔ ∃ touch,
    IsBest (against order.side) (own.livePrices (against order.side)) touch ∧
      Marketable order.side order.limitPriceTicks.toInt touch ∧ BetterFlow order venues touch
  named : result.decision = .rejectedTradeThrough → ∃ quote, result.betterQuote = some quote ∧
    FlowQuote (against order.side) venues quote ∧ quote.valid = true ∧ quote.venueId ≠ order.venueId ∧
      Beats (against order.side) quote.priceTicks.toInt result.ownTouchTicks.toInt
  unnamed : result.decision ≠ .rejectedTradeThrough → result.betterQuote = none

/-- What `judge` puts beside its decision. -/
theorem judge_fields (order : OutboundOrder) (touch best : Quote) :
    ((judge order touch best).decision ≠ .rejectedNoLiquidity →
      touch.valid = true ∧ (judge order touch best).ownTouchTicks = touch.priceTicks) ∧
    ((judge order touch best).decision = .rejectedTradeThrough →
      (judge order touch best).betterQuote = some best ∧ best.valid = true) ∧
    ((judge order touch best).decision ≠ .rejectedTradeThrough → (judge order touch best).betterQuote = none) := by
  unfold judge
  split
  next => simp
  next counts =>
    rw [Bool.not_eq_false] at counts
    split
    next => simp [counts]
    next =>
      split
      next better => simp [counts,better.1]
      next => simp [counts]

theorem betterFlow_iff {venues : List VenueFeed} (quotes : ∀ v ∈ venues, v.Quotes) (order : OutboundOrder)
    (touch : Int) : BetterElsewhere order (books venues) touch ↔ BetterFlow order venues touch := by
  refine ⟨?_,?_⟩
  · rintro ⟨n,b,p,there,other,inside,beats⟩
    obtain ⟨v,found,rfl,own⟩ := books_get quotes there
    rw [own.prices] at inside
    exact ⟨n,v,p,found,other,inside,beats⟩
  · rintro ⟨n,v,p,found,other,inside,beats⟩
    rw [← (quotes v (List.mem_of_getElem? found)).prices] at inside
    exact ⟨n,v.book,p,by simp [books,found],other,inside,beats⟩

section Flows
variable {venues : List VenueFeed} (quotes : ∀ v ∈ venues, v.Quotes) (few : venues.length ≤ 2^31)
  (order : OutboundOrder) {n : Nat} {v : VenueFeed} (home : venues[n]? = some v) (index : order.venueId.toInt = n)
include quotes few home index

theorem flowGuards : ∃ result, evaluate order (books venues) = some result ∧ FlowGuards order venues v result := by
  have top : ∀ b ∈ books venues, b.TopOfBook := fun b member => (books_top quotes b member).1
  have fit : ∀ b ∈ books venues, b.PricesFit := fun b member => (books_top quotes b member).2
  have length : (books venues).length ≤ 2^31 := by rwa [books,List.length_map]
  have housed : (books venues)[n]? = some v.book := by simp [books,home]
  have member := List.mem_of_getElem? housed
  have shows := shows_quote (top _ member) (fit _ member) (against order.side) order.venueId
  have nbbo := consolidate_nbbo top fit length (against order.side)
  have guards := judge_guards housed index shows nbbo rfl
  obtain ⟨touched,better,plain⟩ := judge_fields order (sideQuote (against order.side) v.book order.venueId)
    (sideBest (against order.side) (books venues))
  have names (rejected : (judge order (sideQuote (against order.side) v.book order.venueId)
      (sideBest (against order.side) (books venues))).decision = .rejectedTradeThrough) := judge_names nbbo rejected
  refine ⟨_,evaluate_home order _ n v.book housed index,?_⟩
  generalize judge order (sideQuote (against order.side) v.book order.venueId)
    (sideBest (against order.side) (books venues)) = result at guards touched better plain names
  have own := (quotes v (List.mem_of_getElem? home)).prices (against order.side)
  have best (liquid : result.decision ≠ .rejectedNoLiquidity) :
      IsBest (against order.side) (v.livePrices (against order.side)) result.ownTouchTicks.toInt := by
    obtain ⟨counts,ticks⟩ := touched liquid
    rw [ticks,← own]
    exact shows.price counts
  refine ⟨by rw [guards.noLiquidity,own],best,⟨fun rejected => ?_,?_⟩,fun rejected => ?_,plain⟩
  · have priced := best (by simp [rejected])
    have through := (guards.tradeThrough _ (own ▸ priced)).mp rejected
    exact ⟨_,priced,through.1,(betterFlow_iff quotes order _).mp through.2⟩
  · rintro ⟨touch,priced,marketable,flow⟩
    exact (guards.tradeThrough touch (own ▸ priced)).mpr ⟨marketable,(betterFlow_iff quotes order touch).mpr flow⟩
  · obtain ⟨quoted,valid⟩ := better rejected
    exact ⟨_,quoted,flowQuote quotes few _,valid,(names rejected).other,(names rejected).beats⟩

end Flows

/-- However the venues take turns, the guard rejects exactly the orders that would trade through
an order which another venue's generator keeps live. -/
theorem guard_shows_flows (engines : List (Nat → Draw)) (reference : Int64) (turns : List Nat)
    (placed : 0 ≤ reference.toInt ∧ reference.toInt ≤ 2^30) (short : ∀ i < engines.length, turns.count i ≤ 8589934)
    (few : engines.length ≤ 2^31) (order : OutboundOrder) (n : Nat) (inside : n < engines.length)
    (index : order.venueId.toInt = n) :
    ∃ v result, (session engines reference turns)[n]? = some v ∧
      evaluate order (books (session engines reference turns)) = some result ∧
      FlowGuards order (session engines reference turns) v result := by
  have quotes := session_quotes engines reference turns placed short
  have length : (session engines reference turns).length ≤ 2^31 := by rwa [session_length]
  rw [← session_length engines reference turns] at inside
  obtain ⟨result,decided,guards⟩ := flowGuards quotes length order (List.getElem?_eq_getElem inside) index
  exact ⟨_,result,List.getElem?_eq_getElem inside,decided,guards⟩

/-- The own venue asks 24901, the other one 24821. -/
theorem guard_shows_flows_rejected :
    let venues := session [engine 0,engine 3] 25000 [1,0,1,0,1,0,1,0]
    ∃ v result, venues[0]? = some v ∧ evaluate ⟨.buy,24910,100,0⟩ (books venues) = some result ∧
      result.decision = .rejectedTradeThrough ∧ FlowGuards ⟨.buy,24910,100,0⟩ venues v result := by
  intro venues
  have decided : (evaluate ⟨.buy,24910,100,0⟩ (books venues)).map (fun result => result.decision) =
      some .rejectedTradeThrough := by decide +kernel
  obtain ⟨v,result,home,evaluated,guards⟩ := guard_shows_flows [engine 0,engine 3] 25000 [1,0,1,0,1,0,1,0] (by decide)
    (fun _ _ => List.count_le_length.trans (by decide)) (by decide) ⟨.buy,24910,100,0⟩ 0 (by decide) (by decide)
  rw [evaluated,Option.map_some,Option.some.injEq] at decided
  exact ⟨v,result,home,evaluated,decided,guards⟩

end MarketFeed.TradeThroughGuard
