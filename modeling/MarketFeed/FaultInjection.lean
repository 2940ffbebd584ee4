import MarketFeed.VenueMarket
import MarketFeed.TradeThroughGuard

/-! The fault injection harness: trade-throughs built from the venues' raw touches, and sessions
of orders that go to the best quote. The random engine is any function of the seed. -/
namespace MarketFeed.NbboFaultInjection
open OrderBook VenueFeed NbboAggregator VenueMarket TradeThroughGuard

/-- The two loops over the venues: a victim and the first rival with a better touch. -/
def scan (shown : OrderBook → Bool) (better : OrderBook → OrderBook → Bool) (books : List OrderBook) :
    Option (Nat × Nat) :=
  books.zipIdx.findSome? fun (own,i) =>
    if shown own = false then none
    else
      books.zipIdx.findSome? fun (other,j) =>
        if i = j ∨ shown other = false then none else if better other own then some (i,j) else none

/-- The venues advance until the scan finds a pair, for as many rounds at most. -/
def findViolation (shown : OrderBook → Bool) (better : OrderBook → OrderBook → Bool) :
    Nat → List VenueFeed → Option (Nat × Nat) × List VenueFeed
  | 0,feeds => (none,feeds)
  | steps + 1,feeds =>
    match scan shown better (books feeds) with
    | some pair => (some pair,feeds)
    | none => findViolation shown better steps (stepAll feeds)

def findBuyViolation : Nat → List VenueFeed → Option (Nat × Nat) × List VenueFeed :=
  findViolation hasAsk fun other own => other.bestAskTicks < own.bestAskTicks

def findSellViolation : Nat → List VenueFeed → Option (Nat × Nat) × List VenueFeed :=
  findViolation hasBid fun other own => other.bestBidTicks > own.bestBidTicks

/-- The order of scenario `n`, marketable at the victim's own touch. -/
def injected (n : Nat) (books : List OrderBook) (victim : Nat) : OutboundOrder :=
  let own := books.getD victim {}
  if n % 2 = 0 then ⟨.buy,own.bestAskTicks,100,Int32.ofNat victim⟩
  else ⟨.sell,own.bestBidTicks,100,Int32.ofNat victim⟩

def rejects (order : OutboundOrder) (books : List OrderBook) : Bool :=
  (evaluate order books).any fun r => r.decision = .rejectedTradeThrough

structure Injection where
  constructed : Nat := 0
  caught : Nat := 0
  deriving DecidableEq, Repr

def maxSteps : Nat := 50000

/-- Scenarios from number `n` on; the first that is not found ends the loop. -/
def inject : Nat → Nat → List VenueFeed → Injection
  | 0,_,_ => {}
  | scenarios + 1,n,feeds =>
    let found := if n % 2 = 0 then findBuyViolation maxSteps feeds else findSellViolation maxSteps feeds
    match found.1 with
    | none => {}
    | some (victim,_) =>
      let caught := rejects (injected n (books found.2) victim) (books found.2)
      let later := inject scenarios (n + 1) (stepAll found.2)
      ⟨later.constructed + 1,later.caught + caught.toNat⟩

/-- Order `k` of a clean session, sent to the venue that holds the best quote. -/
def cleanOrder (k : Nat) (best : Quote) : OutboundOrder where
  side := if k % 2 = 0 then .buy else .sell
  limitPriceTicks :=
    if k % 3 = 0 then if k % 2 = 0 then best.priceTicks - 500 else best.priceTicks + 500 else best.priceTicks
  qty := 100
  venueId := best.venueId

structure CleanRun where
  total : Nat := 0
  falsePositives : Nat := 0
  deriving DecidableEq, Repr

def cleanSession : Nat → Nat → List VenueFeed → CleanRun
  | 0,_,_ => {}
  | orders + 1,k,feeds =>
    let feeds := stepAll feeds
    let best := if k % 2 = 0 then bestOffer (books feeds) else bestBid (books feeds)
    let later := cleanSession orders (k + 1) feeds
    if best.valid = false then later
    else ⟨later.total + 1,later.falsePositives + (rejects (cleanOrder k best) (books feeds)).toNat⟩

def targetScenarios : Nat := 2000
def numSessions : Nat := 40
def ordersPerSession : Nat := 50
def refPrice : Int64 := 25000

def venues3 (engine : UInt32 → Nat → Draw) (seedBase : UInt32) : List VenueFeed :=
  opened [engine (seedBase + 1),engine (seedBase + 2),engine (seedBase + 3)] refPrice

def injection (engine : UInt32 → Nat → Draw) (seed : UInt32) : Injection :=
  inject targetScenarios 0 (rounds (venues3 engine seed) 50)

def cleanSessions (engine : UInt32 → Nat → Draw) (seed : UInt32) : List CleanRun :=
  (List.range numSessions).map fun session =>
    cleanSession ordersPerSession 0 (rounds (venues3 engine (seed + 1000 + UInt32.ofNat session * 7)) 20)

/-- The exit code is 0. -/
def passes (engine : UInt32 → Nat → Draw) (seed : UInt32) : Bool :=
  let part1 := injection engine seed
  let part2 := cleanSessions engine seed
  part1.constructed = targetScenarios ∧ part1.caught = targetScenarios ∧
    (part2.map CleanRun.falsePositives).sum = 0

theorem venues3_length (engine : UInt32 → Nat → Draw) (seedBase : UInt32) : (venues3 engine seedBase).length = 3 := by
  simp [venues3,opened]

section Search
variable {shown : OrderBook → Bool} {better : OrderBook → OrderBook → Bool}

theorem scan_found {books : List OrderBook} {victim rival : Nat} (found : scan shown better books = some (victim,rival)) :
    ∃ own other, books[victim]? = some own ∧ books[rival]? = some other ∧ victim ≠ rival ∧
      shown own = true ∧ shown other = true ∧ better other own = true := by
  obtain ⟨⟨own,i⟩,member,inner⟩ := List.exists_of_findSome?_eq_some found
  simp only at inner
  split at inner
  next => contradiction
  next quoted =>
    obtain ⟨⟨other,j⟩,member',last⟩ := List.exists_of_findSome?_eq_some inner
    simp only at last
    split at last
    next => contradiction
    next apart =>
      split at last
      next beats =>
        obtain ⟨rfl,rfl⟩ := Prod.mk.inj (Option.some.inj last)
        obtain ⟨ne,quoted'⟩ := not_or.mp apart
        exact ⟨own,other,List.mem_zipIdx_iff_getElem?.mp member,List.mem_zipIdx_iff_getElem?.mp member',ne,
          (Bool.not_eq_false _).mp quoted,(Bool.not_eq_false _).mp quoted',beats⟩
      next => contradiction

/-- The pair a search ends with is one of the books it ends at. -/
theorem findViolation_found (steps : Nat) (feeds : List VenueFeed) :
    (findViolation shown better steps feeds).2.length = feeds.length ∧
    ∀ pair, (findViolation shown better steps feeds).1 = some pair →
      scan shown better (books (findViolation shown better steps feeds).2) = some pair := by
  induction steps generalizing feeds with
  | zero => exact ⟨rfl,fun _ found => by contradiction⟩
  | succ steps ih =>
    rw [findViolation]
    cases scanned : scan shown better (books feeds) with
    | some pair => exact ⟨rfl,fun _ found => by rw [← found]; exact scanned⟩
    | none =>
      obtain ⟨length,found⟩ := ih (stepAll feeds)
      exact ⟨length.trans (List.length_map ..),found⟩

end Search

/-- A touch that some venue betters is not the best one, so an order at it is rejected. -/
theorem evaluate_bettered (order : OutboundOrder) (venues : List OrderBook) (few : venues.length ≤ 2^31) {n m : Nat}
    {own other : OrderBook} (home : venues[n]? = some own) (index : order.venueId = Int32.ofNat n)
    (rival : venues[m]? = some other) (shown : hasTouch (against order.side) own = true)
    (quoted : hasTouch (against order.side) other = true)
    (limit : order.limitPriceTicks = touchTicks (against order.side) own)
    (better : rank (against order.side) (touchTicks (against order.side) own).toInt <
      rank (against order.side) (touchTicks (against order.side) other).toInt) :
    ∃ result, evaluate order venues = some result ∧ result.decision = .rejectedTradeThrough := by
  have inside := (List.getElem?_eq_some_iff.mp home).1
  have located : order.venueId.toInt = n := by
    rw [index]
    exact Int32.toInt_ofNat_of_lt (by omega)
  refine ⟨_,evaluate_home order venues n own home located,?_⟩
  rcases sideBest_foremost (against order.side) venues with ⟨_,void⟩ | ⟨k,b,foremost,quote⟩
  · rw [void other (List.mem_of_getElem? rival)] at quoted
    contradiction
  · have above := foremost.best other (List.mem_of_getElem? rival) quoted
    have apart : Int32.ofNat k ≠ order.venueId := by
      intro same
      have place := congrArg Int32.toInt same
      have bound := (List.getElem?_eq_some_iff.mp foremost.here).1
      rw [Int32.toInt_ofNat_of_lt (by omega),located] at place
      have here := foremost.here
      rw [show k = n by omega,home] at here
      rw [← Option.some.inj here] at above
      omega
    have ahead := better.trans_le above
    rw [quote,sideQuote_shown _ own _ shown,judge]
    simp only [Bool.true_eq_false,if_false,limit,lt_irrefl,true_and]
    rw [if_pos ⟨apart,ahead⟩]

/-- An order sent to the venue of the best quote is accepted at any limit. -/
theorem evaluate_routed (order : OutboundOrder) (venues : List OrderBook) (few : venues.length ≤ 2^31)
    (valid : (sideBest (against order.side) venues).valid = true)
    (routed : order.venueId = (sideBest (against order.side) venues).venueId) :
    ∃ result, evaluate order venues = some result ∧ result.decision = .accepted := by
  rcases sideBest_foremost (against order.side) venues with ⟨void,_⟩ | ⟨k,b,foremost,quote⟩
  · rw [void] at valid
    contradiction
  · have bound := (List.getElem?_eq_some_iff.mp foremost.here).1
    have located : order.venueId.toInt = k := by
      rw [routed,quote]
      exact Int32.toInt_ofNat_of_lt (by omega)
    refine ⟨_,evaluate_home order venues k b foremost.here located,?_⟩
    have same : ¬(sideBest (against order.side) venues).venueId ≠ order.venueId := fun contra => contra routed.symm
    rw [judge,sideQuote_shown _ b _ foremost.shown]
    simp only [Bool.true_eq_false,if_false,same,false_and,and_false]
    split <;> rfl

theorem injected_caught {n : Nat} {venues : List OrderBook} (few : venues.length ≤ 2^31) {pair : Nat × Nat}
    (found : if n % 2 = 0 then scan hasAsk (fun other own => other.bestAskTicks < own.bestAskTicks) venues = some pair
      else scan hasBid (fun other own => other.bestBidTicks > own.bestBidTicks) venues = some pair) :
    rejects (injected n venues pair.1) venues = true := by
  have verdict {order : OutboundOrder}
      (rejected : ∃ result, evaluate order venues = some result ∧ result.decision = .rejectedTradeThrough) :
      rejects order venues = true := by
    obtain ⟨result,decided,through⟩ := rejected
    rw [rejects,decided]
    exact decide_eq_true through
  refine verdict ?_
  by_cases buy : n % 2 = 0
  · rw [if_pos buy] at found
    obtain ⟨own,other,home,rival,_,shown,quoted,beats⟩ := scan_found found
    have lower := Int64.lt_iff_toInt_lt.mp (of_decide_eq_true beats)
    rw [injected,if_pos buy,List.getD_eq_getElem?_getD,home,Option.getD_some]
    refine evaluate_bettered _ venues few home rfl rival shown quoted rfl ?_
    exact neg_lt_neg lower
  · rw [if_neg buy] at found
    obtain ⟨own,other,home,rival,_,shown,quoted,beats⟩ := scan_found found
    have higher := Int64.lt_iff_toInt_lt.mp (of_decide_eq_true beats)
    rw [injected,if_neg buy,List.getD_eq_getElem?_getD,home,Option.getD_some]
    exact evaluate_bettered _ venues few home rfl rival shown quoted rfl higher

theorem search_found (n : Nat) (feeds : List VenueFeed) :
    let found := if n % 2 = 0 then findBuyViolation maxSteps feeds else findSellViolation maxSteps feeds
    found.2.length = feeds.length ∧ ∀ pair, found.1 = some pair →
      if n % 2 = 0 then scan hasAsk (fun other own => other.bestAskTicks < own.bestAskTicks) (books found.2) = some pair
      else scan hasBid (fun other own => other.bestBidTicks > own.bestBidTicks) (books found.2) = some pair := by
  intro found
  by_cases buy : n % 2 = 0
  · simp only [found,if_pos buy]
    exact findViolation_found maxSteps feeds
  · simp only [found,if_neg buy]
    exact findViolation_found maxSteps feeds

theorem inject_caught (scenarios n : Nat) (feeds : List VenueFeed) (few : feeds.length ≤ 2^31) :
    (inject scenarios n feeds).caught = (inject scenarios n feeds).constructed ∧
      (inject scenarios n feeds).constructed ≤ scenarios := by
  induction scenarios generalizing n feeds with
  | zero => exact ⟨rfl,Nat.le_refl _⟩
  | succ scenarios ih =>
    obtain ⟨length,searched⟩ := search_found n feeds
    rw [inject]
    generalize (if n % 2 = 0 then findBuyViolation maxSteps feeds else findSellViolation maxSteps feeds) = found at *
    obtain ⟨outcome,later⟩ := found
    cases outcome with
    | none => exact ⟨rfl,Nat.zero_le _⟩
    | some pair =>
      have caught := injected_caught (by rw [books,List.length_map]; exact length.trans_le few) (searched pair rfl)
      obtain ⟨same,most⟩ := ih (n + 1) (stepAll later) (by rw [stepAll,List.length_map]; exact length.trans_le few)
      simp only [caught,Bool.toNat_true]
      exact ⟨congrArg (· + 1) same,Nat.succ_le_succ most⟩

theorem clean_accepted (k : Nat) (venues : List OrderBook) (few : venues.length ≤ 2^31)
    (valid : (if k % 2 = 0 then bestOffer venues else bestBid venues).valid = true) :
    ∃ result, evaluate (cleanOrder k (if k % 2 = 0 then bestOffer venues else bestBid venues)) venues = some result ∧
      result.decision = .accepted := by
  have best : (if k % 2 = 0 then bestOffer venues else bestBid venues) =
      sideBest (against (if k % 2 = 0 then .buy else .sell)) venues := by split <;> rfl
  rw [best] at valid ⊢
  exact evaluate_routed _ venues few valid rfl

theorem cleanSession_clean (orders k : Nat) (feeds : List VenueFeed) (few : feeds.length ≤ 2^31) :
    (cleanSession orders k feeds).falsePositives = 0 ∧ (cleanSession orders k feeds).total ≤ orders := by
  induction orders generalizing k feeds with
  | zero => exact ⟨rfl,Nat.le_refl _⟩
  | succ orders ih =>
    have length : (stepAll feeds).length = feeds.length := List.length_map ..
    obtain ⟨clean,total⟩ := ih (k + 1) (stepAll feeds) (by omega)
    have routed := clean_accepted k (books (stepAll feeds)) (by rw [books,List.length_map]; omega)
    rw [cleanSession]
    generalize (if k % 2 = 0 then bestOffer (books (stepAll feeds)) else bestBid (books (stepAll feeds))) = best at *
    split
    next => exact ⟨clean,total.trans (Nat.le_succ _)⟩
    next valid =>
      obtain ⟨result,decided,accepted⟩ := routed ((Bool.not_eq_false _).mp valid)
      have passed : rejects (cleanOrder k best) (books (stepAll feeds)) = false := by
        rw [rejects,decided]
        simp [accepted]
      rw [passed]
      exact ⟨clean,Nat.succ_le_succ total⟩

section Harness
variable (engine : UInt32 → Nat → Draw) (seed : UInt32)

/-- Whatever the seed and the engine, every scenario built is caught and no clean order is
rejected: the harness fails only when the venues give it too few scenarios. -/
theorem harness_exact :
    (injection engine seed).caught = (injection engine seed).constructed ∧
    (injection engine seed).constructed ≤ targetScenarios ∧
    (∀ run ∈ cleanSessions engine seed, run.falsePositives = 0 ∧ run.total ≤ ordersPerSession) ∧
    (passes engine seed = true ↔ (injection engine seed).constructed = targetScenarios) := by
  have small (seedBase : UInt32) (k : Nat) : (rounds (venues3 engine seedBase) k).length ≤ 2^31 := by
    rw [rounds_length,venues3_length]
    decide
  obtain ⟨caught,most⟩ := inject_caught targetScenarios 0 (rounds (venues3 engine seed) 50) (small seed 50)
  have clean : ∀ run ∈ cleanSessions engine seed, run.falsePositives = 0 ∧ run.total ≤ ordersPerSession := by
    intro run member
    obtain ⟨session,_,rfl⟩ := List.mem_map.mp member
    exact cleanSession_clean ordersPerSession 0 _ (small _ 20)
  have none_ : ((cleanSessions engine seed).map CleanRun.falsePositives).sum = 0 := by
    refine List.sum_eq_zero fun count member => ?_
    obtain ⟨run,inside,rfl⟩ := List.mem_map.mp member
    exact (clean run inside).1
  refine ⟨caught,most,clean,?_⟩
  rw [passes]
  simp only [none_,and_true,decide_eq_true_eq]
  exact ⟨fun both => both.1,fun built => ⟨built,caught.trans built⟩⟩

end Harness

end MarketFeed.NbboFaultInjection
