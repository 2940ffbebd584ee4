import MarketFeed.VenueMarket
import MarketFeed.LockedCrossed

/-! The cross-venue reference test: the aggregator against the scan of every level, over a
replay of three venues, and the two books built by hand. -/
namespace MarketFeed.NbboReference
open OrderBook VenueFeed NbboAggregator VenueMarket

/-- The body of the inner loop over the oracle's quotes. -/
def oraclePair (a b : Nat) (bid offer : Quote) : List LockedCrossedPair :=
  if a = b ∨ offer.valid = false then []
  else if bid.priceTicks = offer.priceTicks then
    [⟨Int32.ofNat a,Int32.ofNat b,bid.priceTicks,offer.priceTicks,.locked⟩]
  else if bid.priceTicks > offer.priceTicks then
    [⟨Int32.ofNat a,Int32.ofNat b,bid.priceTicks,offer.priceTicks,.crossed⟩]
  else []

def oraclePairs (venues : List OrderBook) : List LockedCrossedPair :=
  venues.zipIdx.flatMap fun (bidder,a) =>
    let ob := oracleBestBid bidder (Int32.ofNat a)
    if ob.valid = false then []
    else venues.zipIdx.flatMap fun (seller,b) => oraclePair a b ob (oracleBestAsk seller (Int32.ofNat b))

def differ (fast oracle : Quote) : Bool := fast.valid != oracle.valid || fast.priceTicks != oracle.priceTicks

def mismatch (fast oracle : List LockedCrossedPair) : Bool :=
  fast.length != oracle.length || (fast.zip oracle).any fun (f,o) =>
    f.bidVenue != o.bidVenue || f.offerVenue != o.offerVenue || f.bidTicks != o.bidTicks ||
      f.offerTicks != o.offerTicks || f.relation != o.relation

structure Counters where
  nbboComparisons : Nat := 0
  nbboMismatches : Nat := 0
  lcComparisons : Nat := 0
  lcMismatches : Nat := 0
  lockedSeen : Nat := 0
  crossedSeen : Nat := 0
  deriving DecidableEq, Repr

def Counters.check (c : Counters) (venues : List OrderBook) : Counters :=
  let bids := differ (bestBid venues) (consolidate outbids oracleBestBid venues)
  let offers := differ (bestOffer venues) (consolidate undercuts oracleBestAsk venues)
  let pairs := oraclePairs venues
  { nbboComparisons := c.nbboComparisons + 2
    nbboMismatches := c.nbboMismatches + bids.toNat + offers.toNat
    lcComparisons := c.lcComparisons + 1
    lcMismatches := c.lcMismatches + (mismatch (classify venues) pairs).toNat
    lockedSeen := c.lockedSeen + pairs.countP fun p => p.relation = .locked
    crossedSeen := c.crossedSeen + pairs.countP fun p => p.relation = .crossed }

/-- The replay from message `i` on, with so many messages a venue left. -/
def replayFrom (checkEvery : Nat) : Nat → Nat → List VenueFeed → Counters → Counters
  | 0,_,_,c => c
  | left + 1,i,venues,c =>
    let venues := stepAll venues
    replayFrom checkEvery left (i + 1) venues (if i % checkEvery ≠ 0 then c else c.check (books venues))

def refPrice : Int64 := 25000

def counters (engine : UInt32 → Nat → Draw) (messagesPerVenue checkEvery : Nat) : Counters :=
  replayFrom checkEvery messagesPerVenue 0 (opened [engine 1001,engine 1002,engine 1003] refPrice) {}

/-- A book with one order in it. -/
def quoting (side : Side) (priceTicks : Int64) : OrderBook := ((init {} 25000).add side priceTicks 100).2

def foundLocked : Bool :=
  (classify [quoting .buy 25010,quoting .sell 25010]).any fun p =>
    p.bidVenue = 0 ∧ p.offerVenue = 1 ∧ p.relation = .locked ∧ p.bidTicks = 25010 ∧ p.offerTicks = 25010

def foundCrossed : Bool :=
  (classify [quoting .buy 25020,quoting .sell 25005]).any fun p =>
    p.bidVenue = 0 ∧ p.offerVenue = 1 ∧ p.relation = .crossed ∧ p.bidTicks = 25020 ∧ p.offerTicks = 25005

/-- The exit code is 0. -/
def passes (engine : UInt32 → Nat → Draw) (messagesPerVenue checkEvery : Nat) : Bool :=
  let c := counters engine messagesPerVenue checkEvery
  c.nbboMismatches = 0 ∧ c.lcMismatches = 0 ∧ c.nbboComparisons > 0 ∧ c.lcComparisons > 0 ∧ foundLocked ∧ foundCrossed

theorem found_both : foundLocked = true ∧ foundCrossed = true := by decide

section Oracle
variable {venues : List OrderBook} (top : ∀ b ∈ venues, b.TopOfBook)
include top

/-- Both ways of pairing the venues agree on books in order. -/
theorem oraclePairs_classify : oraclePairs venues = classify venues := by
  have inner (a b : Nat) (bidder seller : OrderBook) (buys : bidder ∈ venues) (sells : seller ∈ venues)
      (hasBid : bidder.hasBid = true) :
      oraclePair a b (oracleBestBid bidder (Int32.ofNat a)) (oracleBestAsk seller (Int32.ofNat b)) =
        classifyPair a b bidder.bestBidTicks seller := by
    have bid : oracleBestBid bidder (Int32.ofNat a) = bidQuote bidder (Int32.ofNat a) :=
      oracle_quote (top bidder buys) .buy _
    have ask : oracleBestAsk seller (Int32.ofNat b) = askQuote seller (Int32.ofNat b) :=
      oracle_quote (top seller sells) .sell _
    rw [bid,ask,bidQuote,if_pos hasBid,oraclePair,classifyPair]
    cases hasAsk : seller.hasAsk with
    | false => simp [askQuote,hasAsk]
    | true => simp [askQuote,hasAsk]
  unfold oraclePairs classify
  refine List.flatMap_congr fun entry member => ?_
  obtain ⟨bidder,a⟩ := entry
  have buys := List.fst_mem_of_mem_zipIdx member
  have bid : (oracleBestBid bidder (Int32.ofNat a)).valid = bidder.hasBid :=
    (congrArg Quote.valid (oracle_quote (top bidder buys) .buy _)).trans (sideQuote_valid .buy bidder _)
  simp only [bid]
  split
  next => rfl
  next shown =>
    refine List.flatMap_congr fun entry member => ?_
    exact inner a entry.2 bidder entry.1 buys (List.fst_mem_of_mem_zipIdx member) ((Bool.not_eq_false _).mp shown)

theorem check_agrees (c : Counters) :
    (c.check venues).nbboMismatches = c.nbboMismatches ∧ (c.check venues).lcMismatches = c.lcMismatches := by
  have bids : bestBid venues = consolidate outbids oracleBestBid venues := consolidate_oracle top .buy
  have offers : bestOffer venues = consolidate undercuts oracleBestAsk venues := consolidate_oracle top .sell
  have same (q : Quote) : differ q q = false := by simp [differ]
  have equal (pairs : List LockedCrossedPair) : mismatch pairs pairs = false := by
    rw [mismatch,List.zip_eq_zipWith,List.zipWith_self]
    simp
  simp only [Counters.check,← bids,← offers,same,oraclePairs_classify top,equal]
  exact ⟨rfl,rfl⟩

end Oracle

/-- How many of the messages from `i` on are checked. -/
def checks (checkEvery i left : Nat) : Nat := (List.range' i left).countP fun j => j % checkEvery = 0

/-- A replay whose books stay in order counts its checks and finds no mismatch. -/
theorem replayFrom_agrees (checkEvery left i : Nat) (start : List VenueFeed) (c : Counters)
    (top : ∀ k ≤ i + left, ∀ b ∈ books (rounds start k), b.TopOfBook) :
    let after := replayFrom checkEvery left i (rounds start i) c
    (after.nbboMismatches = c.nbboMismatches ∧ after.lcMismatches = c.lcMismatches) ∧
      after.nbboComparisons = c.nbboComparisons + 2 * checks checkEvery i left ∧
      after.lcComparisons = c.lcComparisons + checks checkEvery i left := by
  induction left generalizing i c with
  | zero => exact ⟨⟨rfl,rfl⟩,rfl,rfl⟩
  | succ left ih =>
    have counted : checks checkEvery i (left + 1) =
        checks checkEvery (i + 1) left + if i % checkEvery = 0 then 1 else 0 := by
      simp [checks,List.range'_succ,List.countP_cons]
    have later (c : Counters) := ih (i + 1) c fun k near => top k (by omega)
    have step : replayFrom checkEvery (left + 1) i (rounds start i) c =
        replayFrom checkEvery left (i + 1) (rounds start (i + 1))
          (if i % checkEvery ≠ 0 then c else c.check (books (rounds start (i + 1)))) := rfl
    rw [step,counted]
    by_cases checked : i % checkEvery = 0
    · obtain ⟨nbbo,lc⟩ := check_agrees (top (i + 1) (by omega)) c
      obtain ⟨mismatches,quoted,paired⟩ := later (c.check (books (rounds start (i + 1))))
      rw [if_neg (not_not.mpr checked),if_pos checked]
      refine ⟨⟨mismatches.1.trans nbbo,mismatches.2.trans lc⟩,quoted.trans ?_,paired.trans ?_⟩
      · change c.nbboComparisons + 2 + _ = _
        omega
      · change c.lcComparisons + 1 + _ = _
        omega
    · rw [if_pos checked,if_neg checked]
      exact later c

theorem checks_ceil (checkEvery n : Nat) (positive : 0 < checkEvery) :
    checks checkEvery 0 n = (n + checkEvery - 1) / checkEvery := by
  induction n with
  | zero => exact (Nat.div_eq_of_lt (by omega)).symm
  | succ n ih =>
    have counted : checks checkEvery 0 (n + 1) = checks checkEvery 0 n + if n % checkEvery = 0 then 1 else 0 := by
      simp [checks,List.range'_concat,List.countP_append,List.countP_cons]
    have next : n + 1 + checkEvery - 1 = n + checkEvery - 1 + 1 := by omega
    have divides : checkEvery ∣ n + checkEvery - 1 + 1 ↔ n % checkEvery = 0 := by
      rw [show n + checkEvery - 1 + 1 = n + checkEvery by omega,Nat.dvd_add_self_right,Nat.dvd_iff_mod_eq_zero]
    rw [counted,ih,next,Nat.succ_div]
    simp only [divides]

section Test
variable (engine : UInt32 → Nat → Draw) (messagesPerVenue checkEvery : Nat)

/-- Whatever the engine draws, the reference test passes: every check finds the aggregator and
the scan in agreement, and there is one every `checkEvery` messages. -/
theorem reference_passes (some_ : 0 < messagesPerVenue) (short : messagesPerVenue ≤ 8589934) (every : 0 < checkEvery) :
    passes engine messagesPerVenue checkEvery = true ∧
      (counters engine messagesPerVenue checkEvery).nbboMismatches = 0 ∧
      (counters engine messagesPerVenue checkEvery).lcMismatches = 0 ∧
      (counters engine messagesPerVenue checkEvery).lcComparisons = (messagesPerVenue + checkEvery - 1) / checkEvery ∧
      (counters engine messagesPerVenue checkEvery).nbboComparisons =
        2 * ((messagesPerVenue + checkEvery - 1) / checkEvery) := by
  have top : ∀ k ≤ 0 + messagesPerVenue,
      ∀ b ∈ books (rounds (opened [engine 1001,engine 1002,engine 1003] refPrice) k), b.TopOfBook := by
    intro k near
    have quotes := rounds_quotes [engine 1001,engine 1002,engine 1003] refPrice k ⟨by decide,by decide,by omega⟩
    exact fun b member => (books_top quotes b member).1
  obtain ⟨⟨nbbo,lc⟩,quoted,paired⟩ := replayFrom_agrees checkEvery messagesPerVenue 0 _ {} top
  have ran : 0 < (messagesPerVenue + checkEvery - 1) / checkEvery := Nat.div_pos (by omega) every
  rw [checks_ceil checkEvery messagesPerVenue every,Nat.zero_add] at quoted paired
  refine ⟨decide_eq_true ⟨nbbo,lc,?_,?_,found_both⟩,nbbo,lc,paired,quoted⟩
  · exact quoted ▸ Nat.mul_pos Nat.two_pos ran
  · exact paired ▸ ran

end Test

/-- Both sides are quoted from the first check on. -/
theorem reference_passes_quoting :
    (let venues := rounds (opened [engine 1001,engine 1002,engine 1003] refPrice) 1
     bestBid (books venues) = ⟨1,24619,251,true⟩ ∧ bestOffer (books venues) = ⟨0,24861,451,true⟩) ∧
    passes (fun seed => engine seed.toNat) 90000 25 = true ∧
    (counters (fun seed => engine seed.toNat) 90000 25).nbboMismatches = 0 ∧
    (counters (fun seed => engine seed.toNat) 90000 25).lcMismatches = 0 ∧
    (counters (fun seed => engine seed.toNat) 90000 25).lcComparisons = 3600 ∧
    (counters (fun seed => engine seed.toNat) 90000 25).nbboComparisons = 7200 := by
  obtain ⟨passed,nbbo,lc,paired,quoted⟩ := reference_passes (fun seed => engine seed.toNat) 90000 25 (by decide)
    (by decide) (by decide)
  exact ⟨by decide +kernel,passed,nbbo,lc,paired.trans (by decide),quoted.trans (by decide)⟩

end MarketFeed.NbboReference
