import MarketFeed.QuoteSize
import Mathlib.Data.List.Nodup

/-! Locked and crossed quotes between distinct venues, against the consolidated touch. -/
namespace MarketFeed
open OrderBook

inductive QuoteRelation where
  | locked | crossed
  deriving DecidableEq, Repr

structure LockedCrossedPair where
  bidVenue : Int32
  offerVenue : Int32
  bidTicks : Int64
  offerTicks : Int64
  relation : QuoteRelation
  deriving DecidableEq, Repr

namespace NbboAggregator

/-- The body of the inner loop: what venue `i`'s bid gives against venue `j`. -/
def classifyPair (i j : Nat) (bid : Int64) (seller : OrderBook) : List LockedCrossedPair :=
  if i = j ∨ seller.hasAsk = false then []
  else
    let offer := seller.bestAskTicks
    if bid = offer then [⟨Int32.ofNat i,Int32.ofNat j,bid,offer,.locked⟩]
    else if bid > offer then [⟨Int32.ofNat i,Int32.ofNat j,bid,offer,.crossed⟩]
    else []

def classify (venues : List OrderBook) : List LockedCrossedPair :=
  venues.zipIdx.flatMap fun (bidder,i) =>
    if bidder.hasBid = false then []
    else venues.zipIdx.flatMap fun (seller,j) => classifyPair i j bidder.bestBidTicks seller

/-- Venue `i`'s bid is at or above venue `j`'s offer. -/
structure Meets (venues : List OrderBook) (i j : Nat) (bidder seller : OrderBook) : Prop where
  apart : i ≠ j
  buys : venues[i]? = some bidder
  sells : venues[j]? = some seller
  hasBid : bidder.hasBid = true
  hasAsk : seller.hasAsk = true
  reaches : seller.bestAskTicks ≤ bidder.bestBidTicks

/-- The exact prices are recorded, and the relation is the one they stand in. -/
structure Records (pair : LockedCrossedPair) (bidder seller : OrderBook) : Prop where
  bid : pair.bidTicks = bidder.bestBidTicks
  offer : pair.offerTicks = seller.bestAskTicks
  locked : pair.relation = .locked ↔ bidder.bestBidTicks = seller.bestAskTicks
  crossed : pair.relation = .crossed ↔ seller.bestAskTicks < bidder.bestBidTicks

/-- The pair that two meeting venues give. -/
def recorded (i j : Nat) (bidder seller : OrderBook) : LockedCrossedPair :=
  ⟨Int32.ofNat i,Int32.ofNat j,bidder.bestBidTicks,seller.bestAskTicks,
    if bidder.bestBidTicks = seller.bestAskTicks then .locked else .crossed⟩

theorem recorded_records (i j : Nat) (bidder seller : OrderBook)
    (reaches : seller.bestAskTicks ≤ bidder.bestBidTicks) : Records (recorded i j bidder seller) bidder seller := by
  rw [Int64.le_iff_toInt_le] at reaches
  refine ⟨rfl,rfl,?_,?_⟩
  · simp [recorded]
  · rw [Int64.lt_iff_toInt_lt]
    by_cases same : bidder.bestBidTicks = seller.bestAskTicks
    · simp [recorded,same]
    · have apart := Int64.toInt_inj.not.mpr same
      simp only [recorded,if_neg same,true_iff]
      omega

theorem mem_classifyPair (pair : LockedCrossedPair) (i j : Nat) (bidder seller : OrderBook) :
    pair ∈ classifyPair i j bidder.bestBidTicks seller ↔ i ≠ j ∧ seller.hasAsk = true ∧
      seller.bestAskTicks ≤ bidder.bestBidTicks ∧ pair = recorded i j bidder seller := by
  unfold classifyPair recorded
  by_cases skipped : i = j ∨ seller.hasAsk = false
  · rw [if_pos skipped]
    rcases skipped with same | hidden
    · simp [same]
    · simp [hidden]
  · rw [if_neg skipped]
    obtain ⟨apart,shown⟩ := not_or.mp skipped
    rw [Bool.not_eq_false] at shown
    simp only [ne_eq,apart,not_false_eq_true,shown,true_and,gt_iff_lt,Int64.le_iff_toInt_le,Int64.lt_iff_toInt_lt,
      ← Int64.toInt_inj]
    split_ifs with locked crossed
    · simp [locked.ge]
    · simp [crossed.le]
    · have below : ¬seller.bestAskTicks.toInt ≤ bidder.bestBidTicks.toInt := by omega
      simp [below]

theorem mem_classify (venues : List OrderBook) (pair : LockedCrossedPair) :
    pair ∈ classify venues ↔ ∃ i j bidder seller, Meets venues i j bidder seller ∧
      pair = recorded i j bidder seller := by
  unfold classify
  simp only [List.mem_flatMap,Prod.exists,List.mem_zipIdx_iff_getElem?]
  refine ⟨?_,?_⟩
  · rintro ⟨bidder,i,buys,listed⟩
    split at listed
    next => contradiction
    next shown =>
      obtain ⟨⟨seller,j⟩,sells,inside⟩ := List.mem_flatMap.mp listed
      obtain ⟨apart,hasAsk,reaches,rfl⟩ := (mem_classifyPair pair i j bidder seller).mp inside
      exact ⟨i,j,bidder,seller,⟨apart,buys,List.mem_zipIdx_iff_getElem?.mp sells,
        (Bool.not_eq_false _).mp shown,hasAsk,reaches⟩,rfl⟩
  · rintro ⟨i,j,bidder,seller,⟨apart,buys,sells,hasBid,hasAsk,reaches⟩,rfl⟩
    refine ⟨bidder,i,buys,?_⟩
    rw [if_neg (by simp [hasBid]),List.mem_flatMap]
    exact ⟨(seller,j),List.mem_zipIdx_iff_getElem?.mpr sells,
      (mem_classifyPair _ i j bidder seller).mpr ⟨apart,hasAsk,reaches,rfl⟩⟩

def ids (pair : LockedCrossedPair) : Int32 × Int32 := (pair.bidVenue,pair.offerVenue)

theorem ofNat_injective (n m : Nat) (small : n < 2^31) (small' : m < 2^31) (same : Int32.ofNat n = Int32.ofNat m) :
    n = m := by
  have value := congrArg Int32.toInt same
  rw [Int32.toInt_ofNat_of_lt small,Int32.toInt_ofNat_of_lt small'] at value
  omega

theorem zipIdx_pairwise (venues : List OrderBook) :
    venues.zipIdx.Pairwise fun one other => one.2 ≠ other.2 := by
  have indices : (venues.zipIdx.map Prod.snd).Nodup := by
    rw [List.zipIdx_map_snd]
    exact List.nodup_range'
  exact List.pairwise_map.mp indices

theorem classify_nodup (venues : List OrderBook) (few : venues.length ≤ 2^31) :
    ((classify venues).map ids).Nodup := by
  have index (entry : OrderBook × Nat) (member : entry ∈ venues.zipIdx) : entry.2 < 2^31 := by
    have := (List.getElem?_eq_some_iff.mp (List.mem_zipIdx_iff_getElem?.mp member)).1
    omega
  have named (pair : LockedCrossedPair) (i j : Nat) (bid : Int64) (seller : OrderBook)
      (inside : pair ∈ classifyPair i j bid seller) : ids pair = (Int32.ofNat i,Int32.ofNat j) := by
    unfold classifyPair at inside
    simp only at inside
    split_ifs at inside <;> simp_all [ids]
  have single (i j : Nat) (bid : Int64) (seller : OrderBook) : ((classifyPair i j bid seller).map ids).Nodup := by
    unfold classifyPair
    simp only
    split_ifs <;> simp
  unfold classify
  rw [List.map_flatMap,List.nodup_flatMap]
  refine ⟨?_,?_⟩
  · rintro ⟨bidder,i⟩ member
    simp only
    split
    next => exact List.nodup_nil
    next =>
      rw [List.map_flatMap,List.nodup_flatMap]
      refine ⟨fun entry _ => single i entry.2 _ entry.1,?_⟩
      refine (zipIdx_pairwise venues).imp_of_mem fun {one other} first second apart => ?_
      rw [Function.onFun,List.disjoint_left]
      intro key here there
      obtain ⟨p,inP,rfl⟩ := List.mem_map.mp here
      obtain ⟨q,inQ,same⟩ := List.mem_map.mp there
      rw [named p _ _ _ _ inP,named q _ _ _ _ inQ] at same
      exact apart (ofNat_injective _ _ (index one first) (index other second) (Prod.mk.inj same).2.symm)
  · refine (zipIdx_pairwise venues).imp_of_mem fun {one other} first second apart => ?_
    rw [Function.onFun,List.disjoint_left]
    intro key here there
    simp only at here there
    split at here
    next => simp at here
    next =>
      split at there
      next => simp at there
      next =>
        obtain ⟨p,inP,rfl⟩ := List.mem_map.mp here
        obtain ⟨q,inQ,same⟩ := List.mem_map.mp there
        obtain ⟨_,_,inP⟩ := List.mem_flatMap.mp inP
        obtain ⟨_,_,inQ⟩ := List.mem_flatMap.mp inQ
        rw [named p _ _ _ _ inP,named q _ _ _ _ inQ] at same
        exact apart (ofNat_injective _ _ (index one first) (index other second) (Prod.mk.inj same).1.symm)

/-- Every pair of meeting venues is listed once under their indices, with what it records, and
nothing else is. -/
structure Classified (venues : List OrderBook) (pairs : List LockedCrossedPair) : Prop where
  complete : ∀ i j bidder seller, Meets venues i j bidder seller → ∃ pair ∈ pairs,
    pair.bidVenue.toInt = i ∧ pair.offerVenue.toInt = j ∧ Records pair bidder seller
  sound : ∀ pair ∈ pairs, ∃ i j bidder seller, Meets venues i j bidder seller ∧
    pair.bidVenue.toInt = (i : Nat) ∧ pair.offerVenue.toInt = (j : Nat) ∧ Records pair bidder seller
  once : (pairs.map ids).Nodup

theorem classify_classified (venues : List OrderBook) (few : venues.length ≤ 2^31) :
    Classified venues (classify venues) := by
  have index (i : Nat) (b : OrderBook) (here : venues[i]? = some b) : (Int32.ofNat i).toInt = i := by
    have := (List.getElem?_eq_some_iff.mp here).1
    exact Int32.toInt_ofNat_of_lt (by omega)
  refine ⟨?_,?_,classify_nodup venues few⟩
  · intro i j bidder seller meets
    exact ⟨recorded i j bidder seller,(mem_classify venues _).mpr ⟨i,j,bidder,seller,meets,rfl⟩,
      index i _ meets.buys,index j _ meets.sells,recorded_records i j bidder seller meets.reaches⟩
  · intro pair listed
    obtain ⟨i,j,bidder,seller,meets,rfl⟩ := (mem_classify venues pair).mp listed
    exact ⟨i,j,bidder,seller,meets,index i _ meets.buys,index j _ meets.sells,
      recorded_records i j bidder seller meets.reaches⟩

/-- Some venue's own bid is at or above its own offer. -/
def SelfCrossed (venues : List OrderBook) : Prop :=
  ∃ b ∈ venues, b.hasBid = true ∧ b.hasAsk = true ∧ b.bestAskTicks ≤ b.bestBidTicks

structure AgreesWithNbbo (venues : List OrderBook) (pairs : List LockedCrossedPair) : Prop where
  crosses : (bestBid venues).valid = true → (bestOffer venues).valid = true →
    ((bestOffer venues).priceTicks ≤ (bestBid venues).priceTicks ↔ pairs ≠ [] ∨ SelfCrossed venues)
  void : (bestBid venues).valid = false ∨ (bestOffer venues).valid = false → pairs = []

theorem meets_or_self (venues : List OrderBook) : classify venues ≠ [] ∨ SelfCrossed venues ↔
    ∃ bidder ∈ venues, ∃ seller ∈ venues, bidder.hasBid = true ∧ seller.hasAsk = true ∧
      seller.bestAskTicks ≤ bidder.bestBidTicks := by
  refine ⟨?_,?_⟩
  · rintro (listed | ⟨b,member,hasBid,hasAsk,reaches⟩)
    · obtain ⟨pair,inside⟩ := List.exists_mem_of_ne_nil _ listed
      obtain ⟨i,j,bidder,seller,meets,_⟩ := (mem_classify venues pair).mp inside
      exact ⟨bidder,List.mem_of_getElem? meets.buys,seller,List.mem_of_getElem? meets.sells,meets.hasBid,
        meets.hasAsk,meets.reaches⟩
    · exact ⟨b,member,b,member,hasBid,hasAsk,reaches⟩
  · rintro ⟨bidder,buys,seller,sells,hasBid,hasAsk,reaches⟩
    obtain ⟨i,buys'⟩ := List.mem_iff_getElem?.mp buys
    obtain ⟨j,sells'⟩ := List.mem_iff_getElem?.mp sells
    by_cases same : i = j
    · subst same
      obtain rfl : bidder = seller := Option.some.inj (buys'.symm.trans sells')
      exact Or.inr ⟨bidder,buys,hasBid,hasAsk,reaches⟩
    · exact Or.inl (List.ne_nil_of_mem ((mem_classify venues _).mpr
        ⟨i,j,bidder,seller,⟨same,buys',sells',hasBid,hasAsk,reaches⟩,rfl⟩))

theorem classify_agrees (venues : List OrderBook) : AgreesWithNbbo venues (classify venues) := by
  have bids : (bestBid venues = {} ∧ ∀ b ∈ venues, b.hasBid = false) ∨ ∃ n b, Foremost .buy venues n b ∧
      bestBid venues = ⟨Int32.ofNat n,b.bestBidTicks,narrow b.bestBidQty,true⟩ := sideBest_foremost .buy venues
  have offers : (bestOffer venues = {} ∧ ∀ b ∈ venues, b.hasAsk = false) ∨ ∃ n b, Foremost .sell venues n b ∧
      bestOffer venues = ⟨Int32.ofNat n,b.bestAskTicks,narrow b.bestAskQty,true⟩ := sideBest_foremost .sell venues
  refine ⟨fun bid offer => ?_,fun invalid => ?_⟩
  · rcases bids with ⟨same,_⟩ | ⟨n,b,foremost,quote⟩
    · rw [same] at bid
      contradiction
    rcases offers with ⟨same,_⟩ | ⟨m,c,foremost',quote'⟩
    · rw [same] at offer
      contradiction
    rw [quote,quote',meets_or_self]
    refine ⟨fun reaches => ?_,?_⟩
    · exact ⟨b,List.mem_of_getElem? foremost.here,c,List.mem_of_getElem? foremost'.here,foremost.shown,
        foremost'.shown,reaches⟩
    · rintro ⟨bidder,buys,seller,sells,hasBid,hasAsk,reaches⟩
      have above := foremost.best bidder buys hasBid
      have below := foremost'.best seller sells hasAsk
      simp only [rank,touchTicks,neg_le_neg_iff] at above below
      rw [Int64.le_iff_toInt_le] at reaches ⊢
      exact (below.trans reaches).trans above
  · by_contra listed
    obtain ⟨bidder,buys,seller,sells,hasBid,hasAsk,_⟩ := (meets_or_self venues).mp (Or.inl listed)
    rcases invalid with noBid | noOffer
    · rcases bids with ⟨_,void⟩ | ⟨n,b,foremost,quote⟩
      · rw [void bidder buys] at hasBid
        contradiction
      · rw [quote] at noBid
        contradiction
    · rcases offers with ⟨_,void⟩ | ⟨n,b,foremost,quote⟩
      · rw [void seller sells] at hasAsk
        contradiction
      · rw [quote] at noOffer
        contradiction

/-- `classify` lists the meeting venues, as far as an `int` can name them, and is empty or not as the
consolidated touch says. -/
theorem classify_exact (venues : List OrderBook) :
    (venues.length ≤ 2^31 → Classified venues (classify venues)) ∧ AgreesWithNbbo venues (classify venues) :=
  ⟨classify_classified venues,classify_agrees venues⟩

/-- A venue that shows one offer. -/
def offering (priceTicks : Int64) (qty : UInt32) : OrderBook := (init {} 10000).calls [.add .sell priceTicks qty]

theorem classify_exact_locked : Classified [offering 10000 5,bidding 10000 3]
    (classify [offering 10000 5,bidding 10000 3]) :=
  (classify_exact [offering 10000 5,bidding 10000 3]).1 (by decide)

/-- An offer at the first venue and a higher bid at the last. -/
def distant (n : Nat) : List OrderBook :=
  offering 10000 5 :: (List.replicate n (init {} 10000) ++ [bidding 10001 3])

theorem distant_meets (n : Nat) : Meets (distant n) (n + 1) 0 (bidding 10001 3) (offering 10000 5) := by
  refine ⟨Nat.succ_ne_zero n,?_,List.getElem?_cons_zero,by decide,by decide,by decide⟩
  rw [distant,List.getElem?_cons_succ,List.getElem?_append_right (by simp)]
  simp

theorem distant_misnamed (n : Nat) (far : 2^31 ≤ n + 1) : ¬Classified (distant n) (classify (distant n)) := by
  intro classified
  obtain ⟨pair,_,index,_⟩ := classified.complete _ _ _ _ (distant_meets n)
  have bound := pair.bidVenue.toInt_lt
  omega

/-- A venue past 2^31 whose bid crosses the first venue's offer is listed under no index of its own. -/
theorem far_venue_misnamed :
    Meets (distant (2^31)) (2^31 + 1) 0 (bidding 10001 3) (offering 10000 5) ∧
    ¬Classified (distant (2^31)) (classify (distant (2^31))) :=
  ⟨distant_meets (2^31),distant_misnamed (2^31) (by decide)⟩

end NbboAggregator
end MarketFeed
