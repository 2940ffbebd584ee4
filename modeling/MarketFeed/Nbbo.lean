import MarketFeed.Depth
import MarketFeed.Library.Leader

/-! The best quote over a vector of venues, read off each book's best indices, and the oracle
that reads it off the levels. -/
namespace MarketFeed
open Extremum OrderBook

structure Quote where
  venueId : Int32 := -1
  priceTicks : Int64 := 0
  qty : UInt32 := 0
  valid : Bool := false
  deriving DecidableEq, Repr

namespace NbboAggregator

/-- `static_cast<uint32_t>` of a level. -/
def narrow (q : Int64) : UInt32 := q.toUInt64.toUInt32

def bidQuote (book : OrderBook) (venueId : Int32) : Quote :=
  if book.hasBid then ⟨venueId,book.bestBidTicks,narrow book.bestBidQty,true⟩ else {}

def askQuote (book : OrderBook) (venueId : Int32) : Quote :=
  if book.hasAsk then ⟨venueId,book.bestAskTicks,narrow book.bestAskQty,true⟩ else {}

def outbids (q best : Quote) : Bool := q.priceTicks > best.priceTicks
def undercuts (q best : Quote) : Bool := q.priceTicks < best.priceTicks

def quotes (quote : OrderBook → Int32 → Quote) (venues : List OrderBook) : List Quote :=
  venues.zipIdx.map fun (book,i) => quote book (Int32.ofNat i)

/-- The loop over the venues: an invalid quote is skipped, a later one wins only when strictly better. -/
def consolidate (beats : Quote → Quote → Bool) (quote : OrderBook → Int32 → Quote) (venues : List OrderBook) :
    Quote :=
  Leader.scan Quote.valid beats {} (quotes quote venues)

def bestBid (venues : List OrderBook) : Quote := consolidate outbids bidQuote venues
def bestOffer (venues : List OrderBook) : Quote := consolidate undercuts askQuote venues

def positiveAt (levels : Levels) (i : Nat) : Bool :=
  if inside : i < kLevels then 0 < levels ⟨i,inside⟩ else false

def oracleBestBid (book : OrderBook) (venueId : Int32) : Quote :=
  let idx := walkDown (positiveAt book.bidQty) kLevels
  if idx ≥ 0 then ⟨venueId,book.basePrice + Int64.ofInt idx,narrow (readAt book.bidQty idx),true⟩ else {}

def oracleBestAsk (book : OrderBook) (venueId : Int32) : Quote :=
  let idx := walkUp (positiveAt book.askQty) kLevels kLevels
  if idx < kLevels then ⟨venueId,book.basePrice + Int64.ofInt idx,narrow (readAt book.askQty idx),true⟩ else {}

end NbboAggregator

namespace OrderBook

/-- The exact prices at which a side has a positive quantity. -/
def prices (b : OrderBook) (side : Side) : Set Int :=
  {p | ∃ k : Fin kLevels, 0 < (b.side side k).toInt ∧ p = b.basePrice.toInt + k}

/-- Every level with a quantity stands at a 64-bit price. -/
def PricesFit (b : OrderBook) : Prop := ∀ side, ∀ p ∈ b.prices side, p < 2^63

/-- A book that adds of a positive quantity and reductions of any left behind. -/
def Reached (b : OrderBook) : Prop := ∃ before reference cs, b = (init before reference).calls cs ∧
  (∀ side p, Call.add side p 0 ∉ cs) ∧ (init before reference).SumsFit cs

theorem noBlankTouch_of_quantities (b : OrderBook) (cs : List Call) (positive : ∀ side p, Call.add side p 0 ∉ cs) :
    b.NoBlankTouch cs := by
  induction cs generalizing b with
  | nil => trivial
  | cons c cs ih =>
    have later : ∀ side p, Call.add side p 0 ∉ cs := fun side p member => positive side p (List.mem_cons_of_mem c member)
    cases c with
    | add side p qty =>
      refine ⟨?_,ih _ later⟩
      rintro ⟨rfl,_⟩
      exact positive side p List.mem_cons_self
    | reduce side p qty => exact ih _ later

theorem Reached.topOfBook {b : OrderBook} (reached : b.Reached) : b.TopOfBook := by
  obtain ⟨before,reference,cs,rfl,positive,fits⟩ := reached
  have visible := noBlankTouch_of_quantities (init before reference) cs positive
  exact (calls_topOfBook_iff _ cs (init_topOfBook before reference) fits).mpr visible cs (List.prefix_refl _)

theorem pricesFit_of_band (b : OrderBook) (band : b.basePrice.toInt + kLevels ≤ 2^63) : b.PricesFit := by
  rintro side p ⟨k,_,rfl⟩
  have bound := k.isLt
  omega

/-- No 2^31 calls bring more to a level than it can hold. -/
theorem short_sumsFit (b : OrderBook) (cs : List Call) (n : Nat)
    (bounded : ∀ side k, 0 ≤ (b.side side k).toInt ∧ (b.side side k).toInt ≤ n * (2^32 - 1))
    (short : n + cs.length ≤ 2^31) : b.SumsFit cs := by
  induction cs generalizing b n with
  | nil => trivial
  | cons c cs ih =>
    rw [List.length_cons] at short
    cases c with
    | add side p qty =>
      have size := qty.toNat_lt
      refine ⟨fun k _ => ?_,ih _ (n + 1) (fun other k => ?_) (by omega)⟩
      · have level := (bounded side k).2
        omega
      · have level := bounded other k
        simp only [call,add_side]
        split
        · rw [Word.toInt_add_widen _ _ level.1 (by omega)]
          omega
        · omega
    | reduce side p qty =>
      refine ih _ n (fun other k => ?_) (by omega)
      have level := bounded other k
      simp only [call,reduce_side]
      split
      · rw [reduced_toInt _ _ level.1]
        omega
      · exact level

theorem reached_of_short (before : OrderBook) (reference : Int64) (cs : List Call)
    (positive : ∀ side p, Call.add side p 0 ∉ cs) (short : cs.length ≤ 2^31) :
    ((init before reference).calls cs).Reached := by
  refine ⟨before,reference,cs,rfl,positive,short_sumsFit _ cs 0 (fun side k => ?_) (by omega)⟩
  cases side <;> exact ⟨le_refl _,le_refl _⟩

end OrderBook

namespace NbboAggregator

def IsBest : Side → Set Int → Int → Prop
  | .buy,s,p => IsGreatest s p
  | .sell,s,p => IsLeast s p

def rank : Side → Int → Int
  | .buy,p => p
  | .sell,p => -p

theorem isBest_iff (side : Side) (s : Set Int) (p : Int) :
    IsBest side s p ↔ p ∈ s ∧ ∀ other ∈ s, rank side other ≤ rank side p := by
  cases side with
  | buy => exact Iff.rfl
  | sell => simp only [IsBest,IsLeast,mem_lowerBounds,rank,neg_le_neg_iff]

theorem rank_injective (side : Side) (p q : Int) (same : rank side p = rank side q) : p = q := by
  cases side with
  | buy => exact same
  | sell => exact neg_injective same

def sideQuote : Side → OrderBook → Int32 → Quote
  | .buy => bidQuote
  | .sell => askQuote

def sideOracle : Side → OrderBook → Int32 → Quote
  | .buy => oracleBestBid
  | .sell => oracleBestAsk

def sideBeats : Side → Quote → Quote → Bool
  | .buy => outbids
  | .sell => undercuts

def sideBest : Side → List OrderBook → Quote
  | .buy => bestBid
  | .sell => bestOffer

theorem sideBest_eq (side : Side) (venues : List OrderBook) :
    sideBest side venues = consolidate (sideBeats side) (sideQuote side) venues := by
  cases side <;> rfl

theorem beats_iff (side : Side) (x y : Quote) :
    sideBeats side x y = true ↔ rank side y.priceTicks.toInt < rank side x.priceTicks.toInt := by
  cases side <;> simp [sideBeats,outbids,undercuts,rank,Int64.lt_iff_toInt_lt]

/-- What one book's quote says of its levels. -/
structure Shows (b : OrderBook) (side : Side) (venueId : Int32) (quote : Quote) : Prop where
  valid_iff : quote.valid = true ↔ (b.prices side).Nonempty
  venueId : quote.valid = true → quote.venueId = venueId
  price : quote.valid = true → IsBest side (b.prices side) quote.priceTicks.toInt

theorem priceAt_toInt {b : OrderBook} (fit : b.PricesFit) (side : Side) (k : Fin kLevels)
    (held : 0 < (b.side side k).toInt) : (b.basePrice + Int64.ofInt (k : Nat)).toInt = b.basePrice.toInt + (k : Nat) := by
  have size : kLevels = 16384 := rfl
  have bound := k.isLt
  exact Word.toInt_add_ofInt _ _ (Int.natCast_nonneg _) (by omega) (fit side _ ⟨k,held,rfl⟩)

theorem shows_void (b : OrderBook) (side : Side) (venueId : Int32) (empty : ∀ k, b.side side k = 0) :
    Shows b side venueId {} := by
  refine ⟨?_,by simp,by simp⟩
  simp [Set.Nonempty,prices,empty]

theorem shows_level {b : OrderBook} (fit : b.PricesFit) (side : Side) (venueId : Int32) (qty : UInt32)
    (k : Fin kLevels) (held : 0 < (b.side side k).toInt)
    (best : ∀ j : Fin kLevels, 0 < (b.side side j).toInt → rank side (j : Nat) ≤ rank side (k : Nat)) :
    Shows b side venueId ⟨venueId,b.basePrice + Int64.ofInt (k : Nat),qty,true⟩ := by
  refine ⟨by simp; exact ⟨_,k,held,rfl⟩,fun _ => rfl,fun _ => ?_⟩
  rw [priceAt_toInt fit side k held,isBest_iff]
  refine ⟨⟨k,held,rfl⟩,?_⟩
  rintro p ⟨j,more,rfl⟩
  have behind := best j more
  cases side with
  | buy => exact Int.add_le_add_left behind _
  | sell =>
    simp only [rank] at behind ⊢
    omega

theorem shows_quote {b : OrderBook} (top : b.TopOfBook) (fit : b.PricesFit) (side : Side) (venueId : Int32) :
    Shows b side venueId (sideQuote side b venueId) := by
  have occupied_of (levels : Levels) (j : Fin kLevels) (more : 0 < (levels j).toInt) :
      (j : Int) ∈ occupied levels := ⟨j,(Word.eq_zero_iff _).not.mpr more.ne',rfl⟩
  cases side with
  | buy =>
    rcases bidBest_cases top.bidBest with ⟨none_,empty⟩ | ⟨k,best,held⟩
    · have void : sideQuote .buy b venueId = {} := by simp [sideQuote,bidQuote,hasBid,none_]
      rw [void]
      exact shows_void b .buy venueId empty
    · have quote : sideQuote .buy b venueId =
          ⟨venueId,b.basePrice + Int64.ofInt (k : Nat),narrow b.bestBidQty,true⟩ := by
        simp [sideQuote,bidQuote,hasBid,bestBidTicks,best]
      rw [quote]
      refine shows_level fit .buy venueId _ k (pos_of_nonzero _ (top.bidNonneg k) held) fun j more => ?_
      have below := top.bidBest.2 (Or.inr (occupied_of _ j more))
      rwa [best] at below
  | sell =>
    rcases askBest_cases top.askBest with ⟨none_,empty⟩ | ⟨k,best,held⟩
    · have void : sideQuote .sell b venueId = {} := by simp [sideQuote,askQuote,hasAsk,none_]
      rw [void]
      exact shows_void b .sell venueId empty
    · have quote : sideQuote .sell b venueId =
          ⟨venueId,b.basePrice + Int64.ofInt (k : Nat),narrow b.bestAskQty,true⟩ := by
        simp [sideQuote,askQuote,hasAsk,bestAskTicks,best]
      rw [quote]
      refine shows_level fit .sell venueId _ k (pos_of_nonzero _ (top.askNonneg k) held) fun j more => ?_
      have above := top.askBest.2 (Or.inr (occupied_of _ j more))
      rw [best] at above
      exact neg_le_neg above

theorem positiveAt_eq (levels : Levels) (nonneg : ∀ k, 0 ≤ (levels k).toInt) :
    positiveAt levels = occupiedAt levels := by
  funext i
  unfold positiveAt occupiedAt
  split
  next inside =>
    have level := nonneg ⟨i,inside⟩
    simp only [decide_eq_decide,Int64.lt_iff_toInt_lt,ne_eq,Word.eq_zero_iff,Int64.toInt_zero]
    omega
  next => rfl

/-- On a book in order the scan of the levels reads what the best index says. -/
theorem oracle_quote {b : OrderBook} (top : b.TopOfBook) (side : Side) (venueId : Int32) :
    sideOracle side b venueId = sideQuote side b venueId := by
  cases side with
  | buy =>
    have scanned : BidBest b.bidQty (walkBid b.bidQty (kLevels - 1)) :=
      walkBid_best _ _ (by decide) fun i member => Int.le_sub_one_of_lt (occupied_lt _ i member)
    have found : walkDown (positiveAt b.bidQty) kLevels = b.bestBidIdx := by
      rw [positiveAt_eq _ top.bidNonneg]
      exact scanned.unique top.bidBest
    simp only [sideOracle,sideQuote,oracleBestBid,bidQuote,found,hasBid,bestBidTicks,bestBidQty,decide_eq_true_eq]
    split <;> rfl
  | sell =>
    have scanned : AskBest b.askQty (walkAsk b.askQty 0) :=
      walkAsk_best _ _ (le_refl _) (by decide) fun i member => occupied_nonneg _ i member
    have found : walkUp (positiveAt b.askQty) kLevels kLevels = b.bestAskIdx := by
      rw [positiveAt_eq _ top.askNonneg]
      exact scanned.unique top.askBest
    simp only [sideOracle,sideQuote,oracleBestAsk,askQuote,found,hasAsk,bestAskTicks,bestAskQty,decide_eq_true_eq]
    split <;> rfl

/-- The consolidated quote in terms of the levels of every venue. -/
structure Nbbo (side : Side) (venues : List OrderBook) (quote : Quote) : Prop where
  valid_iff : quote.valid = true ↔ ∃ b ∈ venues, (b.prices side).Nonempty
  price : quote.valid = true → IsBest side {p | ∃ b ∈ venues, p ∈ b.prices side} quote.priceTicks.toInt
  venue : quote.valid = true →
    IsLeast {i : Int | ∃ n b, i = (n : Nat) ∧ venues[n]? = some b ∧ quote.priceTicks.toInt ∈ b.prices side}
      quote.venueId.toInt

theorem quotes_get (quote : OrderBook → Int32 → Quote) (venues : List OrderBook) (n : Nat) :
    (quotes quote venues)[n]? = venues[n]?.map fun b => quote b (Int32.ofNat n) := by
  simp [quotes,List.getElem?_zipIdx,Function.comp_def]

theorem mem_quotes {quote : OrderBook → Int32 → Quote} {venues : List OrderBook} {q : Quote} :
    q ∈ quotes quote venues ↔ ∃ n b, venues[n]? = some b ∧ quote b (Int32.ofNat n) = q := by
  simp only [List.mem_iff_getElem?,quotes_get,Option.map_eq_some_iff]

/-- A quote sits at the index of the venue it was read from. -/
theorem quotes_named {quote : OrderBook → Int32 → Quote} {venues : List OrderBook} {before after : List Quote}
    {q : Quote} (split : quotes quote venues = before ++ q :: after) :
    ∃ b, venues[before.length]? = some b ∧ quote b (Int32.ofNat before.length) = q := by
  have placed : (quotes quote venues)[before.length]? = some q := by simp [split]
  rwa [quotes_get,Option.map_eq_some_iff] at placed

theorem quotes_before {quote : OrderBook → Int32 → Quote} {venues : List OrderBook} {before after : List Quote}
    (split : quotes quote venues = before ++ after) {n : Nat} {b : OrderBook} (there : venues[n]? = some b)
    (earlier : n < before.length) : quote b (Int32.ofNat n) ∈ before := by
  have quoted : (quotes quote venues)[n]? = some (quote b (Int32.ofNat n)) := by
    rw [quotes_get,there,Option.map_some]
  rw [split,List.getElem?_append_left earlier] at quoted
  exact List.mem_of_getElem? quoted

section Consolidate
variable {side : Side} {venues : List OrderBook} {quote : Quote}
  (top : ∀ b ∈ venues, b.TopOfBook) (fit : ∀ b ∈ venues, b.PricesFit) (few : venues.length ≤ 2^31)
include top

theorem consolidate_oracle (side : Side) :
    sideBest side venues = consolidate (sideBeats side) (sideOracle side) venues := by
  rw [sideBest_eq]
  unfold consolidate quotes
  refine congrArg _ (List.map_congr_left fun entry member => ?_)
  exact (oracle_quote (top _ (List.fst_mem_of_mem_zipIdx member)) side _).symm

include fit

theorem shows_venue (side : Side) (n : Nat) (b : OrderBook) (here : venues[n]? = some b) :
    Shows b side (Int32.ofNat n) (sideQuote side b (Int32.ofNat n)) :=
  shows_quote (top b (List.mem_of_getElem? here)) (fit b (List.mem_of_getElem? here)) side _

theorem void_nbbo (void : ∀ q ∈ quotes (sideQuote side) venues, q.valid = false) : Nbbo side venues {} := by
  refine ⟨⟨by simp,?_⟩,by simp,by simp⟩
  rintro ⟨b,member,filled⟩
  obtain ⟨n,here⟩ := List.mem_iff_getElem?.mp member
  have invalid := void _ (mem_quotes.mpr ⟨n,b,here,rfl⟩)
  rw [(shows_venue top fit side n b here).valid_iff.mpr filled] at invalid
  contradiction

include few

theorem leads_nbbo (leads : Leader.Leads Quote.valid (fun q => rank side q.priceTicks.toInt)
    (quotes (sideQuote side) venues) quote) : Nbbo side venues quote := by
  obtain ⟨before,after,split,first⟩ := leads.place
  obtain ⟨b,here,rfl⟩ := quotes_named split
  have shows := shows_venue top fit side before.length b here
  have bound := (List.getElem?_eq_some_iff.mp here).1
  have priced := shows.price leads.counts
  have index : (Int32.ofNat before.length).toInt = before.length := Int32.toInt_ofNat_of_lt (by omega)
  -- a price of venue n is no better than that venue's quote
  have bounded (n : Nat) (other : OrderBook) (there : venues[n]? = some other) (p : Int)
      (inside : p ∈ other.prices side) : (sideQuote side other (Int32.ofNat n)).valid = true ∧
        rank side p ≤ rank side (sideQuote side other (Int32.ofNat n)).priceTicks.toInt := by
    have shown := shows_venue top fit side n other there
    have counts := shown.valid_iff.mpr ⟨p,inside⟩
    exact ⟨counts,((isBest_iff side _ _).mp (shown.price counts)).2 p inside⟩
  refine ⟨⟨fun _ => ⟨b,List.mem_of_getElem? here,shows.valid_iff.mp leads.counts⟩,fun _ => leads.counts⟩,?_,?_⟩
  · intro _
    rw [isBest_iff] at priced ⊢
    refine ⟨⟨b,List.mem_of_getElem? here,priced.1⟩,?_⟩
    rintro p ⟨other,member,inside⟩
    obtain ⟨n,there⟩ := List.mem_iff_getElem?.mp member
    obtain ⟨counts,behind⟩ := bounded n other there p inside
    exact behind.trans (leads.best _ (mem_quotes.mpr ⟨n,other,there,rfl⟩) counts)
  · intro _
    rw [shows.venueId leads.counts,index]
    refine ⟨⟨before.length,b,rfl,here,((isBest_iff side _ _).mp priced).1⟩,?_⟩
    rintro i ⟨n,other,rfl,there,inside⟩
    by_contra earlier
    obtain ⟨counts,behind⟩ := bounded n other there _ inside
    have inside := quotes_before split there (by omega)
    exact absurd (first _ inside counts) (not_lt.mpr behind)

theorem consolidate_nbbo (side : Side) : Nbbo side venues (sideBest side venues) := by
  rw [sideBest_eq]
  unfold consolidate
  rcases Leader.scan_leads Quote.valid (sideBeats side) (beats_iff side) {} rfl
    (quotes (sideQuote side) venues) with ⟨same,void⟩ | leads
  · rw [same]
    exact void_nbbo top fit void
  · exact leads_nbbo top fit few leads

end Consolidate

/-- The quotes over any vector of venues are the best of all their levels, first venue first, and
what folding the oracle over the venues gives. -/
theorem nbbo_consolidation (venues : List OrderBook) (reached : ∀ b ∈ venues, b.Reached)
    (fit : ∀ b ∈ venues, b.PricesFit) (few : venues.length ≤ 2^31) :
    Nbbo .buy venues (bestBid venues) ∧ bestBid venues = consolidate outbids oracleBestBid venues ∧
    Nbbo .sell venues (bestOffer venues) ∧ bestOffer venues = consolidate undercuts oracleBestAsk venues := by
  have top : ∀ b ∈ venues, b.TopOfBook := fun b member => (reached b member).topOfBook
  exact ⟨consolidate_nbbo top fit few .buy,consolidate_oracle top .buy,consolidate_nbbo top fit few .sell,
    consolidate_oracle top .sell⟩

/-- A venue that shows one bid. -/
def bidding (priceTicks : Int64) (qty : UInt32) : OrderBook := (init {} 10000).calls [.add .buy priceTicks qty]

theorem bidding_reached (p : Int64) (qty : UInt32) (positive : qty ≠ 0) :
    (bidding p qty).Reached ∧ (bidding p qty).PricesFit := by
  refine ⟨reached_of_short {} 10000 _ ?_ (by simp),pricesFit_of_band _ ?_⟩
  · intro side p member
    obtain ⟨_,_,blank⟩ := Call.add.inj (List.mem_singleton.mp member)
    exact positive blank.symm
  · rw [bidding,calls_basePrice]
    decide

theorem nbbo_consolidation_two : Nbbo .buy [bidding 9999 5,bidding 10001 3] (bestBid [bidding 9999 5,bidding 10001 3]) :=
  (nbbo_consolidation [bidding 9999 5,bidding 10001 3]
    (by simp [bidding_reached]) (by simp [bidding_reached]) (by decide)).1

/-- One level that takes `n` adds of the largest quantity. -/
def filled (n : Nat) : OrderBook := (init {} 10000).calls (List.replicate n (.add .buy 10000 4294967295))

/-- A band that runs past the last 64-bit price. -/
def edge : OrderBook :=
  (init {} 9223372036854775807).calls [.add .buy 9223372036854775807 5,.add .buy (-9223372036854775808) 7]

/-- More venues than an `int` counts; the first and the last show a bid, the last the better one. -/
def crowd : List OrderBook :=
  bidding 9999 5 :: List.replicate (2^31 - 1) (init {} 10000) ++ [bidding 10001 3]

theorem filled_levels (n : Nat) :
    (filled n).bidQty = Function.update (fun _ => 0) ⟨8192,by decide⟩ (Int64.ofNat (n * (2^32 - 1))) ∧
    (0 < n → (filled n).hasBid = true) := by
  induction n with
  | zero => exact ⟨by simp [filled,init],fun contra => absurd contra (Nat.lt_irrefl 0)⟩
  | succ n ih =>
    have last : filled (n + 1) = (filled n).call (.add .buy 10000 4294967295) := by
      simp [filled,calls,List.replicate_succ']
    have located : (filled n).level 10000 = some ⟨8192,by decide⟩ := by
      have same : (filled n).level 10000 = (init {} 10000).level 10000 := by
        simp [level,indexOf,filled,calls_basePrice]
      rw [same]
      decide
    have size : Word.widen 4294967295 = Int64.ofNat (2^32 - 1) := by decide
    rw [last]
    refine ⟨?_,fun _ => ?_⟩
    · simp only [call,add,located,ih.1,Function.update_self,Function.update_idem,size]
      rw [← Int64.ofNat_add,Nat.succ_mul]
    · simp only [call,add,located,hasBid,decide_eq_true_eq]
      split <;> omega

theorem best_single (b : OrderBook) (shown : b.hasBid = true) : bestBid [b] = bidQuote b 0 := by
  simp [bestBid,consolidate,quotes,Leader.scan,Leader.contend,bidQuote,shown]

theorem ends_best (n : Nat) (first last : OrderBook) (shown : first.hasBid = true) :
    bestBid (first :: List.replicate n (init {} 10000) ++ [last]) =
      Leader.contend Quote.valid outbids (bidQuote first 0) (bidQuote last (Int32.ofNat (n + 1))) := by
  have void (i : Nat) : ∀ q ∈ ((List.replicate n (init {} 10000)).zipIdx i).map fun (book,i) =>
      bidQuote book (Int32.ofNat i), q.valid = false := by
    intro q member
    obtain ⟨⟨book,j⟩,inside,rfl⟩ := List.mem_map.mp member
    obtain rfl : book = init {} 10000 := List.eq_of_mem_replicate (List.fst_mem_of_mem_zipIdx inside)
    rfl
  have opening : Leader.contend Quote.valid outbids {} (bidQuote first 0) = bidQuote first 0 := by
    simp [Leader.contend,bidQuote,shown]
  rw [bestBid,consolidate,quotes,List.zipIdx_append,List.map_append,List.zipIdx_cons,List.map_cons]
  simp only [List.zipIdx_singleton,List.map_singleton,Leader.scan_concat]
  refine congrArg₂ (Leader.contend _ _) ?_ (by simp)
  rw [Leader.scan,List.foldl_cons]
  exact (congrArg (List.foldl _ · _) opening).trans (Leader.scan_void _ _ (void _))

theorem crowd_best : bestBid crowd = bidQuote (bidding 10001 3) (Int32.ofNat (2^31)) := by
  refine (ends_best _ _ _ (by decide)).trans ?_
  decide

theorem filled_positive (side : Side) (p : Int64) :
    Call.add side p 0 ∉ List.replicate (2^31 + 1) (Call.add .buy 10000 4294967295) := by
  intro member
  obtain ⟨_,_,blank⟩ := Call.add.inj (List.eq_of_mem_replicate member)
  exact absurd blank (by decide)

theorem filled_void : (filled (2^31 + 1)).hasBid = true ∧ (filled (2^31 + 1)).prices .buy = ∅ := by
  obtain ⟨levels,shown⟩ := filled_levels (2^31 + 1)
  refine ⟨shown (by decide),Set.eq_empty_of_forall_notMem ?_⟩
  rintro p ⟨k,held,_⟩
  rw [OrderBook.side,levels] at held
  by_cases here : k = ⟨8192,by decide⟩
  · rw [here,Function.update_self] at held
    exact absurd held (by decide)
  · rw [Function.update_of_ne here] at held
    exact absurd held (by decide)

theorem edge_reached : edge.Reached := by
  refine reached_of_short {} _ _ ?_ (by decide)
  intro side p member
  simp at member

theorem crowd_reached : ∀ b ∈ crowd, b.Reached ∧ b.PricesFit := by
  intro b member
  simp only [crowd,List.mem_append,List.mem_cons,List.not_mem_nil,or_false] at member
  rcases member with (rfl | many) | rfl
  · exact bidding_reached 9999 5 (by decide)
  · rw [List.eq_of_mem_replicate many]
    exact ⟨reached_of_short {} 10000 [] (by simp) (by simp),pricesFit_of_band _ (by decide)⟩
  · exact bidding_reached 10001 3 (by decide)

/-- A level past 2^63 shows a bid with no positive level, a price past 2^63 wraps below every
other, and an index past 2^31 names no venue. -/
theorem nbbo_fails :
    ((∀ side p, Call.add side p 0 ∉ List.replicate (2^31 + 1) (Call.add .buy 10000 4294967295)) ∧
      ¬Nbbo .buy [filled (2^31 + 1)] (bestBid [filled (2^31 + 1)])) ∧
    (edge.Reached ∧ ¬Nbbo .buy [edge] (bestBid [edge])) ∧
    ((∀ b ∈ crowd, b.Reached ∧ b.PricesFit) ∧ ¬Nbbo .buy crowd (bestBid crowd)) := by
  refine ⟨⟨filled_positive,fun nbbo => ?_⟩,⟨edge_reached,fun nbbo => ?_⟩,crowd_reached,fun nbbo => ?_⟩
  · obtain ⟨shown,empty⟩ := filled_void
    have valid : (bestBid [filled (2^31 + 1)]).valid = true := by
      rw [best_single _ shown,bidQuote,if_pos shown]
    obtain ⟨b,member,filled⟩ := nbbo.valid_iff.mp valid
    rw [List.mem_singleton.mp member] at filled
    exact absurd empty filled.ne_empty
  · have shown : edge.hasBid = true := by decide
    have price : (bestBid [edge]).priceTicks = -9223372036854775808 := by
      rw [best_single _ shown]
      decide
    have valid : (bestBid [edge]).valid = true := by
      rw [best_single _ shown]
      decide
    obtain ⟨b,member,k,_,level⟩ := (nbbo.price valid).1
    rw [price,List.mem_singleton.mp member,edge,calls_basePrice] at level
    have base : (init {} 9223372036854775807).basePrice.toInt = 9223372036854767615 := by decide
    have wrapped : (-9223372036854775808 : Int64).toInt = -9223372036854775808 := by decide
    omega
  · have shown : (bidding 10001 3).hasBid = true := by decide
    rw [crowd_best,bidQuote,if_pos shown] at nbbo
    obtain ⟨n,_,index,_⟩ := (nbbo.venue rfl).1
    have wrapped : (Int32.ofNat (2^31)).toInt = -2147483648 := by decide
    simp only [wrapped] at index
    omega

end NbboAggregator
end MarketFeed
