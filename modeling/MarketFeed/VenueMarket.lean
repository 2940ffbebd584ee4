import MarketFeed.GeneratedBooks
import MarketFeed.GeneratedQueues
import MarketFeed.QuoteSize

/-! Venues that quote one symbol, each with an order flow of its own, stepped in any order. The
consolidated quotes are the best of the orders that the generators keep live. -/
namespace MarketFeed
open FiniteMap OrderBook MarketSimulator NbboAggregator

namespace MarketSimulator

/-- The shares of the orders a generator keeps live. -/
def liveQty (live : List LiveOrder) : Nat := (live.map fun lo => lo.qty.toNat).sum

theorem leftover_qty (lo : LiveOrder) (qty : UInt32) (enough : qty ≤ lo.qty) :
    liveQty (leftover lo qty) ≤ lo.qty.toNat := by
  unfold leftover
  split
  · exact Nat.zero_le _
  · have less := UInt32.toNat_sub_of_le lo.qty qty enough
    simp only [liveQty,List.map_singleton,List.sum_singleton]
    omega

theorem Emits.liveQty_le {next : UInt64} {ref : Int64} {live live' : List LiveOrder} {m : WireMsg}
    (emits : Emits next ref live m live') : liveQty live' ≤ liveQty live + broughtQty m := by
  have same {xs ys : List LiveOrder} (perm : xs.Perm ys) : liveQty xs = liveQty ys := (perm.map _).sum_eq
  have joined (xs ys : List LiveOrder) : liveQty (xs ++ ys) = liveQty xs + liveQty ys := by simp [liveQty]
  have first (lo : LiveOrder) (rest : List LiveOrder) : liveQty (lo :: rest) = lo.qty.toNat + liveQty rest := by
    simp [liveQty]
  cases emits with
  | add header side price qty _ _ _ lists =>
    rw [same lists,first]
    exact (Nat.add_comm _ _).le
  | exec header lo rest qty _ rests _ enough lists | cancel header lo rest qty _ rests _ enough lists =>
    have left := leftover_qty lo qty enough
    rw [same lists,same rests,joined,first]
    exact Nat.le_add_right_of_le (Nat.add_le_add_right left _)
  | del header lo rest _ rests lists =>
    rw [same lists,same rests,first]
    exact Nat.le_add_right_of_le (Nat.le_add_left _ _)
  | replace header lo rest price qty _ rests _ _ lists =>
    rw [same lists,same rests,first,first]
    change qty.toNat + liveQty rest ≤ lo.qty.toNat + liveQty rest + qty.toNat
    omega

theorem restingAt_le (live : List LiveOrder) (side : Side) (price : Int) : restingAt live side price ≤ liveQty live := by
  refine List.sum_le_sum fun lo _ => ?_
  unfold restsAt
  split
  · exact Nat.le_refl _
  · exact Nat.zero_le _

end MarketSimulator

namespace VenueFeed

/-- The prices a venue's generator keeps orders live at, as far as its book reaches. -/
def livePrices (v : VenueFeed) (side : Side) : Set Int :=
  MarketSimulator.livePrices v.book.basePrice (v.sim.liveOrders 0) side

/-- The book of a venue quotes what its generator keeps live. -/
structure Quotes (v : VenueFeed) : Prop where
  images : Images v.book (v.sim.liveOrders 0)
  prices : ∀ side, v.book.prices side = v.livePrices side
  band : v.book.basePrice.toInt + kLevels ≤ 2^31
  small : ∀ side price, restingAt (v.sim.liveOrders 0) side price < 2^32

theorem prices_touch {book : OrderBook} {orders : OrderMap} (depth : Depth book orders) (side : Side) :
    book.prices side = touchPrices book.basePrice orders.lookup side := by
  have nonneg (k : Fin kLevels) : 0 ≤ (book.side side k).toInt := by
    rw [depth.exact]
    exact Int.natCast_nonneg _
  have occupied (k : Fin kLevels) : 0 < (book.side side k).toInt ↔
      book.basePrice.toInt + k ∈ touchPrices book.basePrice orders.lookup side := by
    have level := nonneg k
    rw [← mem_occupied_iff book orders depth side k,ne_eq,Word.eq_zero_iff]
    omega
  ext p
  refine ⟨?_,fun member => ?_⟩
  · rintro ⟨k,held,rfl⟩
    exact (occupied k).mp held
  · obtain ⟨k,rfl⟩ := price_index _ _ _ _ member
    exact ⟨k,(occupied k).mpr member,rfl⟩

section Run
variable (venueId : Int) (rng : Nat → Draw) (reference : Int64)

theorem after_live (k : Nat) (few : k < 2^64) :
    liveQty (((MarketSimulator.construct rng 1).after k).liveOrders 0) ≤ 500 * k := by
  induction k with
  | zero =>
    have blank := (construct_fields rng 1).2.2.1
    change liveQty ((MarketSimulator.construct rng 1).liveOrders 0) ≤ _
    rw [blank]
    exact Nat.le_refl _
  | succ k ih =>
    have before := ih (by omega)
    obtain ⟨step,_,writes⟩ := (after_follows 0 rng 0 k (by omega)).writes
    have grown := writes.emits.liveQty_le
    rw [after_message] at grown
    change liveQty (((construct 0 rng 0).after (k + 1)).sim.liveOrders 0) ≤
      liveQty (((construct 0 rng 0).after k).sim.liveOrders 0) + _ at grown
    rw [after_sim,after_sim] at grown
    have brought := ((MarketSimulator.construct rng 1).after k).nextMessage_brings
    change broughtQty ((MarketSimulator.construct rng 1).message k) ≤ 500 at brought
    change liveQty (((MarketSimulator.construct rng 1).after (k + 1)).liveOrders 0) ≤
      liveQty (((MarketSimulator.construct rng 1).after k).liveOrders 0) +
        broughtQty ((MarketSimulator.construct rng 1).message k) at grown
    omega

theorem after_replayed (k : Nat) (few : k < 2^64) :
    (((construct venueId rng reference).after k).book,((construct venueId rng reference).after k).orders) =
      replayed (fun _ => reference) ((MarketSimulator.construct rng 1).generated k) 0 := by
  induction k with
  | zero => rfl
  | succ k ih =>
    have before := ih (by omega)
    have known := (message_consistent rng 1 (by decide) (by decide) k (by omega)).1
    rw [generated_succ,replayed_concat,if_pos (Nat.lt_one_iff.mp known),← before,after,step_book,step_orders,
      after_message]
    rfl

/-- Room for the run of a venue: no index is narrowed and no level outgrows 32 bits. -/
structure Fits (reference : Int64) (k : Nat) : Prop where
  nonneg : 0 ≤ reference.toInt
  low : reference.toInt ≤ 2^30
  short : k ≤ 8589934

theorem after_quotes (k : Nat) (fits : Fits reference k) : Quotes ((construct venueId rng reference).after k) := by
  obtain ⟨nonneg,low,short⟩ := fits
  have size : kHalf = 8192 := rfl
  have wide : (kLevels : Int) = 16384 := rfl
  have centred : Centred rng 1 (fun _ => reference) k 0 := by
    obtain ⟨least,most⟩ := initialPrice_range (rng 0)
    rw [← construct_refPrice rng 1 0 Nat.one_pos] at least most
    refine ⟨nonneg,?_⟩
    have apart : |reference.toInt - ((MarketSimulator.construct rng 1).refPrice 0).toInt| ≤ 2^30 + 40000 :=
      abs_le.mpr ⟨by omega,by omega⟩
    change |reference.toInt - ((MarketSimulator.construct rng 1).refPrice 0).toInt| + _ ≤ _
    omega
  obtain ⟨_,keeps⟩ := generated_centred rng 1 (by decide) (by decide) (fun _ => reference) k fun i inside => by
    rw [Nat.lt_one_iff.mp inside]
    exact centred
  have replayed := after_replayed venueId rng reference k (by omega)
  obtain ⟨depth,base,_⟩ := keeps 0 Nat.one_pos
  rw [← replayed] at depth base
  have shows := (after_follows venueId rng reference k (by omega)).shows
  have based := base_toInt {} reference nonneg (by omega)
  refine ⟨.of_depth depth shows,fun side => (prices_touch depth side).trans (shows.touchPrices_eq _ side),?_,
    fun side price => ?_⟩
  · change ((construct venueId rng reference).after k).book.basePrice = _ at base
    rw [base,based]
    omega
  · have part := restingAt_le (((construct venueId rng reference).after k).sim.liveOrders 0) side price
    have live := after_live rng k (by omega)
    rw [after_sim] at part ⊢
    change _ ≤ liveQty (((MarketSimulator.construct rng 1).after k).liveOrders 0) at part
    omega

end Run

theorem Quotes.qtyAt {v : VenueFeed} (quotes : Quotes v) (side : Side) (p : Int64) (live : p.toInt ∈ v.livePrices side) :
    (v.book.qtyAt side p).toInt = restingAt (v.sim.liveOrders 0) side p.toInt := by
  obtain ⟨lo,_,_,inBand,price⟩ := live
  rw [Int64.toInt_inj.mp price] at inBand
  have inside := inBand
  obtain ⟨low,high⟩ := inside
  have located : v.book.level p = some ⟨(p.toInt - v.book.basePrice.toInt).toNat,by omega⟩ :=
    (level_near _ _ inBand.near _).mpr (by simp only; omega)
  have index : v.book.basePrice.toInt + ((p.toInt - v.book.basePrice.toInt).toNat : Int) = p.toInt := by omega
  have level := quotes.images.levels side ⟨(p.toInt - v.book.basePrice.toInt).toNat,by omega⟩
  simp only [index] at level
  simp only [OrderBook.qtyAt,located,level]

end VenueFeed

namespace VenueMarket
open VenueFeed

/-- One venue an engine, all told one reference price. -/
def opened (engines : List (Nat → Draw)) (reference : Int64) : List VenueFeed :=
  engines.zipIdx.map fun (rng,i) => VenueFeed.construct i rng reference

/-- `venues[i].step()`. -/
def turn (venues : List VenueFeed) (i : Nat) : List VenueFeed := venues.modify i fun v => v.step.2

def session (engines : List (Nat → Draw)) (reference : Int64) (turns : List Nat) : List VenueFeed :=
  turns.foldl turn (opened engines reference)

def books (venues : List VenueFeed) : List OrderBook := venues.map VenueFeed.book

/-- Every venue steps once. -/
def stepAll (venues : List VenueFeed) : List VenueFeed := venues.map fun v => v.step.2

def rounds (venues : List VenueFeed) : Nat → List VenueFeed
  | 0 => venues
  | k + 1 => stepAll (rounds venues k)

/-- Where a venue stands depends on its own turns alone, whatever the order. -/
theorem session_get (engines : List (Nat → Draw)) (reference : Int64) (turns : List Nat) (i : Nat) :
    (session engines reference turns)[i]? =
      engines[i]?.map fun rng => (VenueFeed.construct i rng reference).after (turns.count i) := by
  induction turns using List.reverseRecOn with
  | nil => simp [session,opened,List.getElem?_zipIdx,Function.comp_def,VenueFeed.after]
  | append_singleton done j ih =>
    have last : session engines reference (done ++ [j]) = turn (session engines reference done) j := by
      simp [session]
    rw [last,turn,List.getElem?_modify,ih,List.count_append,List.count_singleton]
    rcases eq_or_ne j i with rfl | other
    · simp [Function.comp_def,VenueFeed.after]
    · simp [other]

theorem rounds_get (engines : List (Nat → Draw)) (reference : Int64) (k i : Nat) :
    (rounds (opened engines reference) k)[i]? =
      engines[i]?.map fun rng => (VenueFeed.construct i rng reference).after k := by
  induction k with
  | zero => simp [rounds,opened,List.getElem?_zipIdx,Function.comp_def,VenueFeed.after]
  | succ k ih =>
    rw [rounds,stepAll,List.getElem?_map,ih,Option.map_map]
    rfl

theorem rounds_length (venues : List VenueFeed) (k : Nat) : (rounds venues k).length = venues.length := by
  induction k with
  | zero => rfl
  | succ k ih => rw [rounds,stepAll,List.length_map,ih]

theorem rounds_quotes (engines : List (Nat → Draw)) (reference : Int64) (k : Nat)
    (fits : VenueFeed.Fits reference k) : ∀ v ∈ rounds (opened engines reference) k, v.Quotes := by
  intro v member
  obtain ⟨i,here⟩ := List.mem_iff_getElem?.mp member
  rw [rounds_get,Option.map_eq_some_iff] at here
  obtain ⟨rng,_,rfl⟩ := here
  exact after_quotes i rng reference k fits

/-- The consolidated quote of a side, read off the generators. -/
structure FlowQuote (side : Side) (venues : List VenueFeed) (quote : Quote) : Prop where
  valid_iff : quote.valid = true ↔ ∃ v ∈ venues, (v.livePrices side).Nonempty
  price : quote.valid = true → IsBest side {p | ∃ v ∈ venues, p ∈ v.livePrices side} quote.priceTicks.toInt
  venue : quote.valid = true → ∃ (n : Nat) (v : VenueFeed), venues[n]? = some v ∧ quote.venueId.toInt = n ∧
    quote.priceTicks.toInt ∈ v.livePrices side ∧
    (∀ m w, m < n → venues[m]? = some w → quote.priceTicks.toInt ∉ w.livePrices side) ∧
    quote.qty.toNat = restingAt (v.sim.liveOrders 0) side quote.priceTicks.toInt

section Quotes
variable {venues : List VenueFeed} (quotes : ∀ v ∈ venues, v.Quotes) (few : venues.length ≤ 2^31)
include quotes

theorem books_get {n : Nat} {b : OrderBook} (here : (books venues)[n]? = some b) :
    ∃ v, venues[n]? = some v ∧ v.book = b ∧ v.Quotes := by
  rw [books,List.getElem?_map,Option.map_eq_some_iff] at here
  obtain ⟨v,there,rfl⟩ := here
  exact ⟨v,there,rfl,quotes v (List.mem_of_getElem? there)⟩

theorem books_top : ∀ b ∈ books venues, b.TopOfBook ∧ b.PricesFit := by
  intro b member
  obtain ⟨v,inside,rfl⟩ := List.mem_map.mp member
  have band := (quotes v inside).band
  exact ⟨(quotes v inside).images.top,pricesFit_of_band _ (by omega)⟩

include few

theorem books_small (side : Side) : SmallTouch side (books venues) := by
  intro n b foremost
  obtain ⟨v,there,rfl,own⟩ := books_get quotes foremost.here
  have inside := (List.getElem?_eq_some_iff.mp there).1
  have top := own.images.top
  obtain ⟨positive,level⟩ := touch_level side top foremost.shown
  refine ⟨by omega,?_⟩
  have live : (touchTicks side v.book).toInt ∈ v.livePrices side := by
    rw [← own.prices]
    have shows := shows_quote top (pricesFit_of_band v.book (by have band := own.band; omega)) side 0
    rw [sideQuote_shown side v.book 0 foremost.shown] at shows
    exact ((isBest_iff side _ _).mp (shows.price rfl)).1
  rw [← level,own.qtyAt side _ live]
  exact_mod_cast own.small side _

theorem flowQuote (side : Side) : FlowQuote side venues (sideBest side (books venues)) := by
  have top : ∀ b ∈ books venues, b.TopOfBook := fun b member => (books_top quotes b member).1
  have fit : ∀ b ∈ books venues, b.PricesFit := fun b member => (books_top quotes b member).2
  have length : (books venues).length ≤ 2^31 := by rwa [books,List.length_map]
  have nbbo := consolidate_nbbo top fit length side
  have sized := (trueSize_iff side (books venues) top).mpr (books_small quotes few side)
  have listed (P : Set Int → Prop) : (∃ b ∈ books venues, P (b.prices side)) ↔ ∃ v ∈ venues, P (v.livePrices side) := by
    simp only [books,List.mem_map,exists_exists_and_eq_and]
    exact exists_congr fun v => and_congr_right fun inside => by rw [(quotes v inside).prices]
  refine ⟨?_,fun valid => ?_,fun valid => ?_⟩
  · rw [nbbo.valid_iff]
    exact listed Set.Nonempty
  · have every : {p | ∃ b ∈ books venues, p ∈ b.prices side} = {p | ∃ v ∈ venues, p ∈ v.livePrices side} := by
      ext p
      exact listed fun prices => p ∈ prices
    rw [← every]
    exact nbbo.price valid
  · obtain ⟨⟨k,c,index,there,inside⟩,least⟩ := nbbo.venue valid
    obtain ⟨n,b,named,here,_,_,qty,_⟩ := sized valid
    have same : n = k := by
      rw [named] at index
      exact_mod_cast index
    subst same
    obtain rfl : b = c := Option.some.inj (here.symm.trans there)
    obtain ⟨v,found,rfl,own⟩ := books_get quotes here
    rw [own.prices] at inside
    refine ⟨n,v,found,named,inside,fun m w earlier other live => ?_,?_⟩
    · rw [← (quotes w (List.mem_of_getElem? other)).prices] at live
      have first := least ⟨m,w.book,rfl,by simp [books,other],live⟩
      rw [index] at first
      omega
    · rw [own.qtyAt side _ inside] at qty
      exact_mod_cast qty

end Quotes

section Session
variable (engines : List (Nat → Draw)) (reference : Int64) (turns : List Nat)
  (placed : 0 ≤ reference.toInt ∧ reference.toInt ≤ 2^30) (short : ∀ i < engines.length, turns.count i ≤ 8589934)
include placed short

theorem session_quotes : ∀ v ∈ session engines reference turns, v.Quotes := by
  intro v member
  obtain ⟨i,here⟩ := List.mem_iff_getElem?.mp member
  rw [session_get,Option.map_eq_some_iff] at here
  obtain ⟨rng,known,rfl⟩ := here
  have inside := (List.getElem?_eq_some_iff.mp known).1
  exact after_quotes i rng reference _ ⟨placed.1,placed.2,short i inside⟩

omit placed short in
theorem session_length : (session engines reference turns).length = engines.length := by
  refine Nat.le_antisymm ?_ ?_
  · refine List.getElem?_eq_none_iff.mp ?_
    rw [session_get,List.getElem?_eq_none (Nat.le_refl _),Option.map_none]
  · refine List.getElem?_eq_none_iff.mp ?_
    have none_ := session_get engines reference turns (session engines reference turns).length
    rw [List.getElem?_eq_none (Nat.le_refl _)] at none_
    exact Option.map_eq_none_iff.mp none_.symm

/-- However the venues take turns, the consolidated quotes are those of the live orders. -/
theorem nbbo_shows_flows (few : engines.length ≤ 2^31) :
    FlowQuote .buy (session engines reference turns) (bestBid (books (session engines reference turns))) ∧
    FlowQuote .sell (session engines reference turns) (bestOffer (books (session engines reference turns))) := by
  have quotes := session_quotes engines reference turns placed short
  have length : (session engines reference turns).length ≤ 2^31 := by rwa [session_length]
  exact ⟨flowQuote quotes length .buy,flowQuote quotes length .sell⟩

end Session

theorem nbbo_shows_flows_three :
    let venues := session [engine 5,engine 3,engine 10] 25000 [2,0,1,0,2,1]
    bestBid (books venues) = ⟨2,24659,151,true⟩ ∧ bestOffer (books venues) = ⟨0,24821,301,true⟩ ∧
      FlowQuote .buy venues (bestBid (books venues)) ∧ FlowQuote .sell venues (bestOffer (books venues)) :=
  ⟨by decide +kernel,by decide +kernel,nbbo_shows_flows [engine 5,engine 3,engine 10] 25000 [2,0,1,0,2,1] (by decide)
    (fun _ _ => List.count_le_length.trans (by decide)) (by decide)⟩

end VenueMarket
end MarketFeed
