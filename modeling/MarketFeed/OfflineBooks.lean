import MarketFeed.GeneratedBooks

/-! `OfflineBooks` and the accessors of the Python module: a generated stream through a normalizer
of any number of shards, read back book by book and level by level. -/
namespace MarketFeed
open OrderBook MarketSimulator

/-- What the bindings of either class read: the books of its normalizer and its reference prices. -/
structure Books where
  normalizer : Normalizer
  refPrice : List Int64

/-- `static_cast<int>(ref_price_.size())`. -/
def Books.numInstruments (o : Books) : Int32 := Int32.ofNat o.refPrice.length

/-- `ref_price_[i]`, which nobody checks: `none` is a read outside the vector. -/
def Books.referencePriceTicks (o : Books) (i : Int32) : Option Int64 := o.refPrice[i.toInt64.toUInt64.toNat]?

/-! The accessors, which both classes of the module define alike. The tables of a normalizer have
`NUM_INSTRUMENTS` entries; what lies behind them is nobody's. -/
namespace Accessor

inductive Failure where
  | outOfRange
  deriving DecidableEq, Repr

def checkInstrument (instrument n : Int32) : Except Failure Unit :=
  if instrument < 0 ∨ instrument ≥ n then .error .outOfRange else .ok ()

/-- `book(static_cast<uint16_t>(instrument))`; `none` is a read outside the tables. -/
def book (o : Books) (instrument : Int32) : Option OrderBook :=
  let i := instrument.toUInt32.toUInt16.toNat
  if i < numInstruments then o.normalizer.bookForInstrument i else none

def bidDepth (o : Books) (instrument : Int32) : Except Failure (Option Levels) := do
  checkInstrument instrument o.numInstruments
  return (book o instrument).map OrderBook.bidQty

def askDepth (o : Books) (instrument : Int32) : Except Failure (Option Levels) := do
  checkInstrument instrument o.numInstruments
  return (book o instrument).map OrderBook.askQty

def basePriceTicks (o : Books) (instrument : Int32) : Except Failure (Option Int64) := do
  checkInstrument instrument o.numInstruments
  return (book o instrument).map OrderBook.basePrice

/-- The accessors of the touch do not check the instrument. The inner `none` is Python's. -/
def bestBidTicks (o : Books) (instrument : Int32) : Option (Option Int64) :=
  (book o instrument).map fun b => if b.hasBid then some b.bestBidTicks else none

def bestAskTicks (o : Books) (instrument : Int32) : Option (Option Int64) :=
  (book o instrument).map fun b => if b.hasAsk then some b.bestAskTicks else none

/-- `np.nonzero(depth)[0]`. -/
def nonzero (levels : Levels) : List Nat := ((List.finRange kLevels).filter fun k => levels k ≠ 0).map Fin.val

/-- The touch as the tests recompute it from the raw levels. -/
def numpyBid (base : Int64) (levels : Levels) : Option Int64 := (nonzero levels).max?.map fun k => base + Int64.ofNat k
def numpyAsk (base : Int64) (levels : Levels) : Option Int64 := (nonzero levels).min?.map fun k => base + Int64.ofNat k

theorem mem_nonzero (levels : Levels) (k : Nat) : k ∈ nonzero levels ↔ ∃ i : Fin kLevels, levels i ≠ 0 ∧ i = k := by
  simp [nonzero]

theorem numpyBid_eq {b : OrderBook} (top : b.TopOfBook) :
    numpyBid b.basePrice b.bidQty = if b.hasBid then some b.bestBidTicks else none := by
  unfold numpyBid
  rcases bidBest_cases top.bidBest with ⟨none_,empty⟩ | ⟨k,best,held⟩
  · have nothing : nonzero b.bidQty = [] := by simp [nonzero,empty]
    simp [nothing,hasBid,none_]
  · have greatest : (nonzero b.bidQty).max? = some (k : Nat) := by
      refine List.max?_eq_some_iff.mpr ⟨(mem_nonzero _ _).mpr ⟨k,held,rfl⟩,fun j member => ?_⟩
      obtain ⟨i,occupied,rfl⟩ := (mem_nonzero _ _).mp member
      have below := top.bidBest.2 (Or.inr ⟨i,occupied,rfl⟩)
      rw [best] at below
      exact_mod_cast below
    have shown : b.hasBid = true := by simp [hasBid,best]
    rw [greatest,if_pos shown,OrderBook.bestBidTicks,best]
    rfl

theorem numpyAsk_eq {b : OrderBook} (top : b.TopOfBook) :
    numpyAsk b.basePrice b.askQty = if b.hasAsk then some b.bestAskTicks else none := by
  unfold numpyAsk
  rcases askBest_cases top.askBest with ⟨none_,empty⟩ | ⟨k,best,held⟩
  · have nothing : nonzero b.askQty = [] := by simp [nonzero,empty]
    simp [nothing,hasAsk,none_]
  · have least : (nonzero b.askQty).min? = some (k : Nat) := by
      refine List.min?_eq_some_iff.mpr ⟨(mem_nonzero _ _).mpr ⟨k,held,rfl⟩,fun j member => ?_⟩
      obtain ⟨i,occupied,rfl⟩ := (mem_nonzero _ _).mp member
      have above := top.askBest.2 (Or.inr ⟨i,occupied,rfl⟩)
      rw [best] at above
      exact_mod_cast above
    have shown : b.hasAsk = true := by simp [hasAsk,best]
    rw [least,if_pos shown,OrderBook.bestAskTicks,best]
    rfl

/-- What the accessors say of one instrument whose book is `b`. -/
structure Shows (o : Books) (instrument : Int32) (reference : Int64) (b : OrderBook) : Prop where
  reference : o.referencePriceTicks instrument = some reference
  bidDepth : bidDepth o instrument = .ok (some b.bidQty)
  askDepth : askDepth o instrument = .ok (some b.askQty)
  basePrice : basePriceTicks o instrument = .ok (some b.basePrice)
  bestBid : bestBidTicks o instrument = some (numpyBid b.basePrice b.bidQty)
  bestAsk : bestAskTicks o instrument = some (numpyAsk b.basePrice b.askQty)

theorem toUInt32_toInt (i : Int32) : i.toInt = (i.toUInt32.toNat : Int).bmod (2^32) := i.toBitVec.toInt_eq_toNat_bmod

theorem toUInt64_toInt (i : Int64) : i.toInt = (i.toUInt64.toNat : Int).bmod (2^64) := i.toBitVec.toInt_eq_toNat_bmod

theorem narrowed (instrument : Int32) (low : 0 ≤ instrument.toInt) (high : instrument.toInt < numInstruments) :
    (instrument.toUInt32.toUInt16.toNat : Int) = instrument.toInt := by
  have size : (numInstruments : Int) = 512 := rfl
  have wide := toUInt32_toInt instrument
  have bound := instrument.toUInt32.toNat_lt
  have exact_ : (instrument.toUInt32.toNat : Int) = instrument.toInt := by
    rw [Int.bmod_def] at wide
    split at wide <;> omega
  have below := UInt32.toNat_toUInt16 instrument.toUInt32
  omega

/-- A negative index is a huge one. -/
theorem widened (i : Int32) : (i.toInt64.toUInt64.toNat : Int) = if 0 ≤ i.toInt then i.toInt else i.toInt + 2^64 := by
  have wide := toUInt64_toInt i.toInt64
  rw [Int32.toInt_toInt64,Int.bmod_def] at wide
  have bound := i.toInt64.toUInt64.toNat_lt
  split at wide <;> split <;> omega

section Sized
variable {o : Books} (sized : o.refPrice.length = numInstruments)
include sized

theorem numInstruments_known : o.numInstruments.toInt = numInstruments := by
  rw [Books.numInstruments,sized]
  rfl

omit sized in
theorem reference_known (instrument : Int32) (low : 0 ≤ instrument.toInt) :
    o.referencePriceTicks instrument = o.refPrice[instrument.toInt.toNat]? := by
  have index := widened instrument
  rw [if_pos low] at index
  have same : instrument.toInt64.toUInt64.toNat = instrument.toInt.toNat := by omega
  rw [Books.referencePriceTicks,same]

theorem check_known (instrument : Int32) : checkInstrument instrument o.numInstruments =
    if 0 ≤ instrument.toInt ∧ instrument.toInt < numInstruments then .ok () else .error .outOfRange := by
  have negative : instrument < 0 ↔ instrument.toInt < 0 := Int32.lt_iff_toInt_lt
  have beyond : instrument ≥ o.numInstruments ↔ (numInstruments : Int) ≤ instrument.toInt := by
    rw [ge_iff_le,Int32.le_iff_toInt_le,numInstruments_known sized]
  unfold checkInstrument
  by_cases inside : 0 ≤ instrument.toInt ∧ instrument.toInt < numInstruments
  · exact (if_neg (by rw [negative,beyond]; omega)).trans (if_pos inside).symm
  · exact (if_pos (by rw [negative,beyond]; omega)).trans (if_neg inside).symm

theorem shows_book {instrument : Int32} {reference : Int64} {b : OrderBook} (low : 0 ≤ instrument.toInt)
    (high : instrument.toInt < numInstruments) (priced : o.refPrice[instrument.toInt.toNat]? = some reference)
    (placed : o.normalizer.bookForInstrument instrument.toInt.toNat = some b) (top : b.TopOfBook) :
    Shows o instrument reference b := by
  have index := narrowed instrument low high
  have located : book o instrument = some b := by
    have same : instrument.toUInt32.toUInt16.toNat = instrument.toInt.toNat := by omega
    simp only [book,same]
    exact (if_pos (by omega)).trans placed
  have checked := (check_known sized instrument).trans (if_pos ⟨low,high⟩)
  refine ⟨(reference_known instrument low).trans priced,?_,?_,?_,?_,?_⟩
  · rw [bidDepth,checked,located]
    rfl
  · rw [askDepth,checked,located]
    rfl
  · rw [basePriceTicks,checked,located]
    rfl
  · rw [bestBidTicks,located,Option.map_some,numpyBid_eq top]
  · rw [bestAskTicks,located,Option.map_some,numpyAsk_eq top]

end Sized

/-- What the accessors do with an instrument that there is not. Those that check it refuse it; the
reference price is read outside its vector; and the touch is that of the instrument with the same low
16 bits, read outside the tables if there is none such either. -/
structure Refuses (o : Books) (instrument : Int32) : Prop where
  bidDepth : bidDepth o instrument = .error .outOfRange
  askDepth : askDepth o instrument = .error .outOfRange
  basePrice : basePriceTicks o instrument = .error .outOfRange
  reference : o.referencePriceTicks instrument = none
  bestBid : ∀ low : Int32, low.toInt = instrument.toUInt32.toUInt16.toNat →
    bestBidTicks o instrument = if low.toInt < numInstruments then bestBidTicks o low else none
  bestAsk : ∀ low : Int32, low.toInt = instrument.toUInt32.toUInt16.toNat →
    bestAskTicks o instrument = if low.toInt < numInstruments then bestAskTicks o low else none

/-- The narrowed instrument decides which book is read. -/
theorem book_narrowed (o : Books) (instrument low : Int32) (same : low.toInt = instrument.toUInt32.toUInt16.toNat) :
    book o instrument = if low.toInt < numInstruments then book o low else none := by
  split
  next inside =>
    have index := narrowed low (by omega) inside
    have equal : low.toUInt32.toUInt16.toNat = instrument.toUInt32.toUInt16.toNat := by omega
    simp only [book,equal]
  next outside => exact if_neg (by omega)

theorem refuses {o : Books} (sized : o.refPrice.length = numInstruments) (instrument : Int32)
    (outside : ¬(0 ≤ instrument.toInt ∧ instrument.toInt < numInstruments)) : Refuses o instrument := by
  have checked := (check_known sized instrument).trans (if_neg outside)
  refine ⟨?_,?_,?_,?_,fun low same => ?_,fun low same => ?_⟩
  · rw [bidDepth,checked]
    rfl
  · rw [askDepth,checked]
    rfl
  · rw [basePriceTicks,checked]
    rfl
  · have index := widened instrument
    have least := instrument.le_toInt
    have size : (numInstruments : Int) = 512 := rfl
    refine List.getElem?_eq_none ?_
    rw [sized]
    split at index <;> omega
  · rw [bestBidTicks,book_narrowed o instrument low same]
    split <;> rfl
  · rw [bestAskTicks,book_narrowed o instrument low same]
    split <;> rfl

/-- Two objects that nobody can tell apart through the accessors. -/
structure Same (o other : Books) : Prop where
  numInstruments : o.numInstruments = other.numInstruments
  reference : o.referencePriceTicks = other.referencePriceTicks
  bidDepth : bidDepth o = bidDepth other
  askDepth : askDepth o = askDepth other
  basePrice : basePriceTicks o = basePriceTicks other
  bestBid : bestBidTicks o = bestBidTicks other
  bestAsk : bestAskTicks o = bestAskTicks other

theorem same_books {o other : Books} (prices : o.refPrice = other.refPrice)
    (same : ∀ i < numInstruments, o.normalizer.bookForInstrument i = other.normalizer.bookForInstrument i) :
    Same o other := by
  have books (instrument : Int32) : book o instrument = book other instrument := by
    simp only [book]
    split
    next inside => exact same _ inside
    next => rfl
  have size : o.numInstruments = other.numInstruments := by rw [Books.numInstruments,Books.numInstruments,prices]
  refine ⟨size,?_,?_,?_,?_,?_,?_⟩ <;> funext instrument
  · simp only [Books.referencePriceTicks,prices]
  · simp only [bidDepth,books,size]
  · simp only [askDepth,books,size]
  · simp only [basePriceTicks,books,size]
  · simp only [bestBidTicks,books]
  · simp only [bestAskTicks,books]

end Accessor

namespace OfflineBooks

def references (rng : Nat → Draw) : Nat → Int64 := (MarketSimulator.construct rng numInstruments).refPrice

/-- `ref_price_`, pushed back one by one. -/
def prices (rng : Nat → Draw) : List Int64 := (List.range numInstruments).map (references rng)

/-- The generator of the messages and that of the reference prices have one seed: the same draws. -/
def messages (rng : Nat → Draw) (numMessages : Nat) : List WireMsg :=
  (MarketSimulator.construct rng numInstruments).generated numMessages

def origin (numMessages numShards : Nat) (rng : Nat → Draw) : Replay :=
  Replay.init numShards (references rng) (messages rng numMessages)

/-- The objects the constructor can make: one for each schedule of the dispatching thread and the
workers that ends with the return of `drain_and_stop`. -/
inductive Constructs (numMessages numShards : Nat) (rng : Nat → Draw) : Books → Prop
  | returned (final : Replay) (reached : Replay.Reaches (origin numMessages numShards rng) final)
      (returned : final.pool.drain = .returned) :
      Constructs numMessages numShards rng ⟨final.pool.toNormalizer,prices rng⟩

theorem prices_length (rng : Nat → Draw) : (prices rng).length = numInstruments := by simp [prices]

theorem prices_known (rng : Nat → Draw) (i : Nat) (inside : i < numInstruments) :
    (prices rng)[i]? = some (references rng i) := by
  simp [prices,inside]

/-- The orders still live in the generator, instrument by instrument. -/
def live (rng : Nat → Draw) (numMessages i : Nat) : List LiveOrder :=
  ((MarketSimulator.construct rng numInstruments).after numMessages).liveOrders i

section Built
variable {numMessages numShards : Nat} {rng : Nat → Draw} {o : Books}
  (positive : 1 ≤ numShards) (roomy : Roomy numMessages)
include positive roomy

theorem constructed_book (constructs : Constructs numMessages numShards rng o) (i : Nat) (inside : i < numInstruments) :
    o.normalizer.bookForInstrument i =
      some (replayed (references rng) (messages rng numMessages) i).1 := by
  obtain ⟨final,reached,returned⟩ := constructs
  have short : numMessages < 2^64 := by unfold Roomy at roomy; omega
  have some_ : 1 ≤ numInstruments := by decide
  have few : numInstruments ≤ 65536 := by decide
  obtain ⟨accepted,consistent⟩ := Replay.consistent_reaches numShards (references rng) reached
  have count := consistent.sound.numShards
  rw [(Normalizer.priced_ready numShards (references rng)).addressed.numShards] at count
  have gone : ∀ s < numShards, final.pool.workers s = .exited := by
    intro s bound
    refine consistent.sound.joined s ?_
    rwa [returned,DrainPc.joined,count]
  exact Replay.exited_book positive (fun m member => (generated_known rng _ some_ few numMessages short m member).1)
    reached gone (generated_owned rng _ some_ few numMessages short) i inside

omit roomy in
theorem constructs_some (short : numMessages < 2^64) : ∃ o, Constructs numMessages numShards rng o := by
  have addressed := (Normalizer.priced_ready numShards (references rng)).addressed
  have known : ∀ m ∈ messages rng numMessages, instrumentOf m < numInstruments :=
    fun m member => (generated_known rng _ (by decide) (by decide) numMessages short m member).1
  have routed : ∀ m ∈ messages rng numMessages, (Normalizer.ready numShards (references rng)).shardOf m <
      (Normalizer.ready numShards (references rng)).numShards := by
    intro m member
    rw [addressed.numShards]
    exact addressed.shardOf_lt positive m (known m member)
  obtain ⟨accepted,consistent⟩ := Replay.consistent_reaches numShards (references rng)
    (.start : Replay.Reaches (origin numMessages numShards rng) _)
  obtain ⟨final,reached,returned⟩ := Replay.can_finish routed .start consistent
  exact ⟨_,.returned final reached returned⟩

omit positive roomy in
theorem constructed_prices (constructs : Constructs numMessages numShards rng o) : o.refPrice = prices rng := by
  cases constructs with
  | returned => simp only

omit positive roomy in
theorem constructed_sized (constructs : Constructs numMessages numShards rng o) : o.refPrice.length = numInstruments := by
  rw [constructed_prices constructs,prices_length]

theorem constructed_shows (constructs : Constructs numMessages numShards rng o) (instrument : Int32)
    (low : 0 ≤ instrument.toInt) (high : instrument.toInt < numInstruments) :
    ∃ b, Accessor.Shows o instrument (references rng instrument.toInt.toNat) b ∧
      b.basePrice.toInt = (references rng instrument.toInt.toNat).toInt - kHalf ∧
      Images b (live rng numMessages instrument.toInt.toNat) := by
  have some_ : 1 ≤ numInstruments := by decide
  have few : numInstruments ≤ 65536 := by decide
  have bound : instrument.toInt.toNat < numInstruments := by omega
  have images := generated_images rng numInstruments some_ few numMessages roomy _ bound
  have base := ((generated_keeps rng numInstruments some_ few numMessages roomy).2 _ bound).base
  have placed := constructed_book positive roomy constructs _ bound
  have priced : o.refPrice[instrument.toInt.toNat]? = some (references rng instrument.toInt.toNat) := by
    rw [constructed_prices constructs,prices_known rng _ bound]
  refine ⟨_,Accessor.shows_book (constructed_sized constructs) low high priced placed images.top,?_,images⟩
  have started := VenueFeed.initialPrice_range (rng instrument.toInt.toNat)
  rw [← construct_refPrice rng numInstruments _ bound] at started
  rw [references,messages,base,base_toInt _ _ (by omega) (by omega)]

theorem constructed_same {otherShards : Nat} {other : Books} (positive' : 1 ≤ otherShards)
    (constructs : Constructs numMessages numShards rng o) (constructs' : Constructs numMessages otherShards rng other) :
    Accessor.Same o other := by
  refine Accessor.same_books ?_ fun i inside => ?_
  · rw [constructed_prices constructs,constructed_prices constructs']
  · rw [constructed_book positive roomy constructs i inside,constructed_book positive' roomy constructs' i inside]

/-- What a replay shows does not depend on the shards or the schedule: book by book it is what the
generator keeps live, and an instrument that there is not is refused by the accessors that check it. -/
theorem replay_shows_generator (constructs : Constructs numMessages numShards rng o) :
    o.numInstruments.toInt = numInstruments ∧
    (∀ instrument : Int32, 0 ≤ instrument.toInt → instrument.toInt < numInstruments →
      ∃ b, Accessor.Shows o instrument (references rng instrument.toInt.toNat) b ∧
        b.basePrice.toInt = (references rng instrument.toInt.toNat).toInt - kHalf ∧
        Images b (live rng numMessages instrument.toInt.toNat)) ∧
    (∀ instrument : Int32, ¬(0 ≤ instrument.toInt ∧ instrument.toInt < numInstruments) →
      Accessor.Refuses o instrument) ∧
    ∀ otherShards ≥ 1, ∀ other, Constructs numMessages otherShards rng other → Accessor.Same o other :=
  ⟨Accessor.numInstruments_known (constructed_sized constructs),constructed_shows positive roomy constructs,
    Accessor.refuses (constructed_sized constructs),fun _ positive' _ constructs' =>
    constructed_same positive roomy positive' constructs constructs'⟩

end Built

theorem live_mixed : live mixed 16 153 = [⟨6,.sell,36221,30⟩,⟨10,.buy,36039,251⟩] := by decide +kernel

theorem replay_shows_generator_mixed : ∃ o, Constructs 16 4 mixed o ∧
    (∃ b, Accessor.Shows o 153 (references mixed 153) b ∧ Images b [⟨6,.sell,36221,30⟩,⟨10,.buy,36039,251⟩]) ∧
    Accessor.bidDepth o 665 = .error .outOfRange ∧ Accessor.bestBidTicks o 65689 = Accessor.bestBidTicks o 153 := by
  have roomy : Roomy 16 := by unfold Roomy kHalf; decide
  obtain ⟨o,constructs⟩ : ∃ o, Constructs 16 4 mixed o := constructs_some (by omega) (by omega)
  obtain ⟨_,shows,refused,_⟩ := replay_shows_generator (by omega) roomy constructs
  obtain ⟨b,shown,_,images⟩ := shows 153 (by decide) (by decide)
  exact ⟨o,constructs,⟨b,shown,live_mixed ▸ images⟩,(refused 665 (by decide)).bidDepth,
    (refused 65689 (by decide)).bestBid 153 (by decide)⟩

end OfflineBooks
end MarketFeed
