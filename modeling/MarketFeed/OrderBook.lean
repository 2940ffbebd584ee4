import MarketFeed.Protocol
import MarketFeed.Library.Extremum
import MarketFeed.Library.Word

/-! The aggregated-depth book: two flat arrays of price levels and two best
indices kept up to date by `add` and `reduce`. Quantities and prices are 64-bit
words; `indexOf` narrows a 64-bit difference to a 32-bit `int` as the source does. -/
namespace MarketFeed
open Word Extremum

def kLevels : Nat := 16384
def kHalf : Nat := kLevels / 2

abbrev Levels := Fin kLevels → Int64

structure OrderBook where
  basePrice : Int64 := 0
  bidQty : Levels := fun _ => 0
  askQty : Levels := fun _ => 0
  bestBidIdx : Int := -1
  bestAskIdx : Int := kLevels
  dropped : Nat := 0

namespace OrderBook

/-- `init` leaves the drop counter as it was. -/
def init (b : OrderBook) (referencePriceTicks : Int64) : OrderBook :=
  { b with
    basePrice := referencePriceTicks - Int64.ofNat kHalf
    bidQty := fun _ => 0
    askQty := fun _ => 0
    bestBidIdx := -1
    bestAskIdx := kLevels }

def indexOf (b : OrderBook) (priceTicks : Int64) : Int := (priceTicks - b.basePrice).toInt32.toInt

/-- The level the bounds check `idx < 0 || idx >= kLevels` lets through. -/
def level (b : OrderBook) (priceTicks : Int64) : Option (Fin kLevels) :=
  let idx := b.indexOf priceTicks
  if inside : 0 ≤ idx ∧ idx < kLevels then some ⟨idx.toNat,by omega⟩ else none

def occupiedAt (levels : Levels) (i : Nat) : Bool :=
  if inside : i < kLevels then levels ⟨i,inside⟩ ≠ 0 else false

/-- `while (best >= 0 && levels[best] == 0) --best;` -/
def walkBid (levels : Levels) (best : Int) : Int := walkDown (occupiedAt levels) (best + 1).toNat

/-- `while (best < kLevels && levels[best] == 0) ++best;` -/
def walkAsk (levels : Levels) (best : Int) : Int :=
  walkUp (occupiedAt levels) kLevels (kLevels - best).toNat

/-- The result is the returned flag and the book after the call. -/
def add (b : OrderBook) (side : Side) (priceTicks : Int64) (qty : UInt32) : Bool × OrderBook :=
  match b.level priceTicks with
  | none => (false,{ b with dropped := b.dropped + 1 })
  | some idx =>
    match side with
    | .buy => (true,{ b with
        bidQty := Function.update b.bidQty idx (b.bidQty idx + widen qty)
        bestBidIdx := if (idx : Int) > b.bestBidIdx then idx else b.bestBidIdx })
    | .sell => (true,{ b with
        askQty := Function.update b.askQty idx (b.askQty idx + widen qty)
        bestAskIdx := if (idx : Int) < b.bestAskIdx then idx else b.bestAskIdx })

/-- `q -= qty; if (q < 0) q = 0;` -/
def reduced (q : Int64) (qty : UInt32) : Int64 :=
  let q := q - widen qty
  if q < 0 then 0 else q

def reduce (b : OrderBook) (side : Side) (priceTicks : Int64) (qty : UInt32) : Bool × OrderBook :=
  match b.level priceTicks with
  | none => (false,{ b with dropped := b.dropped + 1 })
  | some idx =>
    match side with
    | .buy =>
      let q := reduced (b.bidQty idx) qty
      let bidQty := Function.update b.bidQty idx q
      (true,{ b with
        bidQty := bidQty
        bestBidIdx := if (idx : Int) = b.bestBidIdx ∧ q = 0 then walkBid bidQty b.bestBidIdx
          else b.bestBidIdx })
    | .sell =>
      let q := reduced (b.askQty idx) qty
      let askQty := Function.update b.askQty idx q
      (true,{ b with
        askQty := askQty
        bestAskIdx := if (idx : Int) = b.bestAskIdx ∧ q = 0 then walkAsk askQty b.bestAskIdx
          else b.bestAskIdx })

def hasBid (b : OrderBook) : Bool := b.bestBidIdx ≥ 0
def hasAsk (b : OrderBook) : Bool := b.bestAskIdx < kLevels
def bestBidTicks (b : OrderBook) : Int64 := b.basePrice + Int64.ofInt b.bestBidIdx
def bestAskTicks (b : OrderBook) : Int64 := b.basePrice + Int64.ofInt b.bestAskIdx

/-- `levels[idx]`; every caller in the source has checked the index. -/
def readAt (levels : Levels) (idx : Int) : Int64 :=
  if inside : 0 ≤ idx ∧ idx < kLevels then levels ⟨idx.toNat,by omega⟩ else 0

def bestBidQty (b : OrderBook) : Int64 := if b.hasBid then readAt b.bidQty b.bestBidIdx else 0
def bestAskQty (b : OrderBook) : Int64 := if b.hasAsk then readAt b.askQty b.bestAskIdx else 0

def side (b : OrderBook) : Side → Levels
  | .buy => b.bidQty
  | .sell => b.askQty

def qtyAt (b : OrderBook) (side : Side) (priceTicks : Int64) : Int64 :=
  match b.level priceTicks with
  | none => 0
  | some idx => b.side side idx

inductive Call where
  | add (side : Side) (priceTicks : Int64) (qty : UInt32)
  | reduce (side : Side) (priceTicks : Int64) (qty : UInt32)
  deriving DecidableEq, Repr

def call (b : OrderBook) : Call → OrderBook
  | .add side p qty => (b.add side p qty).2
  | .reduce side p qty => (b.reduce side p qty).2

def calls (b : OrderBook) (cs : List Call) : OrderBook := cs.foldl call b

@[simp] theorem calls_nil (b : OrderBook) : b.calls [] = b := rfl

@[simp] theorem calls_cons (b : OrderBook) (c : Call) (cs : List Call) :
    b.calls (c :: cs) = (b.call c).calls cs := rfl

end OrderBook
end MarketFeed
