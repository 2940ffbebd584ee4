import MarketFeed.BookReplay
import MarketFeed.QueueBook
import MarketFeed.Simulator

/-! The backtest engine: it replays a stream through both books and rests pairs of orders,
one under each fill model, at the touch. Indices of messages are natural numbers: they stay below
the 64-bit `num_messages`. -/
namespace MarketFeed

inductive Outcome where
  | filled
  | canceled
  | resting
  deriving DecidableEq, Repr

structure SimOrderResult where
  id : UInt64
  pairId : UInt64
  isNaive : Bool
  side : Side
  priceTicks : Int64
  qty : UInt32
  placedMsgIdx : Nat
  resolvedMsgIdx : Nat
  outcome : Outcome
  bidAtPlace : Int64
  askAtPlace : Int64
  bidAtFill : Int64
  askAtFill : Int64
  aheadQtyAtPlace : UInt64

/-- The seed is left out: the generator's draws are arbitrary. -/
structure Config where
  numMessages : UInt64 := 2000000
  placementInterval : UInt64 := 500
  ttlMessages : UInt64 := 5000
  orderQty : UInt32 := 100

structure ActiveOrder where
  id : UInt64
  pairId : UInt64
  isNaive : Bool
  level : LevelKey
  placedMsgIdx : Nat
  bidAtPlace : Int64
  askAtPlace : Int64
  qty : UInt32
  aheadQtyAtPlace : UInt64
  tracker : Option FastAheadTracker

/-- What the loop over `active_` reads at one message. -/
structure Tick where
  msgIdx : Nat
  eff : ApplyEffect
  book : OrderBook

structure BacktestEngine where
  cfg : Config
  book : OrderBook := {}
  bookOrders : OrderMap := ∅
  qbook : QueuePositionBook := {}
  active : List ActiveOrder := []
  nextId : UInt64 := 1
  nextPairId : UInt64 := 1

/-- The ways in which `run` does not return: a division by the placement interval 0, and a vector
asked for more than it can hold. -/
inductive Failure where
  | dividedByZero
  | lengthError
  deriving DecidableEq, Repr

/-- How many elements the two vectors of a run can hold: `max_size()`, or fewer where the memory
ends before. -/
structure Limits where
  results : UInt64
  active : UInt64

namespace BacktestEngine

def finish (book : OrderBook) (ao : ActiveOrder) (outcome : Outcome) (msgIdx : Nat) : SimOrderResult where
  id := ao.id
  pairId := ao.pairId
  isNaive := ao.isNaive
  side := ao.level.side
  priceTicks := ao.level.priceTicks
  qty := ao.qty
  placedMsgIdx := ao.placedMsgIdx
  resolvedMsgIdx := msgIdx
  outcome := outcome
  bidAtPlace := ao.bidAtPlace
  askAtPlace := ao.askAtPlace
  bidAtFill := if book.hasBid then book.bestBidTicks else ao.bidAtPlace
  askAtFill := if book.hasAsk then book.bestAskTicks else ao.askAtPlace
  aheadQtyAtPlace := ao.aheadQtyAtPlace

/-- The naive model's test: a trade at the order's level. -/
def naiveFill (eff : ApplyEffect) (level : LevelKey) : Bool :=
  match eff.reduction with
  | none => false
  | some r => decide (r.level = level) && r.isExecute

/-- Whether the message fills the order, and the order after its tracker has seen it. -/
def observe (eff : ApplyEffect) (ao : ActiveOrder) : Bool × ActiveOrder :=
  if ao.isNaive then (naiveFill eff ao.level,ao)
  else
    match ao.tracker with
    | none => (false,ao) -- a tracked order is placed with its tracker
    | some tracker => ((tracker.consume eff).1,{ ao with tracker := some (tracker.consume eff).2 })

/-- One pass of the loop over `active_`: the result of an order that is resolved and erased,
or the order that stays. -/
def attend (cfg : Config) (tick : Tick) (ao : ActiveOrder) : SimOrderResult ⊕ ActiveOrder :=
  let (fill,ao) := observe tick.eff ao
  if fill then .inl (finish tick.book ao .filled tick.msgIdx)
  else if tick.msgIdx - ao.placedMsgIdx ≥ cfg.ttlMessages.toNat then
    .inl (finish tick.book ao .canceled tick.msgIdx)
  else .inr ao

/-- The two orders `place_pair` rests, the naive one first. -/
def pair (e : BacktestEngine) (msgIdx : Nat) : ActiveOrder × ActiveOrder :=
  let px := e.book.bestBidTicks
  let key : LevelKey := ⟨0,.buy,px⟩
  let ourSeq := e.qbook.currentSeq
  let ahead := (e.qbook.levelTotalQty key).toUInt64
  let bid := e.book.bestBidTicks
  let ask := e.book.bestAskTicks
  (⟨e.nextId,e.nextPairId,true,key,msgIdx,bid,ask,e.cfg.orderQty,ahead,none⟩,
   ⟨e.nextId + 1,e.nextPairId,false,key,msgIdx,bid,ask,e.cfg.orderQty,ahead,
    some (FastAheadTracker.construct key ourSeq ahead)⟩)

def placePair (e : BacktestEngine) (msgIdx : Nat) : BacktestEngine :=
  { e with
    active := e.active ++ [(e.pair msgIdx).1,(e.pair msgIdx).2]
    nextId := e.nextId + 2
    nextPairId := e.nextPairId + 1 }

def places (e : BacktestEngine) (msgIdx : Nat) : Bool :=
  msgIdx % e.cfg.placementInterval.toNat = 0 ∧ e.book.hasBid ∧ e.book.hasAsk

/-- Both books take the message. -/
def advance (e : BacktestEngine) (m : WireMsg) : ApplyEffect × BacktestEngine :=
  let (book,bookOrders) := applyToBook m e.book e.bookOrders
  let (eff,qbook) := e.qbook.apply m
  (eff,{ e with book := book, bookOrders := bookOrders, qbook := qbook })

/-- The loop over `active_`. -/
def sweep (e : BacktestEngine) (tick : Tick) : List SimOrderResult × BacktestEngine :=
  let outcomes := e.active.map (attend e.cfg tick)
  (outcomes.filterMap Sum.getLeft?,{ e with active := outcomes.filterMap Sum.getRight? })

/-- The body of the message loop: the results it appends and the engine after it. -/
def onMessage (e : BacktestEngine) (msgIdx : Nat) (m : WireMsg) : List SimOrderResult × BacktestEngine :=
  let (eff,e) := e.advance m
  let (results,e) := e.sweep ⟨msgIdx,eff,e.book⟩
  (results,if e.places msgIdx then e.placePair msgIdx else e)

/-- The message loop from `msgIdx` on, and what follows it. -/
def replay (e : BacktestEngine) (msgIdx : Nat) : List WireMsg → List SimOrderResult × BacktestEngine
  | [] => (e.active.map fun ao => finish e.book ao .resting e.cfg.numMessages.toNat,{ e with active := [] })
  | m :: rest =>
    let (results,e) := e.onMessage msgIdx m
    let (more,e) := e.replay (msgIdx + 1) rest
    (results ++ more,e)

/-- The most orders `active_` holds between two messages of the loop. -/
def peak (e : BacktestEngine) (msgIdx : Nat) : List WireMsg → Nat
  | [] => e.active.length
  | m :: rest => max e.active.length ((e.onMessage msgIdx m).2.peak (msgIdx + 1) rest)

def construct (cfg : Config) : BacktestEngine := { cfg := cfg }

/-- The engine in which the loop begins, after `book_.init`. -/
def opened (e : BacktestEngine) (reference : Int64) : BacktestEngine := { e with book := e.book.init reference }

def start (cfg : Config) (reference : Int64) : BacktestEngine := (construct cfg).opened reference

def stream (cfg : Config) (message : Nat → WireMsg) : List WireMsg := (List.range cfg.numMessages.toNat).map message

/-- The loop of a first run over any stream of messages. -/
def runOn (cfg : Config) (reference : Int64) (message : Nat → WireMsg) : List SimOrderResult × BacktestEngine :=
  (start cfg reference).replay 0 (stream cfg message)

/-- What `run` asks `results.reserve` for. -/
def reservation (cfg : Config) : UInt64 := cfg.numMessages / cfg.placementInterval * 2 + 16

/-- `run` over any stream of messages, on an engine in any state. -/
def runFrom (e : BacktestEngine) (limits : Limits) (reference : Int64) (message : Nat → WireMsg) :
    Except Failure (List SimOrderResult × BacktestEngine) :=
  let e := e.opened reference
  let messages := stream e.cfg message
  if e.cfg.placementInterval = 0 then .error .dividedByZero
  else if limits.results < reservation e.cfg then .error .lengthError
  -- a `push_back` to a full vector, wherever in the loop
  else if limits.results.toNat < (e.replay 0 messages).1.length ∨ limits.active.toNat < e.peak 0 messages then
    .error .lengthError
  else .ok (e.replay 0 messages)

theorem runFrom_ok (e : BacktestEngine) (limits : Limits) (reference : Int64) (message : Nat → WireMsg)
    (out : List SimOrderResult × BacktestEngine) :
    e.runFrom limits reference message = .ok out ↔
      e.cfg.placementInterval ≠ 0 ∧ reservation e.cfg ≤ limits.results ∧
      ((e.opened reference).replay 0 (stream e.cfg message)).1.length ≤ limits.results.toNat ∧
      (e.opened reference).peak 0 (stream e.cfg message) ≤ limits.active.toNat ∧
      (e.opened reference).replay 0 (stream e.cfg message) = out := by
  have cfg : (e.opened reference).cfg = e.cfg := rfl
  simp only [runFrom,cfg]
  split
  next zero => simp [zero]
  next interval =>
    split
    next over_ => simp [UInt64.not_le.mpr over_]
    next reserved =>
      have reserved := UInt64.not_lt.mp reserved
      split
      next full =>
        simp only [reduceCtorEq,false_iff]
        omega
      next room =>
        simp only [not_or,Nat.not_lt] at room
        simp [interval,reserved,room.1,room.2]

def run (e : BacktestEngine) (limits : Limits) (rng : Nat → Draw) :
    Except Failure (List SimOrderResult × BacktestEngine) :=
  let sim := MarketSimulator.construct rng 1
  e.runFrom limits (sim.refPrice 0) sim.message

end BacktestEngine
end MarketFeed
