import MarketFeed.BookReplay
import MarketFeed.Library.BoundedQueue
import Mathlib.Logic.Function.Basic

/-! The normalizer's sequential parts: the constructor's tables, `dispatch`, and
`apply` on one shard. Clocks and the latency vectors are left out; `applied` is the
history of the items a worker has applied, one for each `proc_latency_ns` sample. -/
namespace MarketFeed
open FiniteMap

structure OrderLocation where
  localIdx : UInt16
  side : Side
  priceTicks : Int64
  qty : UInt32
  deriving DecidableEq, Repr

namespace OrderLocation

def resting (loc : OrderLocation) : RestingLoc := ⟨loc.side,loc.priceTicks,loc.qty⟩

end OrderLocation

structure QueueItem where
  msg : WireMsg
  localIdx : UInt16
  deriving DecidableEq, Repr

def kQueueCapacity : Nat := 2^20

/-- `queue` is the bounded FIFO of `kQueueCapacity - 1` elements that the ring buffer refines. -/
structure Shard where
  books : List OrderBook := []
  orders : Map UInt64 OrderLocation := ∅
  queue : List QueueItem := []
  processed : Nat := 0
  droppedFull : Nat := 0
  applied : List QueueItem := []

namespace Shard

/-- `queue.push(item)`: the returned flag and the shard after the call. -/
def push (shard : Shard) (item : QueueItem) : Bool × Shard :=
  if shard.queue.length = kQueueCapacity - 1 then
    (false,{ shard with droppedFull := shard.droppedFull + 1 })
  else (true,{ shard with queue := shard.queue ++ [item] })

theorem push_step (shard : Shard) (item : QueueItem) (bounded : shard.queue.length ≤ kQueueCapacity - 1) :
    BoundedQueue.Step (kQueueCapacity - 1) shard.queue
      (if (shard.push item).1 then .pushed item else .full item) (shard.push item).2.queue := by
  unfold push
  split
  next full => exact .full _ _ full
  next room => exact .pushed _ _ (by omega)

def onBook (shard : Shard) (localIdx : UInt16) (c : OrderBook.Call) : Shard :=
  { shard with books := shard.books.modify localIdx.toNat (fun b => b.call c) }

/-- The `Execute` and `Cancel` cases of `Normalizer::apply`. -/
def reduceOrder (shard : Shard) (localIdx : UInt16) (orderId : UInt64) (qty : UInt32) : Shard :=
  match shard.orders.lookup orderId with
  | none => shard
  | some loc =>
    let rq := min qty loc.qty
    let shard := shard.onBook localIdx (.reduce loc.side loc.priceTicks rq)
    let left := loc.qty - rq
    if left = 0 then { shard with orders := shard.orders.erase orderId }
    else { shard with orders := shard.orders.insert orderId { loc with qty := left } }

/-- `Normalizer::apply`. -/
def apply (shard : Shard) (item : QueueItem) : Shard :=
  match item.msg with
  | .zero => shard
  | .add a =>
    let loc : OrderLocation := ⟨item.localIdx,a.side,a.priceTicks,a.qty⟩
    let shard := { shard with orders := shard.orders.insert a.orderId loc }
    shard.onBook item.localIdx (.add a.side a.priceTicks a.qty)
  | .exec e => shard.reduceOrder item.localIdx e.orderId e.execQty
  | .cancel c => shard.reduceOrder item.localIdx c.orderId c.cancelQty
  | .del d =>
    match shard.orders.lookup d.orderId with
    | none => shard
    | some loc =>
      let shard := shard.onBook item.localIdx (.reduce loc.side loc.priceTicks loc.qty)
      { shard with orders := shard.orders.erase d.orderId }
  | .replace r =>
    match shard.orders.lookup r.oldOrderId with
    | none => shard
    | some loc =>
      let shard := shard.onBook item.localIdx (.reduce loc.side loc.priceTicks loc.qty)
      let orders := shard.orders.erase r.oldOrderId
      let fresh : OrderLocation := ⟨item.localIdx,loc.side,r.priceTicks,r.qty⟩
      let shard := { shard with orders := orders.insert r.newOrderId fresh }
      shard.onBook item.localIdx (.add loc.side r.priceTicks r.qty)

def find (shard : Shard) (id : UInt64) : Option RestingLoc :=
  (shard.orders.lookup id).map OrderLocation.resting

theorem modify_twice {α : Type*} (xs : List α) (i : Nat) (f g : α → α) :
    (xs.modify i f).modify i g = xs.modify i (fun x => g (f x)) := by
  rw [List.modify_modify_eq]
  rfl

theorem reduceOrder_books (shard : Shard) (localIdx : UInt16) (id : UInt64) (qty : UInt32) :
    (shard.reduceOrder localIdx id qty).books = shard.books.modify localIdx.toNat
      (fun b => b.calls ((shard.find id).elim [] fun loc =>
        [.reduce loc.side loc.priceTicks (min qty loc.qty)])) := by
  unfold reduceOrder find
  cases shard.orders.lookup id with
  | none => exact (List.modify_id _ _).symm
  | some loc =>
    simp only [Option.map_some,Option.elim_some]
    split <;> rfl

/-- `apply` makes the calls of `bookCalls` on the book the item names. -/
theorem apply_books (shard : Shard) (item : QueueItem) :
    (shard.apply item).books = shard.books.modify item.localIdx.toNat
      (fun b => b.calls (bookCalls item.msg shard.find)) := by
  obtain ⟨msg,localIdx⟩ := item
  cases msg with
  | zero => exact (List.modify_id _ _).symm
  | add a => rfl
  | exec e => exact reduceOrder_books shard localIdx e.orderId e.execQty
  | cancel c => exact reduceOrder_books shard localIdx c.orderId c.cancelQty
  | del d =>
    simp only [apply,bookCalls,find]
    cases shard.orders.lookup d.orderId with
    | none => exact (List.modify_id _ _).symm
    | some loc => rfl
  | replace r =>
    simp only [apply,bookCalls,find]
    cases shard.orders.lookup r.oldOrderId with
    | none => exact (List.modify_id _ _).symm
    | some loc => exact modify_twice _ _ _ _

def AgreesOn (ids : Set UInt64) (shard : Shard) (orders : OrderMap) : Prop :=
  ∀ id ∈ ids, shard.find id = orders.lookup id

theorem find_insert (shard : Shard) (books : List OrderBook) (orders : Map UInt64 OrderLocation)
    (k id : UInt64) (loc : OrderLocation) :
    find { shard with books := books, orders := orders.insert k loc } id =
      if id = k then some loc.resting else (orders.lookup id).map OrderLocation.resting := by
  simp only [find,lookup_insert_if]
  split <;> rfl

theorem find_erase (shard : Shard) (books : List OrderBook) (orders : Map UInt64 OrderLocation)
    (k id : UInt64) :
    find { shard with books := books, orders := orders.erase k } id =
      if id = k then none else (orders.lookup id).map OrderLocation.resting := by
  simp only [find,lookup_erase_if]
  split <;> rfl

theorem reduceOrder_find (shard : Shard) (localIdx : UInt16) (k id : UInt64) (qty : UInt32)
    (orders : OrderMap) (named : shard.find k = orders.lookup k)
    (same : shard.find id = orders.lookup id) :
    (shard.reduceOrder localIdx k qty).find id =
      ((orders.lookup k).elim orders fun loc => lessen orders k loc (min qty loc.qty)).lookup id := by
  rw [← named]
  unfold reduceOrder
  cases located : shard.orders.lookup k with
  | none => simpa [find,located] using same
  | some loc =>
    simp only [find,located,Option.map_some,Option.elim_some,lessen,OrderLocation.resting] at same ⊢
    split
    next emptied =>
      rw [lookup_erase_if,lookup_erase_if]
      split
      · rfl
      · exact same
    next left =>
      rw [lookup_insert_if,lookup_insert_if]
      split
      · rfl
      · exact same

/-- `apply` does to the shard's map what `trackOrders` does to a single-book map
that agrees with it on the ids of the message. -/
theorem apply_find (shard : Shard) (item : QueueItem) (orders : OrderMap) (id : UInt64)
    (named : shard.AgreesOn {k | k ∈ item.msg.orderIds} orders) (same : shard.find id = orders.lookup id) :
    (shard.apply item).find id = (trackOrders item.msg orders).lookup id := by
  obtain ⟨msg,localIdx⟩ := item
  cases msg with
  | zero => exact same
  | add a =>
    simp only [apply,onBook,trackOrders,find_insert,lookup_insert_if]
    split
    · rfl
    · exact same
  | exec e =>
    have here := named e.orderId (by simp [WireMsg.orderIds])
    exact reduceOrder_find shard localIdx e.orderId id e.execQty orders here same
  | cancel c =>
    have here := named c.orderId (by simp [WireMsg.orderIds])
    exact reduceOrder_find shard localIdx c.orderId id c.cancelQty orders here same
  | del d =>
    have here := named d.orderId (by simp [WireMsg.orderIds])
    simp only [apply,trackOrders,← here]
    cases located : shard.orders.lookup d.orderId with
    | none => simpa [find,located] using same
    | some loc =>
      simp only [onBook,find,located,Option.map_some,Option.elim_some,lookup_erase_if] at same ⊢
      split
      · rfl
      · exact same
  | replace r =>
    have here := named r.oldOrderId (by simp [WireMsg.orderIds])
    simp only [apply,trackOrders,← here]
    cases located : shard.orders.lookup r.oldOrderId with
    | none => simpa [find,located] using same
    | some loc =>
      simp only [onBook,find,located,Option.map_some,Option.elim_some,lookup_insert_if,
        lookup_erase_if] at same ⊢
      split
      · rfl
      · split
        · rfl
        · exact same

theorem reduceOrder_other (shard : Shard) (localIdx : UInt16) (k id : UInt64) (qty : UInt32)
    (other : id ≠ k) : (shard.reduceOrder localIdx k qty).find id = shard.find id := by
  unfold reduceOrder
  cases shard.orders.lookup k with
  | none => rfl
  | some loc =>
    simp only [onBook]
    split
    · rw [find_erase,if_neg other,find]
    · rw [find_insert,if_neg other,find]

theorem apply_other (shard : Shard) (item : QueueItem) (id : UInt64) (other : id ∉ item.msg.orderIds) :
    (shard.apply item).find id = shard.find id := by
  obtain ⟨msg,localIdx⟩ := item
  cases msg with
  | zero => rfl
  | add a =>
    have other : id ≠ a.orderId := by simpa [WireMsg.orderIds] using other
    simp only [apply,onBook]
    rw [find_insert,if_neg other,find]
  | exec e => exact reduceOrder_other _ _ _ _ _ (by simpa [WireMsg.orderIds] using other)
  | cancel c => exact reduceOrder_other _ _ _ _ _ (by simpa [WireMsg.orderIds] using other)
  | del d =>
    have other : id ≠ d.orderId := by simpa [WireMsg.orderIds] using other
    simp only [apply]
    cases shard.orders.lookup d.orderId with
    | none => rfl
    | some loc =>
      simp only [onBook]
      rw [find_erase,if_neg other,find]
  | replace r =>
    have other : id ≠ r.oldOrderId ∧ id ≠ r.newOrderId := by simpa [WireMsg.orderIds] using other
    simp only [apply]
    cases shard.orders.lookup r.oldOrderId with
    | none => rfl
    | some loc =>
      simp only [onBook]
      rw [find_insert,if_neg other.2,lookup_erase_if,if_neg other.1,find]

end Shard

/-- What the apply step of a worker adds to `apply`. -/
def Shard.work (shard : Shard) (item : QueueItem) : Shard :=
  { shard.apply item with processed := shard.processed + 1, applied := shard.applied ++ [item] }

def instrumentOf (m : WireMsg) : Nat := m.header.instrumentId.toNat

/-- `shards_` and the two tables; only the first `numShards` shards have a worker. -/
structure Normalizer where
  numShards : Nat
  shards : Nat → Shard := fun _ => {}
  instrumentToShard : Nat → UInt16 := fun _ => 0
  instrumentToLocal : Nat → UInt16 := fun _ => 0

namespace Normalizer

def enroll (nz : Normalizer) (i : Nat) : Normalizer :=
  let shard := i % nz.numShards
  let books := (nz.shards shard).books
  { nz with
    instrumentToShard := Function.update nz.instrumentToShard i (UInt16.ofNat shard)
    instrumentToLocal := Function.update nz.instrumentToLocal i (UInt16.ofNat books.length)
    shards := Function.update nz.shards shard { nz.shards shard with books := books ++ [{}] } }

def construct (numShards : Nat) : Normalizer :=
  (List.range numInstruments).foldl enroll { numShards := numShards }

def initReferencePrice (nz : Normalizer) (i : Nat) (referencePriceTicks : Int64) : Normalizer :=
  let shard := (nz.instrumentToShard i).toNat
  let localIdx := (nz.instrumentToLocal i).toNat
  let books := (nz.shards shard).books.modify localIdx fun b => b.init referencePriceTicks
  { nz with shards := Function.update nz.shards shard { nz.shards shard with books := books } }

def initReferencePrices (nz : Normalizer) (reference : Nat → Int64) : Normalizer :=
  (List.range numInstruments).foldl (fun nz i => nz.initReferencePrice i (reference i)) nz

def shardOf (nz : Normalizer) (m : WireMsg) : Nat := (nz.instrumentToShard (instrumentOf m)).toNat

def itemOf (nz : Normalizer) (m : WireMsg) : QueueItem := ⟨m,nz.instrumentToLocal (instrumentOf m)⟩

def dispatch (nz : Normalizer) (m : WireMsg) : Bool × Normalizer :=
  let (pushed,shard) := (nz.shards (nz.shardOf m)).push (nz.itemOf m)
  (pushed,{ nz with shards := Function.update nz.shards (nz.shardOf m) shard })

theorem dispatch_cases (nz : Normalizer) (m : WireMsg) :
    let shard := nz.shards (nz.shardOf m)
    (shard.queue.length = kQueueCapacity - 1 ∧ nz.dispatch m = (false,{ nz with
      shards := Function.update nz.shards (nz.shardOf m)
        { shard with droppedFull := shard.droppedFull + 1 } })) ∨
    (shard.queue.length ≠ kQueueCapacity - 1 ∧ nz.dispatch m = (true,{ nz with
      shards := Function.update nz.shards (nz.shardOf m)
        { shard with queue := shard.queue ++ [nz.itemOf m] } })) := by
  intro shard
  rcases eq_or_ne shard.queue.length (kQueueCapacity - 1) with full | room
  · exact Or.inl ⟨full,by simp only [dispatch,Shard.push,shard,if_pos full]⟩
  · exact Or.inr ⟨room,by simp only [dispatch,Shard.push,shard,if_neg room]⟩

def bookForInstrument (nz : Normalizer) (i : Nat) : Option OrderBook :=
  (nz.shards (nz.instrumentToShard i).toNat).books[(nz.instrumentToLocal i).toNat]?

end Normalizer

end MarketFeed
