import MarketFeed.OrderBook
import MarketFeed.Library.FiniteMap
import MarketFeed.Library.Prefix

/-! `apply_to_book`: one message applied to one book and its order map. The map
decides the calls on the book; `bookCalls` and `trackOrders` name the two halves. -/
namespace MarketFeed
open FiniteMap

structure RestingLoc where
  side : Side
  priceTicks : Int64
  qty : UInt32
  deriving DecidableEq, Repr

abbrev OrderMap := Map UInt64 RestingLoc

/-- The `Execute` and `Cancel` cases of the switch, which differ in the field they read. -/
def reduceOrder (book : OrderBook) (orders : OrderMap) (orderId : UInt64) (qty : UInt32) :
    OrderBook × OrderMap :=
  match orders.lookup orderId with
  | none => (book,orders)
  | some loc =>
    let rq := min qty loc.qty
    let book := (book.reduce loc.side loc.priceTicks rq).2
    let left := loc.qty - rq
    if left = 0 then (book,orders.erase orderId)
    else (book,orders.insert orderId { loc with qty := left })

def applyToBook (m : WireMsg) (book : OrderBook) (orders : OrderMap) : OrderBook × OrderMap :=
  match m with
  | .zero => (book,orders)
  | .add a =>
    ((book.add a.side a.priceTicks a.qty).2,orders.insert a.orderId ⟨a.side,a.priceTicks,a.qty⟩)
  | .exec e => reduceOrder book orders e.orderId e.execQty
  | .cancel c => reduceOrder book orders c.orderId c.cancelQty
  | .del d =>
    match orders.lookup d.orderId with
    | none => (book,orders)
    | some loc => ((book.reduce loc.side loc.priceTicks loc.qty).2,orders.erase d.orderId)
  | .replace r =>
    match orders.lookup r.oldOrderId with
    | none => (book,orders)
    | some loc =>
      let book := (book.reduce loc.side loc.priceTicks loc.qty).2
      let orders := orders.erase r.oldOrderId
      let orders := orders.insert r.newOrderId ⟨loc.side,r.priceTicks,r.qty⟩
      ((book.add loc.side r.priceTicks r.qty).2,orders)

def replay (start : OrderBook × OrderMap) (messages : List WireMsg) : OrderBook × OrderMap :=
  messages.foldl (fun s m => applyToBook m s.1 s.2) start

theorem replay_concat (start : OrderBook × OrderMap) (done : List WireMsg) (m : WireMsg) :
    replay start (done ++ [m]) = applyToBook m (replay start done).1 (replay start done).2 :=
  Prefix.foldl_concat _ _ _ _

/-- What `it->second.qty -= rq` and the erase of an emptied order leave in the map. -/
def lessen (orders : OrderMap) (orderId : UInt64) (loc : RestingLoc) (rq : UInt32) : OrderMap :=
  if loc.qty - rq = 0 then orders.erase orderId
  else orders.insert orderId { loc with qty := loc.qty - rq }

/-- The map half of `applyToBook`. -/
def trackOrders (m : WireMsg) (orders : OrderMap) : OrderMap :=
  match m with
  | .zero => orders
  | .add a => orders.insert a.orderId ⟨a.side,a.priceTicks,a.qty⟩
  | .exec e => (orders.lookup e.orderId).elim orders
      fun loc => lessen orders e.orderId loc (min e.execQty loc.qty)
  | .cancel c => (orders.lookup c.orderId).elim orders
      fun loc => lessen orders c.orderId loc (min c.cancelQty loc.qty)
  | .del d => (orders.lookup d.orderId).elim orders fun _ => orders.erase d.orderId
  | .replace r => (orders.lookup r.oldOrderId).elim orders
      fun loc => (orders.erase r.oldOrderId).insert r.newOrderId ⟨loc.side,r.priceTicks,r.qty⟩

/-- The calls on the book that a message leads to, given what the map says of an id. -/
def bookCalls (m : WireMsg) (find : UInt64 → Option RestingLoc) : List OrderBook.Call :=
  match m with
  | .zero => []
  | .add a => [.add a.side a.priceTicks a.qty]
  | .exec e => (find e.orderId).elim [] fun loc =>
      [.reduce loc.side loc.priceTicks (min e.execQty loc.qty)]
  | .cancel c => (find c.orderId).elim [] fun loc =>
      [.reduce loc.side loc.priceTicks (min c.cancelQty loc.qty)]
  | .del d => (find d.orderId).elim [] fun loc => [.reduce loc.side loc.priceTicks loc.qty]
  | .replace r => (find r.oldOrderId).elim [] fun loc =>
      [.reduce loc.side loc.priceTicks loc.qty,.add loc.side r.priceTicks r.qty]

theorem reduceOrder_eq (book : OrderBook) (orders : OrderMap) (orderId : UInt64) (qty : UInt32) :
    reduceOrder book orders orderId qty =
      (orders.lookup orderId).elim (book,orders) fun loc =>
        ((book.reduce loc.side loc.priceTicks (min qty loc.qty)).2,
          lessen orders orderId loc (min qty loc.qty)) := by
  unfold reduceOrder lessen
  cases orders.lookup orderId with
  | none => rfl
  | some loc =>
    simp only [Option.elim_some]
    split <;> rfl

theorem applyToBook_eq (m : WireMsg) (book : OrderBook) (orders : OrderMap) :
    applyToBook m book orders = (book.calls (bookCalls m orders.lookup),trackOrders m orders) := by
  cases m with
  | zero => rfl
  | add a => rfl
  | exec e =>
    simp only [applyToBook,bookCalls,trackOrders,reduceOrder_eq]
    cases orders.lookup e.orderId <;> rfl
  | cancel c =>
    simp only [applyToBook,bookCalls,trackOrders,reduceOrder_eq]
    cases orders.lookup c.orderId <;> rfl
  | del d =>
    simp only [applyToBook,bookCalls,trackOrders]
    cases orders.lookup d.orderId <;> rfl
  | replace r =>
    simp only [applyToBook,bookCalls,trackOrders]
    cases orders.lookup r.oldOrderId <;> rfl

theorem bookCalls_congr (m : WireMsg) (find look : UInt64 → Option RestingLoc)
    (same : ∀ id ∈ m.orderIds, find id = look id) : bookCalls m find = bookCalls m look := by
  cases m <;> simp_all [bookCalls,WireMsg.orderIds]

theorem lessen_lookup_if (orders : OrderMap) (orderId id : UInt64) (loc : RestingLoc) (rq : UInt32) :
    (lessen orders orderId loc rq).lookup id =
      if id = orderId then if loc.qty - rq = 0 then none else some { loc with qty := loc.qty - rq }
      else orders.lookup id := by
  unfold lessen
  by_cases emptied : loc.qty - rq = 0
  · rw [if_pos emptied,if_pos emptied,lookup_erase_if]
  · rw [if_neg emptied,if_neg emptied,lookup_insert_if]

end MarketFeed
