import MarketFeed.Protocol
import MarketFeed.Library.FiniteMap
import MarketFeed.Library.Word

/-! The queue-position book: every resting order's place in the FIFO list of its level.
A list iterator is the id of its node; ids are never reused, arrival numbers wrap. -/
namespace MarketFeed
open FiniteMap

structure LevelKey where
  instrument : UInt16
  side : Side
  priceTicks : Int64
  deriving DecidableEq, Repr

structure QEntry where
  orderId : UInt64
  qty : UInt32
  seq : UInt64
  deriving DecidableEq, Repr

structure ReductionEvent where
  level : LevelKey
  entrySeq : UInt64
  qtyReduced : UInt32
  isExecute : Bool

structure ApplyEffect where
  touched : List LevelKey := []
  reduction : Option ReductionEvent := none

structure Node where
  id : Nat
  entry : QEntry

/-- `QueuePositionBook::Loc`; `it` is the id of the node it points at. -/
structure Loc where
  level : LevelKey
  it : Nat

structure QueuePositionBook where
  levels : Map LevelKey (List Node) := ∅
  orders : Map UInt64 Loc := ∅
  nextSeq : UInt64 := 0
  allocated : Nat := 0

namespace QueuePositionBook

/-- `levels_[key]`, which an absent key reads as the empty list. -/
def level (book : QueuePositionBook) (key : LevelKey) : List Node := (book.levels.lookup key).getD []

def deref (book : QueuePositionBook) (loc : Loc) : Option QEntry :=
  ((book.level loc.level).find? fun node => node.id = loc.it).map Node.entry

/-- `it->qty = left`, and `erase(it)` when nothing is left. -/
def settle (it : Nat) (left : UInt32) : List Node → List Node
  | [] => []
  | node :: rest =>
    if node.id = it then
      if left = 0 then rest else { node with entry := { node.entry with qty := left } } :: rest
    else node :: settle it left rest

def setLevel (book : QueuePositionBook) (key : LevelKey) (nodes : List Node) : QueuePositionBook :=
  { book with
    levels := if nodes.isEmpty then book.levels.erase key else book.levels.insert key nodes }

def reduceBy (book : QueuePositionBook) (orderId : UInt64) (qtyToRemove : UInt32) (isExecute : Bool)
    (eff : ApplyEffect) : ApplyEffect × QueuePositionBook :=
  match book.orders.lookup orderId with
  | none => (eff,book)
  | some loc =>
    match book.deref loc with
    | none => (eff,book) -- a dangling iterator, which no run has
    | some e =>
      let actual := min qtyToRemove e.qty
      let left := e.qty - actual
      let eff : ApplyEffect :=
        { touched := eff.touched ++ [loc.level], reduction := some ⟨loc.level,e.seq,actual,isExecute⟩ }
      let book := book.setLevel loc.level (settle loc.it left (book.level loc.level))
      if left = 0 then (eff,{ book with orders := book.orders.erase orderId }) else (eff,book)

def pushBack (book : QueuePositionBook) (key : LevelKey) (orderId : UInt64) (qty : UInt32) :
    QueuePositionBook :=
  { levels := book.levels.insert key (book.level key ++ [⟨book.allocated,⟨orderId,qty,book.nextSeq⟩⟩])
    orders := book.orders.insert orderId ⟨key,book.allocated⟩
    nextSeq := book.nextSeq + 1
    allocated := book.allocated + 1 }

def find (book : QueuePositionBook) (orderId : UInt64) : Option (Loc × QEntry) :=
  (book.orders.lookup orderId).bind fun loc => (book.deref loc).map fun e => (loc,e)

def apply (book : QueuePositionBook) (m : WireMsg) : ApplyEffect × QueuePositionBook :=
  match m with
  | .zero => ({},book)
  | .add a =>
    let key : LevelKey := ⟨a.header.instrumentId,a.side,a.priceTicks⟩
    ({ touched := [key] },book.pushBack key a.orderId a.qty)
  | .exec e => book.reduceBy e.orderId e.execQty true {}
  | .cancel c => book.reduceBy c.orderId c.cancelQty false {}
  | .del d =>
    match book.find d.orderId with
    | none => ({},book)
    | some (_,e) => book.reduceBy d.orderId e.qty false {}
  | .replace r =>
    match book.find r.oldOrderId with
    | none => ({},book)
    | some (loc,e) =>
      let (eff,book) := book.reduceBy r.oldOrderId e.qty false {}
      let key : LevelKey := ⟨r.header.instrumentId,loc.level.side,r.priceTicks⟩
      ({ eff with touched := eff.touched ++ [key] },book.pushBack key r.newOrderId r.qty)

def currentSeq (book : QueuePositionBook) : UInt64 := book.nextSeq

def total (nodes : List Node) : UInt64 :=
  nodes.foldl (fun total node => total + node.entry.qty.toUInt64) 0

def levelTotalQty (book : QueuePositionBook) (key : LevelKey) : UInt32 := (total (book.level key)).toUInt32

def qtyAheadOfSeq (book : QueuePositionBook) (key : LevelKey) (seqThreshold : UInt64) : UInt64 :=
  total ((book.level key).filter fun node => node.entry.seq < seqThreshold)

def applyAll (book : QueuePositionBook) (messages : List WireMsg) : QueuePositionBook :=
  messages.foldl (fun book m => (book.apply m).2) book

end QueuePositionBook

structure FastAheadTracker where
  level : LevelKey
  ourSeq : UInt64
  aheadQty : Int64
  becameFront : Bool := false

namespace FastAheadTracker

def construct (level : LevelKey) (ourSeq aheadQtyAtInsert : UInt64) : FastAheadTracker :=
  let ahead := aheadQtyAtInsert.toInt64
  if ahead ≤ 0 then { level := level, ourSeq := ourSeq, aheadQty := 0, becameFront := true }
  else { level := level, ourSeq := ourSeq, aheadQty := ahead }

/-- The result is whether the message fills the order, and the tracker after it. -/
def consume (t : FastAheadTracker) (eff : ApplyEffect) : Bool × FastAheadTracker :=
  match eff.reduction with
  | none => (false,t)
  | some r =>
    if r.level ≠ t.level then (false,t)
    else
      let fill := t.becameFront && r.isExecute
      if r.entrySeq < t.ourSeq then
        let ahead := t.aheadQty - Word.widen r.qtyReduced
        let ahead := if ahead < 0 then 0 else ahead
        (fill,{ t with aheadQty := ahead, becameFront := if ahead = 0 then true else t.becameFront })
      else (fill,t)

/-- The clamp at zero would change a value. -/
def Clamps (t : FastAheadTracker) (eff : ApplyEffect) : Prop :=
  ∃ r, eff.reduction = some r ∧ r.level = t.level ∧ r.entrySeq < t.ourSeq ∧
    t.aheadQty - Word.widen r.qtyReduced < 0

end FastAheadTracker
end MarketFeed
