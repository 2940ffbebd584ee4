import Mathlib.Init

/-! The messages of the feed as the decoder hands them on. A `WireMsg` is the
union of the packed records; the constructor is the value of `header.type`. -/
namespace MarketFeed

inductive MsgType where
  | addOrder
  | execute
  | cancel
  | delete
  | replace
  deriving DecidableEq, Repr

inductive Side where
  | buy
  | sell
  deriving DecidableEq, Repr

structure MsgHeader where
  instrumentId : UInt16
  timestampNs : UInt64
  deriving DecidableEq, Repr

structure AddOrderMsg where
  header : MsgHeader
  orderId : UInt64
  side : Side
  priceTicks : Int64
  qty : UInt32
  deriving DecidableEq, Repr

structure ExecuteMsg where
  header : MsgHeader
  orderId : UInt64
  execQty : UInt32
  deriving DecidableEq, Repr

structure CancelMsg where
  header : MsgHeader
  orderId : UInt64
  cancelQty : UInt32
  deriving DecidableEq, Repr

structure DeleteMsg where
  header : MsgHeader
  orderId : UInt64
  deriving DecidableEq, Repr

structure ReplaceMsg where
  header : MsgHeader
  oldOrderId : UInt64
  newOrderId : UInt64
  priceTicks : Int64
  qty : UInt32
  deriving DecidableEq, Repr

/-- `zero` is the value-initialised union `WireMsg m{}`: its type byte is 0, which
is no `MsgType`. -/
inductive WireMsg where
  | zero
  | add (m : AddOrderMsg)
  | exec (m : ExecuteMsg)
  | cancel (m : CancelMsg)
  | del (m : DeleteMsg)
  | replace (m : ReplaceMsg)
  deriving DecidableEq, Repr

namespace WireMsg

def header : WireMsg → MsgHeader
  | .zero => ⟨0,0⟩
  | .add m => m.header
  | .exec m => m.header
  | .cancel m => m.header
  | .del m => m.header
  | .replace m => m.header

def type : WireMsg → Option MsgType
  | .zero => none
  | .add _ => some .addOrder
  | .exec _ => some .execute
  | .cancel _ => some .cancel
  | .del _ => some .delete
  | .replace _ => some .replace

def orderIds : WireMsg → List UInt64
  | .zero => []
  | .add m => [m.orderId]
  | .exec m => [m.orderId]
  | .cancel m => [m.orderId]
  | .del m => [m.orderId]
  | .replace m => [m.oldOrderId,m.newOrderId]

end WireMsg

/-- `sizeof` of the packed records; an unknown type has size 0. -/
def msgSize : Option MsgType → Nat
  | some .addOrder => 32
  | some .execute => 23
  | some .cancel => 23
  | some .delete => 19
  | some .replace => 39
  | none => 0

def numInstruments : Nat := 512

end MarketFeed
