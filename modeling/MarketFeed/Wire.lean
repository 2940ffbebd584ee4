import MarketFeed.Protocol
import MarketFeed.Library.Packed

/-! The byte layout of the messages: a type byte, then the packed fields in the order
of their declarations. -/
namespace MarketFeed
open Packed

namespace MsgType

def toByte : MsgType → UInt8
  | .addOrder => 'A'.toUInt8
  | .execute => 'E'.toUInt8
  | .cancel => 'X'.toUInt8
  | .delete => 'D'.toUInt8
  | .replace => 'U'.toUInt8

def ofByte (b : UInt8) : Option MsgType :=
  if b = 'A'.toUInt8 then some .addOrder
  else if b = 'E'.toUInt8 then some .execute
  else if b = 'X'.toUInt8 then some .cancel
  else if b = 'D'.toUInt8 then some .delete
  else if b = 'U'.toUInt8 then some .replace
  else none

theorem ofByte_toByte (t : MsgType) : ofByte t.toByte = some t := by
  cases t <;> rfl

end MsgType

namespace Side

def toByte : Side → UInt8
  | .buy => 'B'.toUInt8
  | .sell => 'S'.toUInt8

/-- Every use of a side compares it with `Side::Buy`. -/
def ofByte (b : UInt8) : Side := if b = 'B'.toUInt8 then .buy else .sell

theorem ofByte_toByte (s : Side) : ofByte s.toByte = s := by
  cases s <;> rfl

def layout : Layout Side := Layout.byte.as ofByte toByte ofByte_toByte

end Side

open Layout in
def MsgHeader.layout : Layout MsgHeader :=
  (uint16.pair uint64).as (fun p => ⟨p.1,p.2⟩) (fun h => (h.instrumentId,h.timestampNs)) fun _ => rfl

open Layout in
def AddOrderMsg.layout : Layout AddOrderMsg :=
  (MsgHeader.layout.pair (uint64.pair (Side.layout.pair (int64.pair uint32)))).as
    (fun ⟨header,orderId,side,priceTicks,qty⟩ => ⟨header,orderId,side,priceTicks,qty⟩)
    (fun m => (m.header,m.orderId,m.side,m.priceTicks,m.qty)) fun _ => rfl

open Layout in
def ExecuteMsg.layout : Layout ExecuteMsg :=
  (MsgHeader.layout.pair (uint64.pair uint32)).as (fun ⟨header,orderId,qty⟩ => ⟨header,orderId,qty⟩)
    (fun m => (m.header,m.orderId,m.execQty)) fun _ => rfl

open Layout in
def CancelMsg.layout : Layout CancelMsg :=
  (MsgHeader.layout.pair (uint64.pair uint32)).as (fun ⟨header,orderId,qty⟩ => ⟨header,orderId,qty⟩)
    (fun m => (m.header,m.orderId,m.cancelQty)) fun _ => rfl

open Layout in
def DeleteMsg.layout : Layout DeleteMsg :=
  (MsgHeader.layout.pair uint64).as (fun ⟨header,orderId⟩ => ⟨header,orderId⟩)
    (fun m => (m.header,m.orderId)) fun _ => rfl

open Layout in
def ReplaceMsg.layout : Layout ReplaceMsg :=
  (MsgHeader.layout.pair (uint64.pair (uint64.pair (int64.pair uint32)))).as
    (fun ⟨header,oldOrderId,newOrderId,priceTicks,qty⟩ => ⟨header,oldOrderId,newOrderId,priceTicks,qty⟩)
    (fun m => (m.header,m.oldOrderId,m.newOrderId,m.priceTicks,m.qty)) fun _ => rfl

namespace WireMsg

def encode : WireMsg → List UInt8
  | .zero => []
  | .add m => MsgType.addOrder.toByte :: AddOrderMsg.layout.write m
  | .exec m => MsgType.execute.toByte :: ExecuteMsg.layout.write m
  | .cancel m => MsgType.cancel.toByte :: CancelMsg.layout.write m
  | .del m => MsgType.delete.toByte :: DeleteMsg.layout.write m
  | .replace m => MsgType.replace.toByte :: ReplaceMsg.layout.write m

/-- `WireMsg m{}` after `msg_size(t)` bytes were copied into it; of an unknown type, none. -/
def load (t : Option MsgType) (bytes : List UInt8) : WireMsg :=
  match t with
  | some .addOrder => .add (AddOrderMsg.layout.read bytes.tail)
  | some .execute => .exec (ExecuteMsg.layout.read bytes.tail)
  | some .cancel => .cancel (CancelMsg.layout.read bytes.tail)
  | some .delete => .del (DeleteMsg.layout.read bytes.tail)
  | some .replace => .replace (ReplaceMsg.layout.read bytes.tail)
  | none => .zero

theorem length_encode (m : WireMsg) : m.encode.length = msgSize m.type := by
  cases m with
  | zero => rfl
  | add m => exact congrArg (· + 1) (AddOrderMsg.layout.length_write m)
  | exec m => exact congrArg (· + 1) (ExecuteMsg.layout.length_write m)
  | cancel m => exact congrArg (· + 1) (CancelMsg.layout.length_write m)
  | del m => exact congrArg (· + 1) (DeleteMsg.layout.length_write m)
  | replace m => exact congrArg (· + 1) (ReplaceMsg.layout.length_write m)

theorem load_encode (m : WireMsg) (rest : List UInt8) : load m.type (m.encode ++ rest) = m := by
  cases m with
  | zero => rfl
  | add m => exact congrArg add (AddOrderMsg.layout.read_write m rest)
  | exec m => exact congrArg exec (ExecuteMsg.layout.read_write m rest)
  | cancel m => exact congrArg cancel (CancelMsg.layout.read_write m rest)
  | del m => exact congrArg del (DeleteMsg.layout.read_write m rest)
  | replace m => exact congrArg replace (ReplaceMsg.layout.read_write m rest)

theorem ofByte_encode (m : WireMsg) (typed : m ≠ .zero) (rest : List UInt8) :
    MsgType.ofByte ((m.encode ++ rest).headD 0) = m.type := by
  cases m with
  | zero => contradiction
  | _ => rfl

theorem msgSize_pos (m : WireMsg) (typed : m ≠ .zero) : 0 < msgSize m.type := by
  cases m with
  | zero => contradiction
  | _ => exact Nat.succ_pos _

end WireMsg
end MarketFeed
