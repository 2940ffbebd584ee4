import MarketFeed.LiveFeed
import Mathlib.Data.List.GetD

/-! One datagram through `receive_loop`, whatever its bytes: what the loop copies out of
memory, told from the datagram's own bytes and from the stale ones behind them. -/
namespace MarketFeed
open Packed

def typeAt (bytes : List UInt8) : Option MsgType := MsgType.ofByte (bytes.headD 0)

/-- The arguments of one `memcpy` of the loop. -/
structure Copy where
  offset : Nat
  sz : Nat
  deriving DecidableEq, Repr

/-- The copies that the inner loop of `receive_loop` makes, in order. -/
def copiesFrom (buf : List UInt8) (n : Nat) : Nat → Nat → List Copy
  | 0,_ => []
  | left + 1,offset =>
    if offset < n then
      let sz := msgSize (typeAt (buf.drop offset))
      ⟨offset,sz⟩ :: copiesFrom buf n left (offset + sz)
    else []

def copies (buf : List UInt8) (n : Nat) : List Copy :=
  copiesFrom buf n (packetHeader.read buf).toNat packetHeader.size

theorem decodeFrom_copies (buf : List UInt8) (n left offset : Nat) :
    decodeFrom buf n left offset = (copiesFrom buf n left offset).map fun c =>
      WireMsg.load (typeAt (buf.drop c.offset)) (buf.drop c.offset) := by
  induction left generalizing offset with
  | zero => rfl
  | succ left ih =>
    simp only [decodeFrom,copiesFrom]
    split
    · exact congrArg _ (ih _)
    · rfl

/-- Every message the loop hands on is read where it copies. -/
theorem decodePacket_copies (buf : List UInt8) (n : Nat) :
    decodePacket buf n = (copies buf n).map fun c =>
      WireMsg.load (typeAt (buf.drop c.offset)) (buf.drop c.offset) :=
  decodeFrom_copies buf n _ _

/-- The records of a datagram: each is what is left of its bytes where a type byte stands. -/
def recordsFrom : Nat → List UInt8 → List (List UInt8)
  | 0,_ => []
  | left + 1,bytes =>
    if bytes = [] then [] else bytes :: recordsFrom left (bytes.drop (msgSize (typeAt bytes)))

def records (d : List UInt8) : List (List UInt8) :=
  recordsFrom (packetHeader.read d).toNat (d.drop packetHeader.size)

theorem recordsFrom_nil (left : Nat) : recordsFrom left [] = [] := by
  cases left <;> rfl

theorem recordsFrom_ne_nil (left : Nat) (bytes : List UInt8) : ∀ r ∈ recordsFrom left bytes, r ≠ [] := by
  induction left generalizing bytes with
  | zero => simp [recordsFrom]
  | succ left ih =>
    intro r member
    unfold recordsFrom at member
    split at member
    · simp at member
    next some =>
      rcases List.mem_cons.mp member with rfl | later
      · exact some
      · exact ih _ r later

theorem recordsFrom_suffix (left : Nat) (bytes : List UInt8) : ∀ r ∈ recordsFrom left bytes, r <:+ bytes := by
  induction left generalizing bytes with
  | zero => simp [recordsFrom]
  | succ left ih =>
    intro r member
    unfold recordsFrom at member
    split at member
    · simp at member
    · rcases List.mem_cons.mp member with rfl | later
      · exact List.suffix_refl _
      · exact (ih _ r later).trans (List.drop_suffix _ _)

theorem typeAt_append {r : List UInt8} (some : r ≠ []) (rest : List UInt8) : typeAt (r ++ rest) = typeAt r := by
  cases r with
  | nil => contradiction
  | cons b r => rfl

theorem copiesFrom_records (d stale : List UInt8) (left offset : Nat) :
    copiesFrom (d ++ stale) d.length left offset =
      (recordsFrom left (d.drop offset)).map fun r => ⟨d.length - r.length,msgSize (typeAt r)⟩ := by
  induction left generalizing offset with
  | zero => rfl
  | succ left ih =>
    simp only [copiesFrom,recordsFrom]
    split
    next inside =>
      have some : d.drop offset ≠ [] := by simpa using inside
      have type := typeAt_append some stale
      rw [← List.drop_append_of_le_length (Nat.le_of_lt inside)] at type
      have back : d.length - (d.length - offset) = offset := by omega
      rw [if_neg some,type,ih,List.map_cons,List.drop_drop,List.length_drop,back]
    next outside => rw [if_pos (List.drop_eq_nil_of_le (Nat.le_of_not_lt outside))]; rfl

/-- The copies depend on the bytes of the datagram alone. -/
theorem copies_records (d stale : List UInt8) :
    copies (d ++ stale) d.length =
      (records d).map fun r => ⟨d.length - r.length,msgSize (typeAt r)⟩ := by
  unfold copies records
  rw [copiesFrom_records]
  by_cases header : packetHeader.size ≤ d.length
  · have same : packetHeader.read (d ++ stale) = packetHeader.read d :=
      Layout.readsFront_uint16.front _ _ (List.take_append_of_le_length header)
    rw [same]
  · rw [List.drop_eq_nil_of_le (by omega),recordsFrom_nil,recordsFrom_nil]

theorem records_suffix (d : List UInt8) : ∀ r ∈ records d, r <:+ d := fun r member =>
  (recordsFrom_suffix _ _ r member).trans (List.drop_suffix _ _)

theorem decodePacket_records (d stale : List UInt8) :
    decodePacket (d ++ stale) d.length =
      (records d).map fun r => WireMsg.load (typeAt r) (r ++ stale) := by
  rw [decodePacket_copies,copies_records,List.map_map]
  refine List.map_congr_left fun r member => ?_
  obtain ⟨before,rfl⟩ := records_suffix d r member
  have here : (before ++ r ++ stale).drop ((before ++ r).length - r.length) = r ++ stale := by
    rw [List.length_append,Nat.add_sub_cancel,List.append_assoc,List.drop_left]
  simp only [Function.comp_apply,here]
  rw [typeAt_append (recordsFrom_ne_nil _ _ r member)]

theorem overwrite_start (buf d : List UInt8) : overwrite buf 0 d = d ++ buf.drop d.length := by
  simp [overwrite]

namespace WireMsg

open Layout

theorem readsFront_header : MsgHeader.layout.ReadsFront :=
  (readsFront_uint16.pair readsFront_uint64).as

theorem readsFront_side : Side.layout.ReadsFront := readsFront_byte.as

theorem readsFront_add : AddOrderMsg.layout.ReadsFront :=
  (readsFront_header.pair
    (readsFront_uint64.pair (readsFront_side.pair (readsFront_int64.pair readsFront_uint32)))).as

theorem readsFront_exec : ExecuteMsg.layout.ReadsFront :=
  (readsFront_header.pair (readsFront_uint64.pair readsFront_uint32)).as

theorem readsFront_cancel : CancelMsg.layout.ReadsFront :=
  (readsFront_header.pair (readsFront_uint64.pair readsFront_uint32)).as

theorem readsFront_del : DeleteMsg.layout.ReadsFront := (readsFront_header.pair readsFront_uint64).as

theorem readsFront_replace : ReplaceMsg.layout.ReadsFront :=
  (readsFront_header.pair
    (readsFront_uint64.pair (readsFront_uint64.pair (readsFront_int64.pair readsFront_uint32)))).as

theorem showsLast_add : AddOrderMsg.layout.ShowsLast := by
  refine ((((showsLast_uint32.pair _).pair _).pair _).pair _).as ?_
  rintro ⟨header,orderId,side,priceTicks,qty⟩ ⟨header',orderId',side',priceTicks',qty'⟩ same
  simpa using same

theorem showsLast_exec : ExecuteMsg.layout.ShowsLast := by
  refine ((showsLast_uint32.pair _).pair _).as ?_
  rintro ⟨header,orderId,qty⟩ ⟨header',orderId',qty'⟩ same
  simpa using same

theorem showsLast_cancel : CancelMsg.layout.ShowsLast := by
  refine ((showsLast_uint32.pair _).pair _).as ?_
  rintro ⟨header,orderId,qty⟩ ⟨header',orderId',qty'⟩ same
  simpa using same

theorem showsLast_del : DeleteMsg.layout.ShowsLast := by
  refine (showsLast_uint64.pair _).as ?_
  rintro ⟨header,orderId⟩ ⟨header',orderId'⟩ same
  simpa using same

theorem showsLast_replace : ReplaceMsg.layout.ShowsLast := by
  refine ((((showsLast_uint32.pair _).pair _).pair _).pair _).as ?_
  rintro ⟨header,oldId,newId,priceTicks,qty⟩ ⟨header',oldId',newId',priceTicks',qty'⟩ same
  simpa using same

theorem take_tail {α : Type} {xs ys : List α} {n : Nat} (same : xs.take (n + 1) = ys.take (n + 1)) :
    xs.tail.take n = ys.tail.take n := by
  have behind := congrArg List.tail same
  rwa [List.tail_take_eq_take_tail,List.tail_take_eq_take_tail] at behind

/-- What is read of a record lies within its size. -/
theorem load_front (t : Option MsgType) (bytes others : List UInt8)
    (same : bytes.take (msgSize t) = others.take (msgSize t)) : load t bytes = load t others := by
  cases t with
  | none => rfl
  | some t =>
    cases t with
    | addOrder => exact congrArg add (readsFront_add.front _ _ (take_tail same))
    | execute => exact congrArg exec (readsFront_exec.front _ _ (take_tail same))
    | cancel => exact congrArg cancel (readsFront_cancel.front _ _ (take_tail same))
    | delete => exact congrArg del (readsFront_del.front _ _ (take_tail same))
    | replace => exact congrArg replace (readsFront_replace.front _ _ (take_tail same))

theorem getD_tail {f : Layout α} (shows : f.ShowsLast) {bytes others : List UInt8}
    (same : f.read bytes.tail = f.read others.tail) : bytes.getD f.size 0 = others.getD f.size 0 := by
  have index : f.size - 1 + 1 = f.size := Nat.sub_add_cancel shows.occupied
  have told := shows.last _ _ same
  simpa only [List.getD_eq_getElem?_getD,List.getElem?_tail,index] using told

/-- The last byte of a record's size can be told from the message. -/
theorem load_last (t : MsgType) (bytes others : List UInt8) (same : load (some t) bytes = load (some t) others) :
    bytes.getD (msgSize (some t) - 1) 0 = others.getD (msgSize (some t) - 1) 0 := by
  cases t with
  | addOrder => exact getD_tail showsLast_add (add.inj same)
  | execute => exact getD_tail showsLast_exec (exec.inj same)
  | cancel => exact getD_tail showsLast_cancel (cancel.inj same)
  | delete => exact getD_tail showsLast_del (del.inj same)
  | replace => exact getD_tail showsLast_replace (replace.inj same)

end WireMsg

namespace LiveFeed

/-- `received_` and the pool after `messages` were dispatched, the receiver back at `recv`. -/
def handOn (f : LiveFeed) (messages : List WireMsg) : LiveFeed :=
  { f with
    pool := messages.foldl (fun pool m => (pool.dispatch m).2) f.pool
    received := f.received + messages.length
    decoded := f.decoded ++ messages
    receiver := .receiving }

theorem decoding_run (f : LiveFeed) (n left offset : Nat) (located : f.receiver = .decoding n left offset) :
    ∃ k, f.run (List.replicate k .receiver) = some (f.handOn (decodeFrom f.buf n left offset)) := by
  induction left generalizing f offset with
  | zero => exact ⟨1,by simp [run,step,receiverStep,located,handOn,decodeFrom]⟩
  | succ left ih =>
    by_cases inside : offset < n
    · have stepped : f.step .receiver = some (f.decodeOne n left offset) := by
        simp only [step,receiverStep,located,Nat.succ_pos,inside,and_self,if_true]
        rfl
      obtain ⟨k,ran⟩ := ih (f.decodeOne n left offset) _ rfl
      refine ⟨k + 1,?_⟩
      rw [List.replicate_succ,run,stepped,Option.bind_some,ran]
      simp only [handOn,decodeOne,decodeFrom,inside,if_true,messageAt,List.foldl_cons,List.length_cons,
        List.append_assoc,List.singleton_append,Nat.add_assoc,Nat.add_comm 1]
    · exact ⟨1,by simp [run,step,receiverStep,located,handOn,decodeFrom,inside]⟩

/-- One pass of `receive_loop`, in the steps of the receiver thread, is `decodePacket`. -/
theorem pass (f : LiveFeed) (d : List UInt8) (rest : List (List UInt8)) (nonempty : d.length > 0)
    (receiving : f.receiver = .receiving) (socket : f.socket = d :: rest) :
    ∃ k, f.run (List.replicate k .receiver) =
      some ((f.take d rest).handOn (decodePacket (overwrite f.buf 0 d) d.length)) := by
  have taken : f.step .receiver = some (f.take d rest) := by
    simp [step,receiverStep,receiving,socket,nonempty,take]
  obtain ⟨k,ran⟩ := decoding_run (f.take d rest) _ _ _ rfl
  refine ⟨k + 1,?_⟩
  rw [List.replicate_succ,run,taken,Option.bind_some,ran]
  rfl

end LiveFeed

/-- Whatever earlier datagrams left behind this one, the same messages are decoded. -/
def SameDecode (d : List UInt8) : Prop :=
  ∀ stale stale' : List UInt8, stale.length = recvBufferBytes → stale'.length = recvBufferBytes →
    decodePacket (overwrite stale 0 d) d.length = decodePacket (overwrite stale' 0 d) d.length

/-- No copy of the loop reaches past the first `bound` bytes of the buffer. -/
def CopiesWithin (d : List UInt8) (bound : Nat) : Prop :=
  ∀ stale : List UInt8, stale.length = recvBufferBytes →
    ∀ c ∈ copies (overwrite stale 0 d) d.length, c.offset + c.sz ≤ bound

structure Isolated (d : List UInt8) : Prop where
  same : SameDecode d
  received : CopiesWithin d d.length
  inBuffer : CopiesWithin d recvBufferBytes

/-- Every record that begins in the datagram ends in it. -/
def Whole (d : List UInt8) : Prop := ∀ r ∈ records d, msgSize (typeAt r) ≤ r.length

instance (d : List UInt8) : Decidable (Whole d) := inferInstanceAs (Decidable (∀ r ∈ records d, _))

variable {d : List UInt8}

theorem copiesWithin_iff (bound : Nat) :
    CopiesWithin d bound ↔ ∀ r ∈ records d, d.length - r.length + msgSize (typeAt r) ≤ bound := by
  constructor
  · intro within r member
    refine within (List.replicate recvBufferBytes 0) List.length_replicate
      ⟨d.length - r.length,msgSize (typeAt r)⟩ ?_
    rw [overwrite_start,copies_records]
    exact List.mem_map_of_mem member
  · intro within stale _ c copied
    rw [overwrite_start,copies_records] at copied
    obtain ⟨r,member,rfl⟩ := List.mem_map.mp copied
    exact within r member

theorem copiesWithin_whole : CopiesWithin d d.length ↔ Whole d := by
  rw [copiesWithin_iff]
  refine forall₂_congr fun r member => ?_
  have inside := (records_suffix d r member).length_le
  omega

theorem Whole.sameDecode (whole : Whole d) : SameDecode d := by
  intro stale stale' _ _
  simp only [overwrite_start,decodePacket_records]
  refine List.map_congr_left fun r member => WireMsg.load_front _ _ _ ?_
  have short := whole r member
  rw [List.take_append_of_le_length short,List.take_append_of_le_length short]

theorem getD_stale (r d : List UInt8) (b : UInt8) {i : Nat} (behind : r.length ≤ i)
    (inside : d.length + (i - r.length) < recvBufferBytes) :
    (r ++ (List.replicate recvBufferBytes b).drop d.length).getD i 0 = b := by
  have index : i - r.length < recvBufferBytes - d.length := by omega
  rw [List.getD_append_right _ _ _ _ behind,List.drop_replicate]
  exact List.getD_replicate _ index

/-- A record that is cut off ends in a stale byte, and its message tells which one it is. -/
theorem SameDecode.whole (same : SameDecode d) (inBuffer : CopiesWithin d recvBufferBytes) : Whole d := by
  intro r member
  by_contra cut
  have inside := (records_suffix d r member).length_le
  have reach := (copiesWithin_iff _).mp inBuffer r member
  have decoded := same (List.replicate recvBufferBytes 0) (List.replicate recvBufferBytes 0xff)
    List.length_replicate List.length_replicate
  simp only [overwrite_start,decodePacket_records] at decoded
  have message := List.map_inj_left.mp decoded r member
  cases known : typeAt r with
  | none =>
    rw [known] at cut
    exact cut (Nat.zero_le _)
  | some t =>
    rw [known] at cut reach message
    have told := WireMsg.load_last t _ _ message
    rw [getD_stale r d _ (by omega) (by omega),getD_stale r d _ (by omega) (by omega)] at told
    exact absurd told (by decide)

/-- What is decoded depends on the datagram alone exactly if no record is cut off; and
then, and only then, every copy stays within the bytes received. -/
theorem isolated_iff (d : List UInt8) (delivered : d.length ≤ recvBufferBytes) :
    (Isolated d ↔ Whole d) ∧ (SameDecode d ∧ CopiesWithin d recvBufferBytes ↔ CopiesWithin d d.length) := by
  have roomy (received : CopiesWithin d d.length) : CopiesWithin d recvBufferBytes :=
    fun stale size c copied => (received stale size c copied).trans delivered
  refine ⟨⟨fun isolated => copiesWithin_whole.mp isolated.received,fun whole => ?_⟩,
    fun ⟨same,inBuffer⟩ => copiesWithin_whole.mpr (same.whole inBuffer),fun received => ?_⟩
  · have received := copiesWithin_whole.mpr whole
    exact ⟨whole.sameDecode,received,roomy received⟩
  · exact ⟨(copiesWithin_whole.mp received).sameDecode,roomy received⟩

/-- Two messages announced, one whole Delete and no more: the overstated count does no harm. -/
theorem isolated_overstated : Isolated ([2,0,68] ++ List.replicate 18 7) :=
  (isolated_iff _ (by decide)).1.mpr (by decide)

/-- A Delete of which only the type byte came is completed with stale bytes. -/
theorem truncated_leaks : ¬ SameDecode [1,0,68] ∧ ¬ CopiesWithin [1,0,68] 3 := by
  have cut : ¬ Whole [1,0,68] := by decide
  have inBuffer : CopiesWithin [1,0,68] recvBufferBytes := (copiesWithin_iff _).mpr (by decide)
  exact ⟨fun same => cut (same.whole inBuffer),fun received => cut (copiesWithin_whole.mp received)⟩

end MarketFeed
