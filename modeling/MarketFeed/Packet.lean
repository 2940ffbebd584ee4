import MarketFeed.Wire
import Mathlib.Data.List.Forall2

/-! The framing of the live feed: `publish_loop` packs messages behind a count, and
`receive_loop` decodes a datagram out of a buffer that earlier datagrams have filled. -/
namespace MarketFeed
open Packed

def kMaxPayloadBytes : Nat := 1200

/-- `PacketHeader`, whose one field is `num_messages`. -/
def packetHeader : Layout UInt16 := Layout.uint16

def sizeofWireMsg : Nat := msgSize (some .replace)

structure Publisher where
  packet : List UInt8 := List.replicate (kMaxPayloadBytes + sizeofWireMsg) 0
  offset : Nat := packetHeader.size
  count : UInt16 := 0

namespace Publisher

/-- The datagram handed to `sendto`, if any, and the locals after the call. -/
def flush (p : Publisher) : Option (List UInt8) × Publisher :=
  if p.count = 0 then (none,p)
  else
    let packet := overwrite p.packet 0 (packetHeader.write p.count)
    (some (packet.take p.offset),{ packet := packet, offset := packetHeader.size, count := 0 })

def copy (p : Publisher) (m : WireMsg) : Publisher where
  packet := overwrite p.packet p.offset m.encode
  offset := p.offset + msgSize m.type
  count := p.count + 1

def pack (p : Publisher) (m : WireMsg) : Option (List UInt8) × Publisher :=
  if p.offset + msgSize m.type > kMaxPayloadBytes then (p.flush.1,p.flush.2.copy m)
  else (none,p.copy m)

def datagrams (p : Publisher) : List WireMsg → List (List UInt8)
  | [] => p.flush.1.toList
  | m :: rest => (p.pack m).1.toList ++ (p.pack m).2.datagrams rest

end Publisher

def publish (messages : List WireMsg) : List (List UInt8) := ({} : Publisher).datagrams messages

/-- The inner loop of `receive_loop` with `left = num_messages - k` messages to go. -/
def decodeFrom (buf : List UInt8) (n : Nat) : Nat → Nat → List WireMsg
  | 0,_ => []
  | left + 1,offset =>
    if offset < n then
      let t := MsgType.ofByte ((buf.drop offset).headD 0)
      let m := WireMsg.load t (buf.drop offset)
      m :: decodeFrom buf n left (offset + msgSize t)
    else []

theorem decodeFrom_finished (buf : List UInt8) {n left offset : Nat} (finished : ¬(0 < left ∧ offset < n)) :
    decodeFrom buf n left offset = [] := by
  cases left with
  | zero => rfl
  | succ count =>
    rw [decodeFrom,if_neg]
    omega

def decodePacket (buf : List UInt8) (n : Nat) : List WireMsg :=
  decodeFrom buf n (packetHeader.read buf).toNat packetHeader.size

/-- `recv` fills the front of the buffer and leaves the rest of it as it was. -/
def receive (buf : List UInt8) : List (List UInt8) → List WireMsg
  | [] => []
  | d :: rest => decodePacket (overwrite buf 0 d) d.length ++ receive (overwrite buf 0 d) rest

def body (messages : List WireMsg) : List UInt8 := messages.flatMap WireMsg.encode

def datagram (messages : List WireMsg) : List UInt8 :=
  packetHeader.write (UInt16.ofNat messages.length) ++ body messages

theorem length_datagram_pos (messages : List WireMsg) : 0 < (datagram messages).length := by
  rw [datagram,List.length_append,packetHeader.length_write]
  exact Nat.add_pos_left (Nat.succ_pos _) _

structure Fits (messages : List WireMsg) : Prop where
  typed : ∀ m ∈ messages, m ≠ .zero
  short : packetHeader.size + (body messages).length ≤ kMaxPayloadBytes

theorem body_append (first second : List WireMsg) : body (first ++ second) = body first ++ body second :=
  List.flatMap_append

theorem length_body_singleton (m : WireMsg) : (body [m]).length = msgSize m.type := by
  simp [body,WireMsg.length_encode]

theorem length_le_body (messages : List WireMsg) (typed : ∀ m ∈ messages, m ≠ .zero) :
    messages.length ≤ (body messages).length := by
  induction messages with
  | nil => exact Nat.le_refl _
  | cons m rest ih =>
    have positive := m.msgSize_pos (typed m (List.mem_cons_self ..))
    have others := ih fun x member => typed x (List.mem_cons_of_mem _ member)
    simp only [body,List.flatMap_cons,List.length_append,List.length_cons,m.length_encode] at others ⊢
    omega

theorem Fits.count {messages : List WireMsg} (fits : Fits messages) : messages.length < 2^16 := by
  have bytes := length_le_body messages fits.typed
  have short := fits.short
  simp only [kMaxPayloadBytes] at short
  omega

theorem fits_singleton (m : WireMsg) (typed : m ≠ .zero) : Fits [m] := by
  refine ⟨by simpa using typed,?_⟩
  rw [length_body_singleton]
  cases m <;> simp [WireMsg.type,msgSize,packetHeader,Layout.uint16,Layout.number,kMaxPayloadBytes]

theorem decodeFrom_body (buf rest : List UInt8) (n : Nat) (messages : List WireMsg)
    (typed : ∀ m ∈ messages, m ≠ .zero) (offset : Nat) (here : buf.drop offset = body messages ++ rest)
    (inside : offset + (body messages).length ≤ n) :
    decodeFrom buf n messages.length offset = messages := by
  induction messages generalizing offset with
  | nil => rfl
  | cons m others ih =>
    have typedFirst := typed m (List.mem_cons_self ..)
    have positive := m.msgSize_pos typedFirst
    have split : body (m :: others) = m.encode ++ body others := List.flatMap_cons
    rw [split,List.length_append,m.length_encode] at inside
    rw [split,List.append_assoc] at here
    have after : buf.drop (offset + msgSize m.type) = body others ++ rest := by
      rw [← List.drop_drop,here,List.drop_left' m.length_encode]
    have next := ih (fun x member => typed x (List.mem_cons_of_mem _ member)) _ after (by omega)
    simp only [List.length_cons,decodeFrom,here]
    rw [if_pos (by omega),m.ofByte_encode typedFirst,m.load_encode,next]

theorem decodePacket_datagram (messages : List WireMsg) (fits : Fits messages) (buf : List UInt8) :
    decodePacket (overwrite buf 0 (datagram messages)) (datagram messages).length = messages := by
  have laid : overwrite buf 0 (datagram messages) = packetHeader.write (UInt16.ofNat messages.length) ++
      (body messages ++ buf.drop (datagram messages).length) := by
    simp [overwrite,datagram]
  have width := packetHeader.length_write (UInt16.ofNat messages.length)
  have count : (UInt16.ofNat messages.length).toNat = messages.length :=
    Nat.mod_eq_of_lt fits.count
  unfold decodePacket
  rw [laid,packetHeader.read_write,count]
  refine decodeFrom_body _ _ _ messages fits.typed _ (List.drop_left' width) ?_
  rw [datagram,List.length_append,width]

namespace Publisher

structure Holds (p : Publisher) (pending : List WireMsg) : Prop where
  capacity : p.packet.length = kMaxPayloadBytes + sizeofWireMsg
  offset : p.offset = packetHeader.size + (body pending).length
  count : p.count.toNat = pending.length
  fits : Fits pending
  written : (p.packet.drop packetHeader.size).take (body pending).length = body pending

theorem holds_init : Holds {} [] where
  capacity := List.length_replicate
  offset := rfl
  count := rfl
  fits := ⟨by simp,Nat.le_of_ble_eq_true rfl⟩
  written := rfl

variable {p : Publisher} {pending : List WireMsg}

theorem flush_empty (holds : Holds p []) : p.flush = (none,p) := by
  have blank : p.count = 0 := UInt16.toNat_inj.mp holds.count
  simp [flush,blank]

theorem flush_pending (holds : Holds p pending) (nonempty : pending ≠ []) :
    p.flush.1 = some (datagram pending) ∧ Holds p.flush.2 [] := by
  have counted : p.count ≠ 0 := by
    intro blank
    have := holds.count
    simp [blank] at this
    exact nonempty (List.length_eq_zero_iff.mp this.symm)
  have same : p.count = UInt16.ofNat pending.length := by
    rw [← holds.count]
    exact UInt16.ofNat_toNat.symm
  have width := packetHeader.length_write p.count
  unfold flush
  rw [if_neg counted]
  refine ⟨?_,?_,rfl,rfl,holds_init.fits,rfl⟩
  · have front := overwrite_front p.packet (packetHeader.write p.count) (body pending).length
    rw [width,holds.written] at front
    exact congrArg some (by rw [holds.offset,front,same]; rfl)
  · rw [length_overwrite _ _ _ (by rw [width,holds.capacity]; decide)]
    exact holds.capacity

theorem copy_holds (holds : Holds p pending) (m : WireMsg) (typed : m ≠ .zero)
    (room : p.offset + msgSize m.type ≤ kMaxPayloadBytes) :
    Holds (p.copy m) (pending ++ [m]) := by
  have more : (body (pending ++ [m])).length = (body pending).length + msgSize m.type := by
    rw [body_append,List.length_append,length_body_singleton]
  have inside : p.offset + m.encode.length ≤ p.packet.length := by
    rw [m.length_encode,holds.capacity]
    omega
  have fits : Fits (pending ++ [m]) := by
    refine ⟨?_,by rw [more,← Nat.add_assoc,← holds.offset]; exact room⟩
    intro x member
    rcases List.mem_append.mp member with earlier | last
    · exact holds.fits.typed x earlier
    · rwa [List.mem_singleton.mp last]
  refine ⟨(length_overwrite _ _ _ inside).trans holds.capacity,?_,?_,fits,?_⟩
  · rw [more,copy,holds.offset,Nat.add_assoc]
  · have bound := fits.count
    simp only [List.length_append,List.length_singleton] at bound
    rw [copy,UInt16.toNat_add,holds.count]
    simpa using Nat.mod_eq_of_lt bound
  · have copied := overwrite_body p.packet packetHeader.size p.offset m.encode
      (by rw [holds.offset]; omega) (by omega)
    have before : p.offset - packetHeader.size = (body pending).length := by
      rw [holds.offset]
      omega
    rw [before,holds.written,m.length_encode] at copied
    rw [more,copy,copied,body_append]
    simp [body]

theorem pack_holds (holds : Holds p pending) (m : WireMsg) (typed : m ≠ .zero) :
    ((p.pack m).1 = none ∧ Holds (p.pack m).2 (pending ++ [m])) ∨
      (pending ≠ [] ∧ (p.pack m).1 = some (datagram pending) ∧ Holds (p.pack m).2 [m]) := by
  unfold pack
  split
  next full =>
    have nonempty : pending ≠ [] := by
      intro nil
      have alone := (fits_singleton m typed).short
      rw [length_body_singleton] at alone
      have start := holds.offset
      simp only [nil,body,List.flatMap_nil,List.length_nil] at start
      omega
    obtain ⟨sent,cleared⟩ := flush_pending holds nonempty
    have alone := (fits_singleton m typed).short
    rw [length_body_singleton] at alone
    have start : p.flush.2.offset = packetHeader.size := cleared.offset
    exact Or.inr ⟨nonempty,sent,copy_holds cleared m typed (by rw [start]; exact alone)⟩
  next room =>
    exact Or.inl ⟨rfl,copy_holds holds m typed (Nat.le_of_not_lt room)⟩

theorem datagrams_groups (holds : Holds p pending) (messages : List WireMsg)
    (typed : ∀ m ∈ messages, m ≠ .zero) :
    ∃ groups : List (List WireMsg), groups.flatten = pending ++ messages ∧
      p.datagrams messages = groups.map datagram ∧ ∀ group ∈ groups, group ≠ [] ∧ Fits group := by
  induction messages generalizing p pending with
  | nil =>
    rcases List.eq_nil_or_concat pending with rfl | ⟨most,last,rfl⟩
    · exact ⟨[],rfl,by simp [datagrams,flush_empty holds],by simp⟩
    · obtain ⟨sent,_⟩ := flush_pending holds (by simp)
      exact ⟨[most ++ [last]],by simp,by simp [datagrams,sent],by simpa using holds.fits⟩
  | cons m rest ih =>
    have others := fun x member => typed x (List.mem_cons_of_mem _ member)
    rcases pack_holds holds m (typed m (List.mem_cons_self ..)) with ⟨sent,packed⟩ | ⟨nonempty,sent,packed⟩
    · obtain ⟨groups,flat,split,each⟩ := ih packed others
      exact ⟨groups,by simpa using flat,by simp [datagrams,sent,split],each⟩
    · obtain ⟨groups,flat,split,each⟩ := ih packed others
      refine ⟨pending :: groups,by simp [flat],by simp [datagrams,sent,split],?_⟩
      intro group member
      rcases List.mem_cons.mp member with rfl | later
      · exact ⟨nonempty,holds.fits⟩
      · exact each group later

end Publisher

theorem receive_datagrams (groups : List (List WireMsg)) (fits : ∀ group ∈ groups, Fits group)
    (buf : List UInt8) : receive buf (groups.map datagram) = groups.flatten := by
  induction groups generalizing buf with
  | nil => rfl
  | cons group rest ih =>
    have first := decodePacket_datagram group (fits group (List.mem_cons_self ..)) buf
    have others := ih (fun x member => fits x (List.mem_cons_of_mem _ member)) (overwrite buf 0 (datagram group))
    rw [List.map_cons,receive,first,others,List.flatten_cons]

structure Carries (messages : List WireMsg) (packet : List UInt8) : Prop where
  nonempty : messages ≠ []
  short : packet.length ≤ kMaxPayloadBytes
  numMessages : (packetHeader.read packet).toNat = messages.length
  whole : packet.drop packetHeader.size = body messages
  decoded : ∀ buf, decodePacket (overwrite buf 0 packet) packet.length = messages

theorem carries_datagram (messages : List WireMsg) (nonempty : messages ≠ []) (fits : Fits messages) :
    Carries messages (datagram messages) where
  nonempty := nonempty
  short := by
    rw [datagram,List.length_append,packetHeader.length_write]
    exact fits.short
  numMessages := by
    rw [datagram,packetHeader.read_write]
    exact Nat.mod_eq_of_lt fits.count
  whole := List.drop_left' (packetHeader.length_write _)
  decoded := decodePacket_datagram messages fits

/-- Every datagram carries whole messages within its size, and the receiver gets all of
them back in order, whatever its buffer held. -/
theorem decode_publish (messages : List WireMsg) (typed : ∀ m ∈ messages, m ≠ .zero) (buf : List UInt8) :
    (∃ groups : List (List WireMsg), groups.flatten = messages ∧
      List.Forall₂ Carries groups (publish messages)) ∧
    receive buf (publish messages) = messages := by
  obtain ⟨groups,flat,split,each⟩ := Publisher.datagrams_groups Publisher.holds_init messages typed
  rw [publish,split]
  refine ⟨⟨groups,by simpa using flat,?_⟩,?_⟩
  · rw [List.forall₂_map_right_iff,List.forall₂_same]
    exact fun group member => carries_datagram group (each group member).1 (each group member).2
  · rw [receive_datagrams groups (fun group member => (each group member).2) buf]
    simpa using flat

theorem decode_publish_pair :
    receive (List.replicate 65536 0xff) (publish [.add ⟨⟨3,9⟩,1,.sell,-5,7⟩,.del ⟨⟨3,10⟩,1⟩]) =
      [.add ⟨⟨3,9⟩,1,.sell,-5,7⟩,.del ⟨⟨3,10⟩,1⟩] :=
  (decode_publish [.add ⟨⟨3,9⟩,1,.sell,-5,7⟩,.del ⟨⟨3,10⟩,1⟩] (by simp) _).2

end MarketFeed
