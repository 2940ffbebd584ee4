import MarketFeed.Datagram

/-! What a datagram of any bytes makes `receive_loop` hand to `Normalizer::dispatch`, with
no check of the type, of the instrument or of the room behind `num_messages`. -/
namespace MarketFeed
open Packed

/-- `sizeof(DeleteMsg)`. -/
def smallestMsgSize : Nat := msgSize (some .delete)

theorem smallestMsgSize_le (t : MsgType) : smallestMsgSize ≤ msgSize (some t) := by
  cases t <;> decide

theorem WireMsg.type_load (t : Option MsgType) (bytes : List UInt8) : (WireMsg.load t bytes).type = t := by
  rcases t with _ | t
  · rfl
  · cases t <;> rfl

theorem WireMsg.instrument_load (t : MsgType) (bytes : List UInt8) :
    instrumentOf (WireMsg.load (some t) bytes) = leValue (bytes.tail.take 2) := by
  have word := leValue_take_lt bytes.tail 2
  have read : instrumentOf (WireMsg.load (some t) bytes) = (Layout.uint16.read bytes.tail).toNat := by
    cases t <;> rfl
  rw [read]
  exact Nat.mod_eq_of_lt word

/-- The high byte of the instrument is the third of the record. -/
theorem WireMsg.inTables_load (t : MsgType) (bytes : List UInt8) :
    instrumentOf (WireMsg.load (some t) bytes) < numInstruments ↔ bytes.getD 2 0 < 2 := by
  have high : leValue (bytes.tail.take 2) / 256 = (bytes.getD 2 0).toNat := by
    rw [← Nat.pow_one 256,leValue_top]
    simp only [List.getD_eq_getElem?_getD,List.getElem?_tail]
  have two : bytes.getD 2 0 < 2 ↔ (bytes.getD 2 0).toNat < 2 := UInt8.lt_iff_toNat_lt
  rw [WireMsg.instrument_load,two,← high,numInstruments]
  omega

/-- What `receive_loop` finds in memory from the start of its buffer: the datagram, stale
bytes up to the end of the buffer, and whatever lies behind. -/
def memory (stale beyond d : List UInt8) : List UInt8 := overwrite stale 0 d ++ beyond

structure Validated (d : List UInt8) (messages : List WireMsg) : Prop where
  known : ∀ m ∈ messages, m.type.isSome
  inTables : ∀ m ∈ messages, instrumentOf m < numInstruments
  count : messages.length * smallestMsgSize ≤ d.length - packetHeader.size

def Harmless (d : List UInt8) : Prop :=
  ∀ stale beyond : List UInt8, stale.length = recvBufferBytes → sizeofWireMsg ≤ beyond.length →
    Validated d (decodePacket (memory stale beyond d) d.length)

/-- By how many bytes the last record is cut off, if it is. -/
def missing (d : List UInt8) : Nat :=
  ((records d).map fun r => msgSize (typeAt r)).sum - (d.length - packetHeader.size)

/-- By how many bytes the records are larger than as many of the smallest. -/
def spare (d : List UInt8) : Nat :=
  ((records d).map fun r => msgSize (typeAt r) - smallestMsgSize).sum

structure Sound (d : List UInt8) : Prop where
  known : ∀ r ∈ records d, (typeAt r).isSome
  listed : ∀ r ∈ records d, 2 < r.length ∧ r.getD 2 0 < 2
  room : missing d ≤ spare d

instance (d : List UInt8) : Decidable (Sound d) :=
  decidable_of_iff ((∀ r ∈ records d, (typeAt r).isSome) ∧ (∀ r ∈ records d, 2 < r.length ∧ r.getD 2 0 < 2) ∧
      missing d ≤ spare d)
    ⟨fun ⟨known,listed,room⟩ => ⟨known,listed,room⟩,fun ⟨known,listed,room⟩ => ⟨known,listed,room⟩⟩

theorem sum_excess (sizes : List Nat) (c : Nat) (large : ∀ s ∈ sizes, c ≤ s) :
    sizes.sum = sizes.length * c + (sizes.map fun s => s - c).sum := by
  induction sizes with
  | nil => simp
  | cons s rest ih =>
    have first := large s (List.mem_cons_self ..)
    have others := ih fun x member => large x (List.mem_cons_of_mem _ member)
    rw [List.sum_cons,List.map_cons,List.sum_cons,List.length_cons,Nat.succ_mul,others]
    omega

variable {d : List UInt8}

/-- The smallest messages that as many records would be take the room the datagram has. -/
theorem room_iff (known : ∀ r ∈ records d, (typeAt r).isSome) :
    missing d ≤ spare d ↔ (records d).length * smallestMsgSize ≤ d.length - packetHeader.size := by
  have total := sum_excess ((records d).map fun r => msgSize (typeAt r)) smallestMsgSize (by
    intro s member
    obtain ⟨r,listed,rfl⟩ := List.mem_map.mp member
    obtain ⟨t,type⟩ := Option.isSome_iff_exists.mp (known r listed)
    rw [type]
    exact smallestMsgSize_le t)
  rw [List.length_map,List.map_map] at total
  have excess : (((fun s => s - smallestMsgSize) ∘ fun r => msgSize (typeAt r)) : List UInt8 → Nat) =
      fun r => msgSize (typeAt r) - smallestMsgSize := rfl
  unfold missing spare
  rw [total,excess]
  omega

theorem decodePacket_memory (stale beyond d : List UInt8) :
    decodePacket (memory stale beyond d) d.length =
      (records d).map fun r => WireMsg.load (typeAt r) (r ++ (stale.drop d.length ++ beyond)) := by
  rw [memory,overwrite_start,List.append_assoc,decodePacket_records]

theorem Sound.harmless (sound : Sound d) : Harmless d := by
  intro stale beyond _ _
  rw [decodePacket_memory]
  refine ⟨?_,?_,?_⟩
  · intro m member
    obtain ⟨r,listed,rfl⟩ := List.mem_map.mp member
    rw [WireMsg.type_load]
    exact sound.known r listed
  · intro m member
    obtain ⟨r,listed,rfl⟩ := List.mem_map.mp member
    obtain ⟨t,type⟩ := Option.isSome_iff_exists.mp (sound.known r listed)
    obtain ⟨inside,low⟩ := sound.listed r listed
    rw [type,WireMsg.inTables_load,List.getD_append _ _ _ _ inside]
    exact low
  · rw [List.length_map]
    exact (room_iff sound.known).mp sound.room

/-- Stale bytes 0xff behind the datagram show what the loop takes on trust. -/
theorem Harmless.sound (harmless : Harmless d) : Sound d := by
  have validated := harmless (List.replicate recvBufferBytes 0xff) (List.replicate sizeofWireMsg 0xff)
    List.length_replicate (Nat.le_of_eq List.length_replicate.symm)
  rw [decodePacket_memory,List.drop_replicate,List.replicate_append_replicate] at validated
  have known : ∀ r ∈ records d, (typeAt r).isSome := by
    intro r listed
    have type := validated.known _ (List.mem_map_of_mem listed)
    rwa [WireMsg.type_load] at type
  refine ⟨known,?_,?_⟩
  · intro r listed
    obtain ⟨t,type⟩ := Option.isSome_iff_exists.mp (known r listed)
    have low := validated.inTables _ (List.mem_map_of_mem listed)
    rw [type,WireMsg.inTables_load] at low
    by_cases inside : 2 < r.length
    · rw [List.getD_append _ _ _ _ inside] at low
      exact ⟨inside,low⟩
    · have room : 2 - r.length < recvBufferBytes - d.length + sizeofWireMsg := by
        have : sizeofWireMsg = 39 := rfl
        omega
      rw [List.getD_append_right _ _ _ _ (Nat.le_of_not_lt inside),List.getD_replicate _ room] at low
      exact absurd low (by decide)
  · have count := validated.count
    rw [List.length_map] at count
    exact (room_iff known).mpr count

/-- A datagram drives the loop within the tables and within its own room, whatever lies
behind it, exactly if its records are sound. -/
theorem harmless_iff (d : List UInt8) : Harmless d ↔ Sound d := ⟨Harmless.sound,Sound.harmless⟩

/-- Three bytes make two messages of no type; five make one for instrument 512. -/
theorem fabricated : ¬ Harmless [2,0,0] ∧ ¬ Harmless [1,0,68,0,2] :=
  ⟨fun harmless => absurd harmless.sound (by decide),fun harmless => absurd harmless.sound (by decide)⟩

end MarketFeed
