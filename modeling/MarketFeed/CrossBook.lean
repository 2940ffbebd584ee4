import MarketFeed.Sharding

/-! Which book a message about a resting order changes: `apply` takes the book of the
instrument in the message, and never reads the `local_idx` that the order was stored with. -/
namespace MarketFeed
open FiniteMap

namespace WireMsg

/-- The order a message takes quantity from. -/
def reduces : WireMsg → Option UInt64
  | .zero => none
  | .add _ => none
  | .exec e => some e.orderId
  | .cancel c => some c.orderId
  | .del d => some d.orderId
  | .replace r => some r.oldOrderId

/-- The order a message adds. -/
def adds : WireMsg → Option UInt64
  | .zero => none
  | .add a => some a.orderId
  | .exec _ => none
  | .cancel _ => none
  | .del _ => none
  | .replace r => some r.newOrderId

end WireMsg

namespace Shard

def orderOf (shard : Shard) (m : WireMsg) : Option OrderLocation := m.reduces.bind shard.orders.lookup

/-- The message's calls go to the book at `home` and no other book changes. -/
structure Confined (shard : Shard) (item : QueueItem) (home : UInt16) : Prop where
  applied : (shard.apply item).books[home.toNat]? =
    shard.books[home.toNat]?.map fun b => b.calls (bookCalls item.msg shard.find)
  others : ∀ i ≠ home.toNat, (shard.apply item).books[i]? = shard.books[i]?

/-- The calls would leave the book as it is, as an execution of nothing does. -/
def Idle (shard : Shard) (m : WireMsg) (localIdx : UInt16) : Prop :=
  ∀ b, shard.books[localIdx.toNat]? = some b → b.calls (bookCalls m shard.find) = b

theorem apply_addressed (shard : Shard) (item : QueueItem) :
    (shard.apply item).books[item.localIdx.toNat]? =
      shard.books[item.localIdx.toNat]?.map fun b => b.calls (bookCalls item.msg shard.find) := by
  rw [apply_books,List.getElem?_modify_eq]
  rfl

theorem apply_elsewhere (shard : Shard) (item : QueueItem) {i : Nat} (elsewhere : i ≠ item.localIdx.toNat) :
    (shard.apply item).books[i]? = shard.books[i]? := by
  rw [apply_books,List.getElem?_modify_ne _ _ elsewhere.symm]

theorem Idle.map {shard : Shard} {m : WireMsg} {localIdx : UInt16} (idle : Idle shard m localIdx) :
    (shard.books[localIdx.toNat]?.map fun b => b.calls (bookCalls m shard.find)) =
      shard.books[localIdx.toNat]? := by
  cases placed : shard.books[localIdx.toNat]? with
  | none => rfl
  | some b => rw [Option.map_some,idle b placed]

theorem idle_of_map {shard : Shard} {m : WireMsg} {localIdx : UInt16}
    (same : (shard.books[localIdx.toNat]?.map fun b => b.calls (bookCalls m shard.find)) =
      shard.books[localIdx.toNat]?) : Idle shard m localIdx := by
  intro b placed
  rw [placed,Option.map_some] at same
  exact Option.some.inj same

theorem confined_home (shard : Shard) (item : QueueItem) : Confined shard item item.localIdx where
  applied := apply_addressed shard item
  others _ other := apply_elsewhere shard item other

theorem confined_elsewhere (shard : Shard) (item : QueueItem) (home : UInt16) (elsewhere : item.localIdx ≠ home) :
    Confined shard item home ↔ Idle shard item.msg home ∧ Idle shard item.msg item.localIdx := by
  have apart : home.toNat ≠ item.localIdx.toNat := fun same => elsewhere (UInt16.toNat_inj.mp same).symm
  constructor
  · intro ⟨applied,others⟩
    rw [apply_elsewhere shard item apart] at applied
    have kept := others _ apart.symm
    rw [apply_addressed] at kept
    exact ⟨idle_of_map applied.symm,idle_of_map kept⟩
  · intro ⟨atHome,addressed⟩
    refine ⟨?_,fun i _ => ?_⟩
    · rw [apply_elsewhere shard item apart,atHome.map]
    · by_cases here : i = item.localIdx.toNat
      · rw [here,apply_addressed,addressed.map]
      · exact apply_elsewhere shard item here

theorem confined_iff_idle (shard : Shard) (item : QueueItem) (home : UInt16) :
    Confined shard item home ↔
      item.localIdx = home ∨ Idle shard item.msg home ∧ Idle shard item.msg item.localIdx := by
  by_cases same : item.localIdx = home
  · exact ⟨fun _ => Or.inl same,fun _ => same ▸ confined_home shard item⟩
  · rw [confined_elsewhere shard item home same,or_iff_right same]

theorem reduceOrder_location {shard : Shard} {localIdx : UInt16} {k id : UInt64} {qty : UInt32}
    {loc : OrderLocation} (live : (shard.reduceOrder localIdx k qty).orders.lookup id = some loc) :
    ∃ old, shard.orders.lookup id = some old ∧ old.localIdx = loc.localIdx := by
  unfold reduceOrder at live
  cases located : shard.orders.lookup k with
  | none =>
    rw [located] at live
    exact ⟨loc,live,rfl⟩
  | some held =>
    simp only [located,onBook] at live
    split at live
    · rw [lookup_erase_if] at live
      split at live
      · cases live
      · exact ⟨loc,live,rfl⟩
    · rw [lookup_insert_if] at live
      split at live
      next named =>
        cases live
        exact ⟨held,named ▸ located,rfl⟩
      · exact ⟨loc,live,rfl⟩

/-- Only the message that adds an order says which book it is stored with. -/
theorem apply_location {shard : Shard} {item : QueueItem} {id : UInt64} {loc : OrderLocation}
    (live : (shard.apply item).orders.lookup id = some loc) :
    item.msg.adds = some id ∧ item.localIdx = loc.localIdx ∨
      ∃ old, shard.orders.lookup id = some old ∧ old.localIdx = loc.localIdx := by
  obtain ⟨msg,localIdx⟩ := item
  cases msg with
  | zero => exact Or.inr ⟨loc,live,rfl⟩
  | add a =>
    simp only [apply,onBook,lookup_insert_if] at live
    split at live
    next named =>
      cases live
      exact Or.inl ⟨congrArg some named.symm,rfl⟩
    · exact Or.inr ⟨loc,live,rfl⟩
  | exec e => exact Or.inr (reduceOrder_location live)
  | cancel c => exact Or.inr (reduceOrder_location live)
  | del d =>
    simp only [apply] at live
    cases located : shard.orders.lookup d.orderId with
    | none =>
      rw [located] at live
      exact Or.inr ⟨loc,live,rfl⟩
    | some held =>
      simp only [located,onBook,lookup_erase_if] at live
      split at live
      · cases live
      · exact Or.inr ⟨loc,live,rfl⟩
  | replace r =>
    simp only [apply] at live
    cases located : shard.orders.lookup r.oldOrderId with
    | none =>
      rw [located] at live
      exact Or.inr ⟨loc,live,rfl⟩
    | some held =>
      simp only [located,onBook,lookup_insert_if,lookup_erase_if] at live
      split at live
      next named =>
        cases live
        exact Or.inl ⟨congrArg some named.symm,rfl⟩
      · split at live
        · cases live
        · exact Or.inr ⟨loc,live,rfl⟩

theorem foldl_location {start : Shard} (empty : start.orders = ∅) (items : List QueueItem) {id : UInt64}
    {loc : OrderLocation} (live : (items.foldl apply start).orders.lookup id = some loc) :
    ∃ item ∈ items, item.msg.adds = some id ∧ item.localIdx = loc.localIdx := by
  induction items using List.reverseRecOn generalizing loc with
  | nil =>
    rw [List.foldl_nil,empty,Finmap.lookup_empty] at live
    cases live
  | append_singleton done item ih =>
    rw [List.foldl_append,List.foldl_cons,List.foldl_nil] at live
    rcases apply_location live with ⟨adds,here⟩ | ⟨old,before,same⟩
    · exact ⟨item,by simp,adds,here⟩
    · obtain ⟨first,member,adds,there⟩ := ih before
      exact ⟨first,List.mem_append_left _ member,adds,there.trans same⟩

end Shard

namespace Normalizer

/-- A shard whose worker has applied the stream. -/
def shardAfter (nz : Normalizer) (k : Nat) (stream : List WireMsg) : Shard :=
  (stream.map nz.itemOf).foldl Shard.apply (nz.shards k)

theorem Addressed.local_inj {n k : Nat} {nz : Normalizer} (addressed : Addressed n nz) {m x : WireMsg}
    (message : instrumentOf m < numInstruments ∧ nz.shardOf m = k)
    (other : instrumentOf x < numInstruments ∧ nz.shardOf x = k) :
    nz.instrumentToLocal (instrumentOf m) = nz.instrumentToLocal (instrumentOf x) ↔
      instrumentOf m = instrumentOf x := by
  constructor
  · intro sameLocal
    have sameShard : nz.instrumentToShard (instrumentOf m) = nz.instrumentToShard (instrumentOf x) :=
      UInt16.toNat_inj.mp (message.2.trans other.2.symm)
    exact addressed.inj _ _ message.1 other.1 sameShard sameLocal
  · intro same
    rw [same]

/-- After any stream, a message about a live order changes the book of the instrument that
the order was added with, and no other, exactly if it carries that instrument or its calls
would change neither that book nor the one it names. -/
theorem confined_iff (n : Nat) (reference : Nat → Int64) (k : Nat) (stream : List WireMsg) (m : WireMsg)
    (routed : ∀ x ∈ m :: stream, instrumentOf x < numInstruments ∧ (ready n reference).shardOf x = k)
    (loc : OrderLocation) (live : ((ready n reference).shardAfter k stream).orderOf m = some loc) :
    let nz := ready n reference
    let shard := nz.shardAfter k stream
    ∃ adder ∈ stream, adder.adds = m.reduces ∧ nz.instrumentToLocal (instrumentOf adder) = loc.localIdx ∧
      (Shard.Confined shard (nz.itemOf m) loc.localIdx ↔ instrumentOf m = instrumentOf adder ∨
        Shard.Idle shard m loc.localIdx ∧ Shard.Idle shard m (nz.instrumentToLocal (instrumentOf m))) := by
  intro nz shard
  have priced := priced_ready n reference
  obtain ⟨id,reduces,located⟩ := Option.bind_eq_some_iff.mp live
  obtain ⟨item,applied,adds,stored⟩ := Shard.foldl_location (priced.blank k).orders _ located
  obtain ⟨adder,earlier,rfl⟩ := List.mem_map.mp applied
  refine ⟨adder,earlier,adds.trans reduces.symm,stored,?_⟩
  have instrument := priced.addressed.local_inj (routed m (List.mem_cons_self ..))
    (routed adder (List.mem_cons_of_mem _ earlier))
  rw [Shard.confined_iff_idle,← instrument]
  exact or_congr_left (by rw [← stored]; rfl)

section Alone

variable {reference : Nat → Int64} {nz : Normalizer} (priced : Priced 1 numInstruments reference nz)
include priced

theorem shardOf_alone (m : WireMsg) (known : instrumentOf m < numInstruments) : nz.shardOf m = 0 := by
  rw [shardOf,priced.addressed.shard _ known,Nat.mod_one]

theorem local_zero_one : nz.instrumentToLocal 1 ≠ nz.instrumentToLocal 0 := by
  intro same
  have sameShard : nz.instrumentToShard 1 = nz.instrumentToShard 0 := UInt16.toNat_inj.mp (by
    rw [priced.addressed.shard 1 (by decide),priced.addressed.shard 0 (by decide)])
  have := priced.addressed.inj 1 0 (by decide) (by decide) sameShard same
  omega

theorem book_zero : (nz.shards 0).books[(nz.instrumentToLocal 0).toNat]? =
    some (({} : OrderBook).init (reference 0)) := by
  have opened := priced.books 0 (by decide)
  rwa [bookForInstrument,priced.addressed.shard 0 (by decide),if_pos (by decide)] at opened

end Alone

theorem orderOf_added (nz : Normalizer) (k : Nat) (a : AddOrderMsg) (e : ExecuteMsg)
    (same : e.orderId = a.orderId) : (nz.shardAfter k [.add a]).orderOf (.exec e) =
      some ⟨nz.instrumentToLocal a.header.instrumentId.toNat,a.side,a.priceTicks,a.qty⟩ := by
  have inserted : (nz.shardAfter k [.add a]).orders = (nz.shards k).orders.insert a.orderId
    ⟨nz.instrumentToLocal a.header.instrumentId.toNat,a.side,a.priceTicks,a.qty⟩ := rfl
  rw [Shard.orderOf,WireMsg.reduces,Option.bind_some,inserted,same]
  exact Finmap.lookup_insert _

theorem confined_executed :
    Shard.Confined ((ready 1 fun _ => 10000).shardAfter 0 [.add ⟨⟨0,0⟩,1,.buy,10000,5⟩])
      ((ready 1 fun _ => 10000).itemOf (.exec ⟨⟨0,0⟩,1,2⟩)) ((ready 1 fun _ => 10000).instrumentToLocal 0) := by
  have routed : ∀ x ∈ [WireMsg.exec ⟨⟨0,0⟩,1,2⟩,.add ⟨⟨0,0⟩,1,.buy,10000,5⟩],
      instrumentOf x < numInstruments ∧ (ready 1 fun _ => 10000).shardOf x = 0 := by
    intro x member
    have known : instrumentOf x < numInstruments := by
      rcases List.mem_pair.mp member with rfl | rfl <;> decide
    exact ⟨known,shardOf_alone (priced_ready 1 fun _ => 10000) x known⟩
  obtain ⟨adder,member,_,_,exactly⟩ := confined_iff 1 (fun _ => 10000) 0 [.add ⟨⟨0,0⟩,1,.buy,10000,5⟩]
    (.exec ⟨⟨0,0⟩,1,2⟩) routed _ (orderOf_added _ 0 _ _ rfl)
  rw [List.mem_singleton.mp member] at exactly
  exact exactly.mpr (Or.inl rfl)

theorem misdirected_priced {nz : Normalizer} (priced : Priced 1 numInstruments (fun _ => 10000) nz) :
    ¬ Shard.Confined (nz.shardAfter 0 [.add ⟨⟨0,0⟩,1,.buy,10000,5⟩]) (nz.itemOf (.exec ⟨⟨1,0⟩,1,2⟩))
      (nz.instrumentToLocal 0) := by
  intro confined
  rcases (Shard.confined_iff_idle _ _ _).mp confined with same | ⟨atHome,_⟩
  · exact local_zero_one priced same
  · have applied := Shard.apply_addressed (nz.shards 0) (nz.itemOf (.add ⟨⟨0,0⟩,1,.buy,10000,5⟩))
    have here : (nz.itemOf (.add ⟨⟨0,0⟩,1,.buy,10000,5⟩)).localIdx = nz.instrumentToLocal 0 := rfl
    rw [here,book_zero priced] at applied
    have found : (nz.shardAfter 0 [.add ⟨⟨0,0⟩,1,.buy,10000,5⟩]).find 1 = some ⟨.buy,10000,5⟩ :=
      congrArg (Option.map OrderLocation.resting) (orderOf_added nz 0 _ ⟨⟨1,0⟩,1,2⟩ rfl)
    have calls : bookCalls (.exec ⟨⟨1,0⟩,1,2⟩) (nz.shardAfter 0 [.add ⟨⟨0,0⟩,1,.buy,10000,5⟩]).find =
        [.reduce .buy 10000 2] := by
      simp only [bookCalls,found,Option.elim_some]
      rfl
    let resting := (({} : OrderBook).init 10000).call (.add .buy 10000 5)
    have kept : resting.calls [.reduce .buy 10000 2] = resting := calls ▸ atHome resting applied
    exact absurd (congrArg (fun b => b.qtyAt .buy 10000) kept) (by decide +kernel)

/-- Order 1 rests in the book of instrument 0; two lots executed under instrument 1 stay
there as phantom depth. -/
theorem misdirected :
    ((ready 1 fun _ => 10000).shardAfter 0 [.add ⟨⟨0,0⟩,1,.buy,10000,5⟩]).orderOf (.exec ⟨⟨1,0⟩,1,2⟩) =
      some ⟨(ready 1 fun _ => 10000).instrumentToLocal 0,.buy,10000,5⟩ ∧
    (∀ x ∈ [WireMsg.exec ⟨⟨1,0⟩,1,2⟩,.add ⟨⟨0,0⟩,1,.buy,10000,5⟩],
      instrumentOf x < numInstruments ∧ (ready 1 fun _ => 10000).shardOf x = 0) ∧
    ¬ Shard.Confined ((ready 1 fun _ => 10000).shardAfter 0 [.add ⟨⟨0,0⟩,1,.buy,10000,5⟩])
      ((ready 1 fun _ => 10000).itemOf (.exec ⟨⟨1,0⟩,1,2⟩)) ((ready 1 fun _ => 10000).instrumentToLocal 0) := by
  have priced := priced_ready 1 fun _ => 10000
  refine ⟨orderOf_added _ 0 _ _ rfl,fun x member => ?_,misdirected_priced priced⟩
  have known : instrumentOf x < numInstruments := by
    rcases List.mem_pair.mp member with rfl | rfl <;> decide
  exact ⟨known,shardOf_alone priced x known⟩

end Normalizer

end MarketFeed
