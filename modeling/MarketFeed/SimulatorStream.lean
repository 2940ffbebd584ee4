import MarketFeed.SimulatorStep
import MarketFeed.ShardDepth
import MarketFeed.Library.Listing

/-! The generated stream replayed through an order map: the live lists are what the replay
leaves, instrument by instrument. -/
namespace MarketFeed
open FiniteMap

def LiveOrder.entry (lo : LiveOrder) : UInt64 × RestingLoc := (lo.orderId,lo.resting)

namespace MarketSimulator

/-- The live list has exactly the orders of the map, each with a quantity left. -/
structure Shows (live : List LiveOrder) (orders : OrderMap) : Prop where
  lists : Lists (live.map LiveOrder.entry) orders
  positive : ∀ lo ∈ live, lo.qty ≠ 0

namespace Shows
variable {live rest : List LiveOrder} {orders : OrderMap} {lo : LiveOrder}

theorem empty : Shows [] ∅ := ⟨.empty,fun _ member => absurd member List.not_mem_nil⟩

theorem perm (shows : Shows live orders) (same : live.Perm rest) : Shows rest orders :=
  ⟨shows.lists.perm (same.map _),fun lo member => shows.positive lo (same.mem_iff.mpr member)⟩

theorem found (shows : Shows (lo :: rest) orders) : orders.lookup lo.orderId = some lo.resting :=
  shows.lists.found

theorem insert (shows : Shows live orders) (fresh : ∀ other ∈ live, other.orderId ≠ lo.orderId)
    (quantity : lo.qty ≠ 0) : Shows (lo :: live) (orders.insert lo.orderId lo.resting) := by
  refine ⟨shows.lists.insert ?_,?_⟩
  · intro member
    rw [List.map_map] at member
    obtain ⟨other,inside,same⟩ := List.mem_map.mp member
    exact fresh other inside same
  · intro other member
    rcases List.mem_cons.mp member with rfl | inside
    · exact quantity
    · exact shows.positive other inside

theorem erase (shows : Shows (lo :: rest) orders) : Shows rest (orders.erase lo.orderId) :=
  ⟨shows.lists.erase,fun other member => shows.positive other (List.mem_cons_of_mem _ member)⟩

theorem lessen (shows : Shows (lo :: rest) orders) (qty : UInt32) :
    Shows (leftover lo qty ++ rest) (lessen orders lo.orderId lo.resting qty) := by
  unfold leftover MarketFeed.lessen
  change Shows _ (if lo.qty - qty = 0 then _ else _)
  split
  next => exact shows.erase
  next remains =>
    refine ⟨shows.lists.overwrite { lo.resting with qty := lo.qty - qty },?_⟩
    intro other member
    rcases List.mem_cons.mp member with rfl | inside
    · exact remains
    · exact shows.positive other (List.mem_cons_of_mem _ inside)

end Shows

section Emits
variable {next : UInt64} {ref : Int64} {live live' : List LiveOrder} {m : WireMsg}
  (emits : Emits next ref live m live')
include emits

theorem Emits.shows {orders : OrderMap} (shows : Shows live orders) (fresh : ∀ lo ∈ live, lo.orderId ≠ next) :
    Shows live' (trackOrders m orders) := by
  have lessened (lo : LiveOrder) (rest : List LiveOrder) (qty : UInt32) (rests : live.Perm (lo :: rest))
      (enough : qty ≤ lo.qty) (lists : live'.Perm (leftover lo qty ++ rest)) :
      Shows live' ((orders.lookup lo.orderId).elim orders fun loc =>
        MarketFeed.lessen orders lo.orderId loc (min qty loc.qty)) := by
    have here := shows.perm rests
    have whole : min qty lo.resting.qty = qty := if_pos enough
    rw [here.found,Option.elim_some,whole]
    exact (here.lessen qty).perm lists.symm
  cases emits with
  | add header side price qty _ quantity _ lists => exact (shows.insert fresh quantity).perm lists.symm
  | exec header lo rest qty _ rests _ enough lists =>
    exact lessened lo rest qty rests enough lists
  | cancel header lo rest qty _ rests _ enough lists =>
    exact lessened lo rest qty rests enough lists
  | del header lo rest _ rests lists =>
    have here := shows.perm rests
    simp only [trackOrders,here.found,Option.elim_some]
    exact here.erase.perm lists.symm
  | replace header lo rest price qty _ rests quantity _ lists =>
    have here := shows.perm rests
    simp only [trackOrders,here.found,Option.elim_some]
    have gone : ∀ other ∈ rest, other.orderId ≠ (⟨next,lo.side,price,qty⟩ : LiveOrder).orderId :=
      fun other member => fresh other (rests.mem_iff.mpr (List.mem_cons_of_mem _ member))
    exact (here.erase.insert gone quantity).perm lists.symm

theorem Emits.append (others : List LiveOrder) : Emits next ref (live ++ others) m (live' ++ others) := by
  cases emits with
  | add header side price qty _ quantity around lists =>
    exact .add _ _ _ _ _ quantity around (lists.append_right others)
  | exec header lo rest qty _ rests quantity enough lists =>
    refine .exec _ lo (rest ++ others) _ _ (rests.append_right others) quantity enough ?_
    rw [← List.append_assoc]
    exact lists.append_right others
  | cancel header lo rest qty _ rests quantity enough lists =>
    refine .cancel _ lo (rest ++ others) _ _ (rests.append_right others) quantity enough ?_
    rw [← List.append_assoc]
    exact lists.append_right others
  | del header lo rest _ rests lists =>
    exact .del _ lo (rest ++ others) _ (rests.append_right others) (lists.append_right others)
  | replace header lo rest price qty _ rests quantity around lists =>
    exact .replace _ lo (rest ++ others) _ _ _ (rests.append_right others) quantity around
      (lists.append_right others)

theorem Emits.introduced : introduced m = [] ∨ introduced m = [next] := by
  cases emits with
  | add => exact Or.inr rfl
  | exec => exact Or.inl rfl
  | cancel => exact Or.inl rfl
  | del => exact Or.inl rfl
  | replace => exact Or.inr rfl

theorem Emits.ids (lo : LiveOrder) (member : lo ∈ live') :
    lo.orderId ∈ MarketSimulator.introduced m ∨ ∃ old ∈ live, old.orderId = lo.orderId := by
  have lessened (old : LiveOrder) (qty : UInt32) (rest : List LiveOrder) (rests : live.Perm (old :: rest))
      (lists : live'.Perm (leftover old qty ++ rest)) : ∃ old ∈ live, old.orderId = lo.orderId := by
    rcases List.mem_append.mp (lists.mem_iff.mp member) with first | inside
    · unfold leftover at first
      split at first
      · cases first
      · rw [List.mem_singleton.mp first]
        exact ⟨old,rests.mem_iff.mpr (List.mem_cons_self ..),rfl⟩
    · exact ⟨lo,rests.mem_iff.mpr (List.mem_cons_of_mem _ inside),rfl⟩
  cases emits with
  | add header side price qty _ quantity around lists =>
    rcases List.mem_cons.mp (lists.mem_iff.mp member) with rfl | inside
    · exact Or.inl (List.mem_cons_self ..)
    · exact Or.inr ⟨lo,inside,rfl⟩
  | exec header old rest qty _ rests quantity enough lists => exact Or.inr (lessened old qty rest rests lists)
  | cancel header old rest qty _ rests quantity enough lists => exact Or.inr (lessened old qty rest rests lists)
  | del header old rest _ rests lists =>
    exact Or.inr ⟨lo,rests.mem_iff.mpr (List.mem_cons_of_mem _ (lists.mem_iff.mp member)),rfl⟩
  | replace header old rest price qty _ rests quantity around lists =>
    rcases List.mem_cons.mp (lists.mem_iff.mp member) with rfl | inside
    · exact Or.inl (List.mem_cons_self ..)
    · exact Or.inr ⟨lo,rests.mem_iff.mpr (List.mem_cons_of_mem _ inside),rfl⟩

end Emits

/-- The map that `apply_to_book` keeps over the messages of some instruments. -/
def ordersOf (mine : Nat → Bool) (stream : List WireMsg) : OrderMap :=
  (replay ({},∅) (stream.filter fun m => mine (instrumentOf m))).2

theorem ordersOf_concat (mine : Nat → Bool) (stream : List WireMsg) (m : WireMsg) :
    ordersOf mine (stream ++ [m]) =
      if mine (instrumentOf m) then trackOrders m (ordersOf mine stream) else ordersOf mine stream := by
  unfold ordersOf
  rw [List.filter_append]
  split
  next own => rw [List.filter_singleton,own,cond_true,replay_concat,applyToBook_eq]
  next foreign => simp [foreign]

/-- The shard of a normalizer that serves these instruments. -/
def shardFed (mine : Nat → Bool) (table : Nat → UInt16) (stream : List WireMsg) : Shard :=
  (stream.filter fun m => mine (instrumentOf m)).foldl (fun s m => s.apply ⟨m,table (instrumentOf m)⟩) {}

theorem shardFed_find (mine : Nat → Bool) (table : Nat → UInt16) (stream : List WireMsg) (id : UInt64) :
    (shardFed mine table stream).find id = (ordersOf mine stream).lookup id := by
  have agrees : (shardFed mine table stream).AgreesOn Set.univ (ordersOf mine stream) := by
    unfold shardFed ordersOf
    induction stream.filter (fun m => mine (instrumentOf m)) using List.reverseRecOn with
    | nil => exact fun _ _ => rfl
    | append_singleton done m ih =>
      rw [List.foldl_append,replay_concat,applyToBook_eq]
      exact Shard.agrees_apply _ ⟨m,_⟩ _ ih
  exact agrees id trivial

def liveOf (sim : MarketSimulator) (mine : Nat → Bool) : List LiveOrder :=
  ((List.range sim.numInstruments).filter mine).flatMap sim.liveOrders

theorem liveOf_split (sim : MarketSimulator) (mine : Nat → Bool) (i : Nat) (known : i < sim.numInstruments)
    (own : mine i = true) : ∃ others : List Nat, (∀ j ∈ others, mine j = true ∧ j ≠ i) ∧
      ∀ live : Nat → List LiveOrder, (((List.range sim.numInstruments).filter mine).flatMap live).Perm
        (live i ++ others.flatMap live) := by
  have listed : i ∈ (List.range sim.numInstruments).filter mine :=
    List.mem_filter.mpr ⟨List.mem_range.mpr known,own⟩
  have once : ((List.range sim.numInstruments).filter mine).Nodup := List.nodup_range.filter mine
  refine ⟨((List.range sim.numInstruments).filter mine).erase i,?_,?_⟩
  · intro j member
    refine ⟨(List.mem_filter.mp (List.mem_of_mem_erase member)).2,fun same => ?_⟩
    exact once.not_mem_erase (same ▸ member)
  · intro live
    exact (List.perm_cons_erase listed).flatMap_right live

def only (i : Nat) : Nat → Bool := fun j => j = i

theorem liveOf_only (sim : MarketSimulator) (i : Nat) (known : i < sim.numInstruments) :
    (sim.liveOf (only i)).Perm (sim.liveOrders i) := by
  obtain ⟨others,apart,split⟩ := sim.liveOf_split (only i) i known (by simp [only])
  have none_ : others = [] := by
    apply List.eq_nil_iff_forall_not_mem.mpr
    intro j member
    exact (apart j member).2 (by simpa [only] using (apart j member).1)
  simpa [liveOf,none_] using split sim.liveOrders

/-- The references of a message rest and are not exceeded; what it introduces is not empty. -/
def SelfConsistent (orders : OrderMap) : WireMsg → Prop
  | .zero => False
  | .add a => 1 ≤ a.qty.toNat
  | .exec e => ∃ loc, orders.lookup e.orderId = some loc ∧ 1 ≤ e.execQty.toNat ∧ e.execQty.toNat ≤ loc.qty.toNat
  | .cancel c => ∃ loc, orders.lookup c.orderId = some loc ∧ 1 ≤ c.cancelQty.toNat ∧ c.cancelQty.toNat ≤ loc.qty.toNat
  | .del d => ∃ loc, orders.lookup d.orderId = some loc
  | .replace r => 1 ≤ r.qty.toNat ∧ ∃ loc, orders.lookup r.oldOrderId = some loc

theorem Emits.selfConsistent {next : UInt64} {ref : Int64} {live live' : List LiveOrder} {m : WireMsg}
    {orders : OrderMap} (emits : Emits next ref live m live') (shows : Shows live orders) :
    SelfConsistent orders m := by
  have positive (qty : UInt32) (nonzero : qty ≠ 0) : 1 ≤ qty.toNat :=
    Nat.pos_of_ne_zero fun contra => nonzero (UInt32.toNat_inj.mp contra)
  cases emits with
  | add header side price qty _ quantity _ lists => exact positive qty quantity
  | exec header lo rest qty _ rests quantity enough lists =>
    exact ⟨lo.resting,(shows.perm rests).found,positive qty quantity,UInt32.le_iff_toNat_le.mp enough⟩
  | cancel header lo rest qty _ rests quantity enough lists =>
    exact ⟨lo.resting,(shows.perm rests).found,positive qty quantity,UInt32.le_iff_toNat_le.mp enough⟩
  | del header lo rest _ rests lists => exact ⟨lo.resting,(shows.perm rests).found⟩
  | replace header lo rest price qty _ rests quantity _ lists =>
    exact ⟨positive qty quantity,lo.resting,(shows.perm rests).found⟩

/-- Ids are handed out in order, and replaying the stream gives the live orders. -/
structure Accounted (sim : MarketSimulator) (stream : List WireMsg) : Prop where
  ids : stream.flatMap introduced = (List.range' 1 (stream.flatMap introduced).length).map UInt64.ofNat
  nextOrderId : sim.nextOrderId = UInt64.ofNat ((stream.flatMap introduced).length + 1)
  known : ∀ i < sim.numInstruments, ∀ lo ∈ sim.liveOrders i, lo.orderId ∈ stream.flatMap introduced
  shows : ∀ mine, Shows (sim.liveOf mine) (ordersOf mine stream)

theorem introduced_length_le (stream : List WireMsg) :
    (stream.flatMap introduced).length ≤ stream.length := by
  induction stream with
  | nil => exact Nat.le_refl _
  | cons m rest ih =>
    rw [List.flatMap_cons,List.length_append,List.length_cons]
    have one : (introduced m).length ≤ 1 := by cases m <;> simp [introduced]
    omega

section Accounted
variable {sim : MarketSimulator} {stream : List WireMsg} (accounted : Accounted sim stream)
include accounted

theorem Accounted.nodup (few : stream.length < 2^64) : (stream.flatMap introduced).Nodup := by
  have bound := introduced_length_le stream
  rw [accounted.ids]
  refine List.Nodup.map_on ?_ List.nodup_range'
  intro x inX y inY same
  obtain ⟨_,highX⟩ := List.mem_range'_1.mp inX
  obtain ⟨_,highY⟩ := List.mem_range'_1.mp inY
  have same := congrArg UInt64.toNat same
  rwa [UInt64.toNat_ofNat_of_lt' (by change _ < 2^64; omega),
    UInt64.toNat_ofNat_of_lt' (by change _ < 2^64; omega)] at same

theorem Accounted.fresh (few : stream.length + 1 < 2^64) : sim.nextOrderId ∉ stream.flatMap introduced := by
  have bound := introduced_length_le stream
  rw [accounted.ids]
  intro member
  obtain ⟨x,inside,same⟩ := List.mem_map.mp member
  obtain ⟨_,high⟩ := List.mem_range'_1.mp inside
  have same := congrArg UInt64.toNat same
  rw [accounted.nextOrderId,UInt64.toNat_ofNat_of_lt' (by change _ < 2^64; omega),
    UInt64.toNat_ofNat_of_lt' (by change _ < 2^64; omega)] at same
  omega

theorem Accounted.instrument {i : Nat} (inside : i < sim.numInstruments) :
    Shows (sim.liveOrders i) (ordersOf (only i) stream) :=
  (accounted.shows (only i)).perm (sim.liveOf_only i inside)

section Writes
variable {m : WireMsg} {next : MarketSimulator} {i : Nat} {step : Int}
  (inside : i < sim.numInstruments) (writes : Writes (sim.drifted i step) i m next)
include inside writes

omit inside in
theorem Accounted.ids_next : (stream ++ [m]).flatMap introduced =
    (List.range' 1 ((stream ++ [m]).flatMap introduced).length).map UInt64.ofNat := by
  rw [List.flatMap_append,List.flatMap_singleton]
  rcases writes.emits.introduced with none_ | one
  · rw [none_,List.append_nil]
    exact accounted.ids
  · rw [one,List.length_append,List.length_singleton,List.range'_1_concat,List.map_append,← accounted.ids]
    congr 1
    rw [List.map_singleton,Nat.add_comm 1]
    exact congrArg (fun id => [id]) accounted.nextOrderId

omit inside in
theorem Accounted.nextOrderId_next :
    next.nextOrderId = UInt64.ofNat (((stream ++ [m]).flatMap introduced).length + 1) := by
  have before : (sim.drifted i step).nextOrderId = sim.nextOrderId := rfl
  rw [writes.nextOrderId,before,accounted.nextOrderId,List.flatMap_append,List.flatMap_singleton,
    List.length_append,← UInt64.ofNat_add,Nat.add_right_comm]

theorem Accounted.known_next : ∀ j < sim.numInstruments, ∀ lo ∈ next.liveOrders j,
    lo.orderId ∈ (stream ++ [m]).flatMap introduced := by
  intro j bound lo member
  rw [List.flatMap_append,List.flatMap_singleton,List.mem_append]
  rcases eq_or_ne j i with rfl | other
  · rcases writes.emits.ids lo member with new | ⟨old,rested,same⟩
    · exact Or.inr new
    · exact Or.inl (same ▸ accounted.known j inside old rested)
  · rw [writes.others j other] at member
    exact Or.inl (accounted.known j bound lo member)

theorem Accounted.shows_next (here : instrumentOf m = i) (few : stream.length + 1 < 2^64) (mine : Nat → Bool) :
    Shows (next.liveOf mine) (ordersOf mine (stream ++ [m])) := by
  have number : next.numInstruments = sim.numInstruments := writes.numInstruments
  rw [ordersOf_concat,here]
  split
  next own =>
    obtain ⟨rest,apart,split⟩ := sim.liveOf_split mine i inside own
    have same : rest.flatMap next.liveOrders = rest.flatMap sim.liveOrders :=
      List.flatMap_congr fun j member => writes.others j (apart j member).2
    have old := (accounted.shows mine).perm (split sim.liveOrders)
    have new := split next.liveOrders
    rw [same] at new
    unfold liveOf
    rw [number]
    refine ((writes.emits.append _).shows old ?_).perm new.symm
    intro lo member contra
    obtain ⟨j,listed,rested⟩ := List.mem_flatMap.mp ((split sim.liveOrders).mem_iff.mpr member)
    have bound := List.mem_range.mp (List.mem_filter.mp listed).1
    exact accounted.fresh few (contra ▸ accounted.known j bound lo rested)
  next foreign =>
    have same : next.liveOf mine = sim.liveOf mine := by
      unfold liveOf
      rw [number]
      refine List.flatMap_congr fun j member => writes.others j ?_
      intro equal
      exact foreign (equal ▸ (List.mem_filter.mp member).2)
    rw [same]
    exact accounted.shows mine

end Writes

theorem Accounted.step (positive : 1 ≤ sim.numInstruments) (small : sim.numInstruments ≤ 65536)
    (few : stream.length + 1 < 2^64) :
    Accounted sim.nextMessage.2 (stream ++ [sim.nextMessage.1]) ∧
      instrumentOf sim.nextMessage.1 < sim.numInstruments ∧
      sim.nextMessage.2.numInstruments = sim.numInstruments ∧
      SelfConsistent (ordersOf (only (instrumentOf sim.nextMessage.1)) stream) sim.nextMessage.1 := by
  obtain ⟨inside,step,_,writes⟩ := sim.nextMessage_writes positive
    fun i inside => (accounted.instrument inside).positive
  generalize (uniformInt 0 (sim.numInstruments - 1) (sim.rng 0)).toNat = i at inside writes
  have number : sim.nextMessage.2.numInstruments = sim.numInstruments := writes.numInstruments
  have here : instrumentOf sim.nextMessage.1 = i := by
    rw [instrumentOf,writes.header]
    exact UInt16.toNat_ofNat_of_lt' (by change _ < 2^16; omega)
  refine ⟨⟨accounted.ids_next writes,accounted.nextOrderId_next writes,?_,
    accounted.shows_next inside writes here few⟩,by omega,number,?_⟩
  · rw [number]
    exact accounted.known_next inside writes
  · rw [here]
    exact writes.emits.selfConsistent (accounted.instrument inside)

end Accounted

theorem priced_fields (rng : Nat → Draw) (n k : Nat) :
    let sim := (List.range k).foldl priceInstrument { rng := rng, numInstruments := n }
    sim.rng = (fun j => rng (j + k)) ∧ sim.numInstruments = n ∧ sim.liveOrders = (fun _ => []) ∧
      sim.nextOrderId = 1 := by
  induction k with
  | zero => exact ⟨rfl,rfl,rfl,rfl⟩
  | succ k ih =>
    obtain ⟨drawn,number,blank,first⟩ := ih
    intro sim
    have again : sim = priceInstrument ((List.range k).foldl priceInstrument
        { rng := rng, numInstruments := n }) k := by
      simp only [sim]
      rw [List.range_succ,List.foldl_append]
      rfl
    rw [again]
    refine ⟨?_,number,blank,first⟩
    funext j
    simp only [priceInstrument,drawn]
    congr 1
    omega

theorem construct_fields (rng : Nat → Draw) (n : Nat) :
    (construct rng n).rng = (fun j => rng (j + n)) ∧ (construct rng n).numInstruments = n ∧
      (construct rng n).liveOrders = (fun _ => []) ∧ (construct rng n).nextOrderId = 1 :=
  priced_fields rng n n

theorem accounted_construct (rng : Nat → Draw) (n : Nat) : Accounted (construct rng n) [] := by
  obtain ⟨_,_,blank,first⟩ := construct_fields rng n
  refine ⟨rfl,first,?_,?_⟩
  · intro i _ lo member
    rw [blank] at member
    cases member
  · intro mine
    have none_ : (construct rng n).liveOf mine = [] := by simp [liveOf,blank]
    rw [none_]
    exact Shows.empty

theorem accounted_after (rng : Nat → Draw) (n : Nat) (positive : 1 ≤ n) (small : n ≤ 65536) (k : Nat)
    (few : k < 2^64) : Accounted ((construct rng n).after k) ((construct rng n).generated k) ∧
      ((construct rng n).after k).numInstruments = n := by
  induction k with
  | zero => exact ⟨accounted_construct rng n,(construct_fields rng n).2.1⟩
  | succ k ih =>
    obtain ⟨accounted,number⟩ := ih (by omega)
    have length : ((construct rng n).generated k).length = k := by simp [generated]
    obtain ⟨next,_,same,_⟩ := accounted.step (by omega) (by omega) (by omega)
    rw [generated_succ]
    exact ⟨next,same.trans number⟩

theorem message_consistent (rng : Nat → Draw) (n : Nat) (positive : 1 ≤ n) (small : n ≤ 65536) (k : Nat)
    (few : k + 1 < 2^64) : instrumentOf ((construct rng n).message k) < n ∧
      SelfConsistent (ordersOf (only (instrumentOf ((construct rng n).message k))) ((construct rng n).generated k))
        ((construct rng n).message k) := by
  have length : ((construct rng n).generated k).length = k := by simp [generated]
  obtain ⟨accounted,number⟩ := accounted_after rng n positive small k (by omega)
  obtain ⟨_,known,_,consistent⟩ := accounted.step (by omega) (by omega) (by rw [length]; omega)
  rw [number] at known
  exact ⟨known,consistent⟩

/-- The generated stream is self-consistent, for every sequence of draws. -/
theorem generated_consistent (rng : Nat → Draw) (n : Nat) (positive : 1 ≤ n) (small : n ≤ 65536) (calls : Nat)
    (few : calls < 2^64) :
    let sim := construct rng n
    ((sim.generated calls).flatMap introduced).Nodup ∧
    (∀ k < calls, instrumentOf (sim.message k) < n ∧
      SelfConsistent (ordersOf (only (instrumentOf (sim.message k))) (sim.generated k)) (sim.message k)) ∧
    (∀ k ≤ calls, ∀ i < n, Shows ((sim.after k).liveOrders i) (ordersOf (only i) (sim.generated k))) ∧
    ∀ k ≤ calls, ∀ mine table id loc, (shardFed mine table (sim.generated k)).find id = some loc ↔
      ∃ i < n, mine i = true ∧ ∃ lo ∈ (sim.after k).liveOrders i, lo.entry = (id,loc) := by
  intro sim
  have length (k : Nat) : (sim.generated k).length = k := by simp [generated]
  refine ⟨?_,?_,?_,?_⟩
  · exact (accounted_after rng n positive small calls few).1.nodup (by rwa [length])
  · exact fun k before => message_consistent rng n positive small k (by omega)
  · intro k within i inside
    obtain ⟨accounted,number⟩ := accounted_after rng n positive small k (by omega)
    exact accounted.instrument (by omega)
  · intro k within mine table id loc
    obtain ⟨accounted,number⟩ := accounted_after rng n positive small k (by omega)
    rw [shardFed_find,(accounted.shows mine).lists.exact,liveOf,number]
    simp only [List.mem_map,List.mem_flatMap,List.mem_filter,List.mem_range]
    refine ⟨?_,?_⟩
    · rintro ⟨lo,⟨i,⟨inside,own⟩,rests⟩,same⟩
      exact ⟨i,inside,own,lo,rests,same⟩
    · rintro ⟨i,inside,own,lo,rests,same⟩
      exact ⟨lo,⟨i,⟨inside,own⟩,rests⟩,same⟩

theorem generated_consistent_mixed :
    let sim := construct mixed 2
    (sim.message 4 = .exec ⟨⟨0,0⟩,3,11⟩ ∧ sim.message 5 = .del ⟨⟨0,0⟩,3⟩ ∧ sim.message 10 = .cancel ⟨⟨1,0⟩,1,36⟩ ∧
      sim.message 11 = .replace ⟨⟨1,0⟩,5,8,20896,51⟩) ∧
    ((sim.generated 12).flatMap introduced).Nodup ∧
    (∀ k < 12, instrumentOf (sim.message k) < 2 ∧
      SelfConsistent (ordersOf (only (instrumentOf (sim.message k))) (sim.generated k)) (sim.message k)) ∧
    (∀ k ≤ 12, ∀ i < 2, Shows ((sim.after k).liveOrders i) (ordersOf (only i) (sim.generated k))) ∧
    ∀ k ≤ 12, ∀ mine table id loc, (shardFed mine table (sim.generated k)).find id = some loc ↔
      ∃ i < 2, mine i = true ∧ ∃ lo ∈ (sim.after k).liveOrders i, lo.entry = (id,loc) :=
  ⟨by decide +kernel,generated_consistent mixed 2 (by omega) (by omega) 12 (by omega)⟩

/-- The first message of an instrument beyond 16 bits is carried under another number. -/
theorem beyond_diverges (sim : MarketSimulator) (number : sim.numInstruments = 65537)
    (blank : sim.liveOrders = fun _ => []) (drawn : (sim.rng 0).value = 65536 / 65537) :
    ¬Shows ((sim.after 1).liveOrders 0) (ordersOf (only 0) (sim.generated 1)) := by
  change ¬Shows (sim.nextMessage.2.liveOrders 0) (ordersOf (only 0) ([] ++ [sim.nextMessage.1]))
  intro shows
  obtain ⟨_,step,_,writes⟩ := sim.nextMessage_writes (by omega)
    fun i _ lo member => by rw [blank] at member; cases member
  have last : (uniformInt 0 (sim.numInstruments - 1) (sim.rng 0)).toNat = 65536 := by
    rw [number]
    norm_num [uniformInt,drawn]
    rfl
  rw [last] at writes
  obtain ⟨carried,_,_,others,emits,_⟩ := writes
  have here : instrumentOf sim.nextMessage.1 = 0 := by
    rw [instrumentOf,carried]
    rfl
  have quiet : sim.nextMessage.2.liveOrders 0 = [] := (others 0 (by omega)).trans (congrFun blank 0)
  have started : (sim.drifted 65536 step).liveOrders 65536 = [] := congrFun blank 65536
  rw [started] at emits
  rw [ordersOf_concat,here,if_pos (by simp [only]),quiet] at shows
  generalize sim.nextMessage.1 = m at emits shows
  generalize sim.nextMessage.2.liveOrders 65536 = live' at emits
  cases emits with
  | add header side price qty _ quantity _ lists =>
    have listed := shows.lists.absent (k := (sim.drifted 65536 step).nextOrderId) (by simp)
    simp [trackOrders] at listed
  | exec header lo rest qty _ rests => exact absurd rests.symm.eq_nil (List.cons_ne_nil _ _)
  | cancel header lo rest qty _ rests => exact absurd rests.symm.eq_nil (List.cons_ne_nil _ _)
  | del header lo rest _ rests => exact absurd rests.symm.eq_nil (List.cons_ne_nil _ _)
  | replace header lo rest price qty _ rests => exact absurd rests.symm.eq_nil (List.cons_ne_nil _ _)

theorem wide_diverges : ∃ rng : Nat → Draw, ¬∀ k ≤ 1, ∀ i < 65537,
    Shows (((construct rng 65537).after k).liveOrders i)
      (ordersOf (only i) ((construct rng 65537).generated k)) := by
  refine ⟨fun _ => ⟨65536 / 65537,by norm_num,by norm_num⟩,fun always => ?_⟩
  obtain ⟨drawn,number,blank,_⟩ := construct_fields (fun _ => ⟨65536 / 65537,by norm_num,by norm_num⟩) 65537
  exact beyond_diverges _ number blank (by rw [drawn]) (always 1 (by omega) 0 (by omega))

end MarketSimulator
end MarketFeed
