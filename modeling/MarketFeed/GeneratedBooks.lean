import MarketFeed.VenueFeed
import MarketFeed.ShardedReplay

/-! The generated stream replayed instrument by instrument: each book shows the live orders that
the generator keeps for its instrument, as far as the band reaches. -/
namespace MarketFeed
open FiniteMap OrderBook

namespace MarketSimulator

/-- The prices within a band at which orders of a side are live. -/
def livePrices (base : Int64) (live : List LiveOrder) (side : Side) : Set Int :=
  {p | ∃ lo ∈ live, lo.side = side ∧ InBand base lo.priceTicks ∧ lo.priceTicks.toInt = p}

/-- A book that shows these orders: the levels, both touches, and the indices they are read from. -/
structure Images (book : OrderBook) (live : List LiveOrder) : Prop where
  levels : ∀ side (k : Fin kLevels), (book.side side k).toInt = restingAt live side (book.basePrice.toInt + k)
  bid : (book.hasBid = true ∧ IsGreatest (livePrices book.basePrice live .buy) book.bestBidTicks.toInt) ∨
    (book.hasBid = false ∧ livePrices book.basePrice live .buy = ∅)
  ask : (book.hasAsk = true ∧ IsLeast (livePrices book.basePrice live .sell) book.bestAskTicks.toInt) ∨
    (book.hasAsk = false ∧ livePrices book.basePrice live .sell = ∅)
  top : book.TopOfBook

theorem Shows.touchPrices_eq {live : List LiveOrder} {orders : OrderMap} (shows : Shows live orders) (base : Int64)
    (side : Side) : touchPrices base orders.lookup side = livePrices base live side := by
  ext p
  refine ⟨?_,?_⟩
  · rintro ⟨id,loc,found,own,inBand,price⟩
    obtain ⟨lo,member,entry⟩ := List.mem_map.mp ((shows.lists.exact id loc).mp found)
    cases entry
    exact ⟨lo,member,own,inBand,price⟩
  · rintro ⟨lo,member,own,inBand,price⟩
    exact ⟨lo.orderId,lo.resting,(shows.lists.exact _ _).mpr (List.mem_map.mpr ⟨lo,member,rfl⟩),own,inBand,price⟩

theorem Images.of_depth {book : OrderBook} {live : List LiveOrder} {orders : OrderMap} (depth : Depth book orders)
    (shows : Shows live orders) : Images book live := by
  refine ⟨fun side k => ?_,?_,?_,depth.top⟩
  · rw [depth.exact,shows.depthAt_eq]
  · rw [← shows.touchPrices_eq]
    exact bestBid_spec book orders depth
  · rw [← shows.touchPrices_eq]
    exact bestAsk_spec book orders depth

/-! The reference prices: where they start and how far they can drift. -/

theorem priced_refPrice (rng : Nat → Draw) (n k : Nat) (i : Nat) :
    ((List.range k).foldl priceInstrument { rng := rng, numInstruments := n }).refPrice i =
      if i < k then initialPrice (rng i) else 0 := by
  induction k with
  | zero => rfl
  | succ k ih =>
    obtain ⟨drawn,_⟩ := priced_fields rng n k
    rw [List.range_succ,List.foldl_append,List.foldl_cons,List.foldl_nil]
    simp only [priceInstrument,drawn,Nat.zero_add,Function.update_apply,ih]
    split
    next same => simp [same]
    next other =>
      by_cases inside : i < k
      · rw [if_pos inside,if_pos (by omega)]
      · rw [if_neg inside,if_neg (by omega)]

theorem construct_refPrice (rng : Nat → Draw) (n i : Nat) (inside : i < n) :
    (construct rng n).refPrice i = initialPrice (rng i) :=
  (priced_refPrice rng n n i).trans (if_pos inside)

theorem toInt_add_step (price : Int64) (step : Int) (low : -2^62 ≤ price.toInt) (high : price.toInt ≤ 2^62)
    (small : -1000 ≤ step ∧ step ≤ 1000) : (price + Int64.ofInt step).toInt = price.toInt + step := by
  rw [Int64.toInt_add,Int64.toInt_ofInt_of_le (by omega) (by omega)]
  exact Int.bmod_eq_of_le (by omega) (by omega)

/-- Room for the drift of `k` messages and an offset, so that no index into a band is narrowed. -/
def Roomy (k : Nat) : Prop := 3 * k + 200 + kHalf ≤ 2^31

/-- No reference price is further than three ticks a message from where it started. -/
def Drifted (origin : Nat → Int64) (sim : MarketSimulator) (k : Nat) : Prop :=
  ∀ i < sim.numInstruments, |(sim.refPrice i).toInt - (origin i).toInt| ≤ 3 * k

theorem base_toInt (b : OrderBook) (reference : Int64) (low : 0 ≤ reference.toInt) (high : reference.toInt < 2^32) :
    (b.init reference).basePrice.toInt = reference.toInt - kHalf := by
  have half : (Int64.ofNat kHalf).toInt = 8192 := by decide
  have size : (kHalf : Int) = 8192 := rfl
  simp only [init,Int64.toInt_sub,half,size]
  exact Int.bmod_eq_of_le (by omega) (by omega)

section Step
variable {origin : Nat → Int64} {sim next : MarketSimulator} {i k : Nat} {m : WireMsg} {step : Int}
  (priced : ∀ j < sim.numInstruments, 2000 ≤ (origin j).toInt ∧ (origin j).toInt < 40000)
  (roomy : Roomy (k + 1)) (inside : i < sim.numInstruments) (small : -3 ≤ step ∧ step ≤ 3)
  (writes : Writes (sim.drifted i step) i m next) (drifted : Drifted origin sim k)
include priced roomy inside small writes drifted

theorem drifted_step : Drifted origin next (k + 1) := by
  have size : kHalf = 8192 := rfl
  unfold Roomy at roomy
  intro j bound
  rw [writes.numInstruments] at bound
  have before := abs_le.mp (drifted j bound)
  obtain ⟨low,high⟩ := priced j bound
  rw [writes.refPrice]
  rcases eq_or_ne j i with rfl | other
  · rw [drifted_refPrice,toInt_add_step _ _ (by omega) (by omega) (by omega)]
    exact abs_le.mpr ⟨by omega,by omega⟩
  · have same : (sim.drifted i step).refPrice j = sim.refPrice j := Function.update_of_ne other _ _
    rw [same]
    exact abs_le.mpr ⟨by omega,by omega⟩

/-- What a message quotes is near the price its instrument started from. -/
theorem quoted_step (p : Int64) (member : p ∈ quotedPrices m) :
    |p.toInt - (origin i).toInt| ≤ 3 * (k + 1) + 200 := by
  have size : kHalf = 8192 := rfl
  unfold Roomy at roomy
  have before := abs_le.mp (drifted i inside)
  obtain ⟨low,high⟩ := priced i inside
  obtain ⟨lo,_,_,_,off,least,most,rfl⟩ := writes.emits.quoted p member
  have near : -200 ≤ (if lo.side = .buy then -off else off) ∧ (if lo.side = .buy then -off else off) ≤ 200 := by
    split <;> omega
  rw [drifted_refPrice]
  have moved := toInt_add_step (sim.refPrice i) step (by omega) (by omega) (by omega)
  rw [toInt_add_step _ _ (by omega) (by omega) (by omega),moved]
  exact abs_le.mpr ⟨by omega,by omega⟩

end Step

/-- What `apply_to_book` makes of the messages of one instrument. -/
def replayed (reference : Nat → Int64) (stream : List WireMsg) (i : Nat) : OrderBook × OrderMap :=
  replay (({} : OrderBook).init (reference i),∅) (stream.filter fun m => instrumentOf m = i)

theorem replayed_concat (reference : Nat → Int64) (stream : List WireMsg) (m : WireMsg) (i : Nat) :
    replayed reference (stream ++ [m]) i = if instrumentOf m = i then
      ((replayed reference stream i).1.calls (bookCalls m (replayed reference stream i).2.lookup),
        trackOrders m (replayed reference stream i).2) else replayed reference stream i := by
  unfold replayed
  rw [List.filter_append]
  split
  next own =>
    have last : [m].filter (fun m => decide (instrumentOf m = i)) = [m] := by simp [own]
    rw [last,replay_concat,applyToBook_eq]
  next foreign => simp [foreign]

theorem replayed_orders (reference : Nat → Int64) (stream : List WireMsg) (i : Nat) :
    (replayed reference stream i).2 = ordersOf (only i) stream := by
  induction stream using List.reverseRecOn with
  | nil => rfl
  | append_singleton done m ih =>
    rw [replayed_concat,ordersOf_concat,← ih]
    by_cases own : instrumentOf m = i
    · have mine : only i (instrumentOf m) = true := decide_eq_true own
      rw [if_pos own,if_pos mine]
    · have foreign : only i (instrumentOf m) ≠ true := by simpa [only] using own
      rw [if_neg own,if_neg foreign]

/-- The book of one instrument after a stream: its levels are the depth of the orders it tracks. -/
structure Keeps (reference : Nat → Int64) (stream : List WireMsg) (i : Nat) : Prop where
  depth : Depth (replayed reference stream i).1 (replayed reference stream i).2
  base : (replayed reference stream i).1.basePrice = (({} : OrderBook).init (reference i)).basePrice
  sums : ∀ side price, depthAt (replayed reference stream i).2 side price ≤ stream.length * 2^32

theorem keeps_nil (reference : Nat → Int64) (i : Nat) : Keeps reference [] i := by
  refine ⟨depth_init _ _,rfl,fun side price => ?_⟩
  simp [replayed,replay,depthAt,weight_empty]

section Keeps
variable {reference : Nat → Int64} {stream : List WireMsg} {m : WireMsg} {i : Nat}
  (keeps : Keeps reference stream i)
include keeps

theorem Keeps.foreign (other : instrumentOf m ≠ i) : Keeps reference (stream ++ [m]) i := by
  have same : replayed reference (stream ++ [m]) i = replayed reference stream i := by
    rw [replayed_concat,if_neg other]
  obtain ⟨depth,base,sums⟩ := keeps
  refine ⟨by rwa [same],by rwa [same],fun side price => ?_⟩
  rw [same,List.length_append,List.length_singleton]
  exact (sums side price).trans (Nat.mul_le_mul_right _ (Nat.le_succ _))

theorem Keeps.own (mine : instrumentOf m = i) (short : stream.length + 1 < 2^31)
    (admissible : Admissible (replayed reference stream i).1.basePrice (replayed reference stream i).2.lookup m) :
    Keeps reference (stream ++ [m]) i := by
  obtain ⟨depth,base,sums⟩ := keeps
  have applied := (replayed_concat reference stream m i).trans (if_pos mine)
  have grown (side : Side) (price : Int) : depthAt (trackOrders m (replayed reference stream i).2) side price ≤
      (stream.length + 1) * 2^32 := by
    have added := depthAt_track m (replayed reference stream i).2 side price
    have before := sums side price
    omega
  obtain ⟨_,kept⟩ := depth_step _ _ depth m admissible fun side k => Nat.lt_of_le_of_lt (grown side _) (by omega)
  refine ⟨?_,?_,fun side price => ?_⟩
  · rw [applied]
    exact kept
  · rw [applied,calls_basePrice]
    exact base
  · rw [applied,List.length_append,List.length_singleton]
    exact grown side price

end Keeps

section Generated
variable (rng : Nat → Draw) (n : Nat) (positive : 1 ≤ n) (small : n ≤ 65536)
include positive small

/-- The books may be centred anywhere, as long as no price of the stream is out of reach of an index. -/
def Centred (reference : Nat → Int64) (k i : Nat) : Prop :=
  0 ≤ (reference i).toInt ∧
    |(reference i).toInt - ((construct rng n).refPrice i).toInt| + (3 * k + 200 + kHalf) ≤ 2^31

theorem generated_centred (reference : Nat → Int64) (k : Nat) (centred : ∀ i < n, Centred rng n reference k i) :
    Drifted (construct rng n).refPrice ((construct rng n).after k) k ∧
      ∀ i < n, Keeps reference ((construct rng n).generated k) i := by
  have size : kHalf = 8192 := rfl
  have number := (construct_fields rng n).2.1
  have priced (j : Nat) (inside : j < n) : 2000 ≤ ((construct rng n).refPrice j).toInt ∧
      ((construct rng n).refPrice j).toInt < 40000 := by
    rw [construct_refPrice rng n j inside]
    exact VenueFeed.initialPrice_range (rng j)
  induction k with
  | zero => exact ⟨fun i _ => by simp [after],fun i _ => keeps_nil _ i⟩
  | succ k ih =>
    have roomy : Roomy (k + 1) := by
      obtain ⟨_,apart⟩ := centred 0 (by omega)
      have apart_nonneg := abs_nonneg ((reference 0).toInt - ((construct rng n).refPrice 0).toInt)
      unfold Roomy
      omega
    have bound : 3 * (k + 1) + 200 + kHalf ≤ 2^31 := roomy
    obtain ⟨drifted,keeps⟩ := ih fun i inside => ⟨(centred i inside).1,by have apart := (centred i inside).2; omega⟩
    obtain ⟨accounted,same⟩ := accounted_after rng n positive small k (by omega)
    have length : ((construct rng n).generated k).length = k := by simp [generated]
    obtain ⟨known,step,near,writes⟩ := ((construct rng n).after k).nextMessage_writes (by omega)
      fun i inside => (accounted.instrument inside).positive
    generalize (uniformInt 0 (((construct rng n).after k).numInstruments - 1)
      (((construct rng n).after k).rng 0)).toNat = own at known writes
    have priced' : ∀ j < ((construct rng n).after k).numInstruments, 2000 ≤ ((construct rng n).refPrice j).toInt ∧
        ((construct rng n).refPrice j).toInt < 40000 := fun j inside => priced j (by omega)
    refine ⟨drifted_step priced' roomy known near writes drifted,fun i inside => ?_⟩
    have here : instrumentOf ((construct rng n).message k) = own := by
      rw [message,instrumentOf,writes.header]
      exact UInt16.toNat_ofNat_of_lt' (by change _ < 2^16; omega)
    rw [generated_succ]
    rcases eq_or_ne own i with rfl | other
    · refine (keeps own inside).own here (by omega) ?_
      rw [replayed_orders]
      refine writes.emits.admissible (accounted.instrument known) ?_ ?_
      · intro lo member equal
        exact accounted.fresh (by omega) (equal ▸ accounted.known own known lo member)
      · intro p member
        have quoted := abs_le.mp (quoted_step priced' roomy known near writes drifted p member)
        obtain ⟨low,high⟩ := priced own inside
        obtain ⟨nonneg,apart⟩ := centred own inside
        have between := abs_le.mp (le_refl |(reference own).toInt - ((construct rng n).refPrice own).toInt|)
        rw [(keeps own inside).base]
        have based := base_toInt {} (reference own) (by omega) (by omega)
        exact ⟨by omega,by omega⟩
    · exact (keeps i inside).foreign (by rwa [here])

omit positive small in
theorem centred_own (k : Nat) (roomy : Roomy k) (i : Nat) (inside : i < n) :
    Centred rng n (construct rng n).refPrice k i := by
  obtain ⟨low,_⟩ := VenueFeed.initialPrice_range (rng i)
  rw [← construct_refPrice rng n i inside] at low
  have bound : 3 * k + 200 + kHalf ≤ 2^31 := roomy
  exact ⟨by omega,by rw [sub_self,abs_zero]; omega⟩

theorem generated_keeps (k : Nat) (roomy : Roomy k) :
    Drifted (construct rng n).refPrice ((construct rng n).after k) k ∧
      ∀ i < n, Keeps (construct rng n).refPrice ((construct rng n).generated k) i :=
  generated_centred rng n positive small _ k (centred_own rng n k roomy)

/-- The book of every instrument shows the orders that the generator keeps live for it. -/
theorem generated_images (k : Nat) (roomy : Roomy k) (i : Nat) (inside : i < n) :
    Images (replayed (construct rng n).refPrice ((construct rng n).generated k) i).1
      (((construct rng n).after k).liveOrders i) := by
  obtain ⟨accounted,same⟩ := accounted_after rng n positive small k (by unfold Roomy at roomy; omega)
  refine .of_depth ((generated_keeps rng n positive small k roomy).2 i inside).depth ?_
  rw [replayed_orders]
  exact accounted.instrument (by omega)

end Generated

/-! Whose an order id is: every id of the stream belongs to the one instrument that introduced it. -/

theorem Emits.named {next : UInt64} {ref : Int64} {live live' : List LiveOrder} {m : WireMsg}
    (emits : Emits next ref live m live') (id : UInt64) (carried : id ∈ m.orderIds) :
    id ∈ MarketSimulator.introduced m ∨ ∃ lo ∈ live, lo.orderId = id := by
  have rested (lo : LiveOrder) (rest : List LiveOrder) (rests : live.Perm (lo :: rest)) :
      ∃ old ∈ live, old.orderId = lo.orderId := ⟨lo,rests.mem_iff.mpr (List.mem_cons_self ..),rfl⟩
  cases emits with
  | add => exact Or.inl carried
  | exec header lo rest _ _ rests | cancel header lo rest _ _ rests | del header lo rest _ rests =>
    rw [List.mem_singleton.mp carried]
    exact Or.inr (rested lo rest rests)
  | replace header lo rest _ _ _ rests =>
    rcases List.mem_cons.mp carried with rfl | new
    · exact Or.inr (rested lo rest rests)
    · exact Or.inl new

def Introduces (stream : List WireMsg) (i : Nat) (id : UInt64) : Prop :=
  ∃ a ∈ stream, instrumentOf a = i ∧ id ∈ introduced a

theorem Introduces.append {stream : List WireMsg} {i : Nat} {id : UInt64} (known : Introduces stream i id)
    (m : WireMsg) : Introduces (stream ++ [m]) i id := by
  obtain ⟨a,member,own,new⟩ := known
  exact ⟨a,List.mem_append_left _ member,own,new⟩

/-- Live orders and messages alike carry ids that their own instrument introduced. -/
structure Traced (sim : MarketSimulator) (stream : List WireMsg) : Prop where
  live : ∀ i < sim.numInstruments, ∀ lo ∈ sim.liveOrders i, Introduces stream i lo.orderId
  carried : ∀ m ∈ stream, ∀ id ∈ m.orderIds, Introduces stream (instrumentOf m) id

theorem traced_step {sim next : MarketSimulator} {stream : List WireMsg} {m : WireMsg} {i : Nat} {step : Int}
    (traced : Traced sim stream) (inside : i < sim.numInstruments) (here : instrumentOf m = i)
    (writes : Writes (sim.drifted i step) i m next) : Traced next (stream ++ [m]) := by
  have number : next.numInstruments = sim.numInstruments := writes.numInstruments
  have last (id : UInt64) (new : id ∈ introduced m) : Introduces (stream ++ [m]) i id :=
    ⟨m,List.mem_append_right _ (List.mem_singleton_self m),here,new⟩
  refine ⟨fun j bound lo member => ?_,fun other member id named => ?_⟩
  · rw [number] at bound
    rcases eq_or_ne j i with rfl | other
    · rcases writes.emits.ids lo member with new | ⟨old,rested,same⟩
      · exact last lo.orderId new
      · exact same ▸ (traced.live j inside old rested).append m
    · rw [writes.others j other] at member
      exact (traced.live j bound lo member).append m
  · rcases List.mem_append.mp member with before | now
    · exact (traced.carried other before id named).append m
    · obtain rfl := List.mem_singleton.mp now
      rw [here]
      rcases writes.emits.named id named with new | ⟨lo,rested,rfl⟩
      · exact last id new
      · exact (traced.live i inside lo rested).append other

theorem generated_traced (rng : Nat → Draw) (n : Nat) (positive : 1 ≤ n) (small : n ≤ 65536) (k : Nat)
    (few : k < 2^64) : Traced ((construct rng n).after k) ((construct rng n).generated k) := by
  induction k with
  | zero =>
    refine ⟨fun i _ lo member => ?_,fun m member => absurd member List.not_mem_nil⟩
    rw [after,(construct_fields rng n).2.2.1] at member
    cases member
  | succ k ih =>
    obtain ⟨accounted,same⟩ := accounted_after rng n positive small k (by omega)
    obtain ⟨known,step,_,writes⟩ := ((construct rng n).after k).nextMessage_writes (by omega)
      fun i inside => (accounted.instrument inside).positive
    rw [generated_succ]
    refine traced_step (ih (by omega)) known ?_ writes
    rw [message,instrumentOf,writes.header]
    exact UInt16.toNat_ofNat_of_lt' (by change _ < 2^16; omega)

theorem generated_owned (rng : Nat → Draw) (n : Nat) (positive : 1 ≤ n) (small : n ≤ 65536) (k : Nat)
    (few : k < 2^64) : Replay.OneInstrument ((construct rng n).generated k) := by
  have length : ((construct rng n).generated k).length = k := by simp [generated]
  have distinct := (accounted_after rng n positive small k few).1.nodup (by rwa [length])
  have apart := (List.nodup_flatMap.mp distinct).2
  have traced := generated_traced rng n positive small k few
  intro m member other member' id carried carried'
  obtain ⟨a,inside,own,new⟩ := traced.carried m member id carried
  obtain ⟨b,inside',own',new'⟩ := traced.carried other member' id carried'
  have same : a = b := by
    by_contra differ
    have symmetric : Std.Symm (Function.onFun List.Disjoint introduced) := ⟨fun _ _ => List.Disjoint.symm⟩
    exact apart.forall inside inside' differ new new'
  rw [← own,← own',same]

theorem generated_known (rng : Nat → Draw) (n : Nat) (positive : 1 ≤ n) (small : n ≤ 65536) (k : Nat)
    (few : k < 2^64) : ∀ m ∈ (construct rng n).generated k, instrumentOf m < n ∧ m ≠ .zero := by
  intro m member
  obtain ⟨j,before,rfl⟩ := List.mem_map.mp member
  obtain ⟨known,consistent⟩ := message_consistent rng n positive small j (by
    rw [List.mem_range] at before
    omega)
  refine ⟨known,fun zero => ?_⟩
  rw [zero] at consistent
  exact consistent

end MarketSimulator
end MarketFeed
