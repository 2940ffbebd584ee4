import MarketFeed.SimulatorStream

/-! One simulated venue: a generator of its own replayed into a book initialised at a
reference price that the generator is never told. -/
namespace MarketFeed
open FiniteMap OrderBook MarketSimulator

def quotedPrices : WireMsg → List Int64
  | .add a => [a.priceTicks]
  | .replace r => [r.priceTicks]
  | _ => []

/-- `VenueFeed::Loc` is `RestingLoc` field by field. -/
structure VenueFeed where
  venueId : Int
  sim : MarketSimulator
  book : OrderBook
  orders : OrderMap := ∅

namespace VenueFeed

def construct (venueId : Int) (rng : Nat → Draw) (referencePriceTicks : Int64) : VenueFeed :=
  { venueId := venueId, sim := .construct rng 1, book := ({} : OrderBook).init referencePriceTicks }

/-- The switch is the one of `apply_to_book`, case by case. -/
def apply (v : VenueFeed) (m : WireMsg) : VenueFeed :=
  let (book,orders) := applyToBook m v.book v.orders
  { v with book := book, orders := orders }

def step (v : VenueFeed) : WireMsg × VenueFeed :=
  let (m,sim) := v.sim.nextMessage
  (m,apply { v with sim := sim } m)

def after (v : VenueFeed) : Nat → VenueFeed
  | 0 => v
  | k + 1 => (v.after k).step.2

end VenueFeed

namespace OrderBook

/-- The quantity of a side at a price, 0 where the band has no level. -/
def levelAt (b : OrderBook) (side : Side) (price : Int) : Int :=
  (readAt (b.side side) (price - b.basePrice.toInt)).toInt

theorem call_dropped (b : OrderBook) (c : Call) (inBand : InBand b.basePrice (priceOf c)) :
    (b.call c).dropped = b.dropped := by
  have located : b.level (priceOf c) ≠ none := fun contra =>
    (level_none_near b _ inBand.near).mp contra inBand
  obtain ⟨k,here⟩ := Option.ne_none_iff_exists'.mp located
  cases c with
  | add side p qty =>
    have here : b.level p = some k := here
    simp only [call,add,here]
    cases side <;> rfl
  | reduce side p qty =>
    have here : b.level p = some k := here
    simp only [call,reduce,here]
    cases side <;> rfl

theorem calls_dropped (b : OrderBook) (cs : List Call) (inBand : ∀ c ∈ cs, InBand b.basePrice (priceOf c)) :
    (b.calls cs).dropped = b.dropped := by
  induction cs generalizing b with
  | nil => rfl
  | cons c cs ih =>
    rw [calls_cons,ih,call_dropped b c (inBand c (List.mem_cons_self ..))]
    intro other member
    rw [call_basePrice]
    exact inBand other (List.mem_cons_of_mem _ member)

end OrderBook

theorem bookCalls_price (m : WireMsg) (find : UInt64 → Option RestingLoc) (c : Call) (member : c ∈ bookCalls m find) :
    priceOf c ∈ quotedPrices m ∨ ∃ id loc, find id = some loc ∧ loc.priceTicks = priceOf c := by
  have reduced (id : UInt64) (rq : RestingLoc → UInt32)
      (member : c ∈ (find id).elim [] fun loc => [.reduce loc.side loc.priceTicks (rq loc)]) :
      ∃ id loc, find id = some loc ∧ loc.priceTicks = priceOf c := by
    cases found : find id with
    | none => simp [found] at member
    | some loc =>
      simp only [found,Option.elim_some,List.mem_singleton] at member
      exact ⟨id,loc,found,by rw [member]; rfl⟩
  cases m with
  | zero => cases member
  | add a =>
    rw [List.mem_singleton.mp member]
    exact Or.inl (List.mem_cons_self ..)
  | exec e => exact Or.inr (reduced e.orderId (fun loc => min e.execQty loc.qty) member)
  | cancel e => exact Or.inr (reduced e.orderId (fun loc => min e.cancelQty loc.qty) member)
  | del d => exact Or.inr (reduced d.orderId RestingLoc.qty member)
  | replace r =>
    simp only [bookCalls] at member
    cases found : find r.oldOrderId with
    | none => simp [found] at member
    | some loc =>
      simp only [found,Option.elim_some,List.mem_cons,List.not_mem_nil,or_false] at member
      rcases member with rfl | rfl
      · exact Or.inr ⟨_,loc,found,rfl⟩
      · exact Or.inl (List.mem_cons_self ..)

theorem trackOrders_price (m : WireMsg) (orders : OrderMap) (id : UInt64) (loc : RestingLoc)
    (held : (trackOrders m orders).lookup id = some loc) :
    loc.priceTicks ∈ quotedPrices m ∨ ∃ id old, orders.lookup id = some old ∧ old.priceTicks = loc.priceTicks := by
  have erased (k : UInt64) (held : (orders.erase k).lookup id = some loc) : orders.lookup id = some loc := by
    rw [lookup_erase_if] at held
    split at held
    · cases held
    · exact held
  have lessened (k : UInt64) (rq : RestingLoc → UInt32)
      (held : ((orders.lookup k).elim orders fun old => lessen orders k old (rq old)).lookup id = some loc) :
      ∃ id old, orders.lookup id = some old ∧ old.priceTicks = loc.priceTicks := by
    cases found : orders.lookup k with
    | none =>
      rw [found] at held
      exact ⟨id,loc,held,rfl⟩
    | some old =>
      rw [found] at held
      rcases lessen_lookup orders k old _ id loc held with ⟨_,_,rfl⟩ | ⟨_,kept⟩
      · exact ⟨k,old,found,rfl⟩
      · exact ⟨id,loc,kept,rfl⟩
  cases m with
  | zero => exact Or.inr ⟨id,loc,held,rfl⟩
  | add a =>
    simp only [trackOrders,lookup_insert_if] at held
    split at held
    · rw [← Option.some.inj held]
      exact Or.inl (List.mem_cons_self ..)
    · exact Or.inr ⟨id,loc,held,rfl⟩
  | exec e => exact Or.inr (lessened e.orderId (fun old => min e.execQty old.qty) held)
  | cancel e => exact Or.inr (lessened e.orderId (fun old => min e.cancelQty old.qty) held)
  | del d =>
    simp only [trackOrders] at held
    cases found : orders.lookup d.orderId with
    | none => exact Or.inr ⟨id,loc,by simpa [found] using held,rfl⟩
    | some old => exact Or.inr ⟨id,loc,erased d.orderId (by simpa [found] using held),rfl⟩
  | replace r =>
    simp only [trackOrders] at held
    cases found : orders.lookup r.oldOrderId with
    | none => exact Or.inr ⟨id,loc,by simpa [found] using held,rfl⟩
    | some old =>
      simp only [found,Option.elim_some,lookup_insert_if] at held
      split at held
      · rw [← Option.some.inj held]
        exact Or.inl (List.mem_cons_self ..)
      · exact Or.inr ⟨id,loc,erased r.oldOrderId held,rfl⟩

namespace MarketSimulator

section Emits
variable {next : UInt64} {ref : Int64} {live live' : List LiveOrder} {m : WireMsg}
  (emits : Emits next ref live m live')
include emits

theorem Emits.admissible {orders : OrderMap} {base : Int64} (shows : Shows live orders)
    (fresh : ∀ lo ∈ live, lo.orderId ≠ next) (near : ∀ p ∈ quotedPrices m, Near base p) :
    Admissible base orders.lookup m := by
  have absent : orders.lookup next = none := by
    refine shows.lists.absent ?_
    rw [List.map_map]
    intro member
    obtain ⟨lo,inside,same⟩ := List.mem_map.mp member
    exact fresh lo inside same
  cases emits with
  | add header side price qty _ quantity _ lists => exact ⟨quantity,absent,near price (List.mem_cons_self ..)⟩
  | exec => trivial
  | cancel => trivial
  | del => trivial
  | replace header lo rest price qty _ rests quantity _ lists =>
    exact ⟨quantity,Or.inl absent,near price (List.mem_cons_self ..)⟩

theorem Emits.quoted (p : Int64) (member : p ∈ quotedPrices m) :
    ∃ lo ∈ live', lo.priceTicks = p ∧ lo.qty ≠ 0 ∧ Around ref lo.side p := by
  cases emits with
  | add header side price qty _ quantity around lists =>
    rw [List.mem_singleton.mp member]
    exact ⟨_,lists.mem_iff.mpr (List.mem_cons_self ..),rfl,quantity,around⟩
  | exec => cases member
  | cancel => cases member
  | del => cases member
  | replace header lo rest price qty _ rests quantity around lists =>
    rw [List.mem_singleton.mp member]
    exact ⟨_,lists.mem_iff.mpr (List.mem_cons_self ..),rfl,quantity,around⟩

end Emits

def restingAt (live : List LiveOrder) (side : Side) (price : Int) : Nat :=
  (live.map fun lo => restsAt side price lo.resting).sum

theorem Shows.depthAt_eq {live : List LiveOrder} {orders : OrderMap} (shows : Shows live orders) (side : Side)
    (price : Int) : depthAt orders side price = restingAt live side price := by
  rw [depthAt,shows.lists.weight_sum,List.map_map]
  rfl

end MarketSimulator

namespace VenueFeed

/-- The book is the exact image of the generator's live orders and nothing was dropped. -/
structure Reproduces (v : VenueFeed) : Prop where
  dropped : v.book.dropped = 0
  levels : ∀ side price, levelAt v.book side price = restingAt (v.sim.liveOrders 0) side price
  quoted : v.sim.liveOrders 0 ≠ [] → v.book.hasBid = true ∨ v.book.hasAsk = true

theorem step_book (v : VenueFeed) : v.step.2.book = v.book.calls (bookCalls v.step.1 v.orders.lookup) := by
  simp [step,apply,applyToBook_eq]

theorem step_orders (v : VenueFeed) : v.step.2.orders = trackOrders v.step.1 v.orders := by
  simp [step,apply,applyToBook_eq]

structure Follows (v : VenueFeed) (stream : List WireMsg) : Prop where
  accounted : Accounted v.sim stream
  single : v.sim.numInstruments = 1
  orders : v.orders = ordersOf (only 0) stream

section Step
variable {v : VenueFeed} {stream : List WireMsg} (follows : Follows v stream)
include follows

theorem Follows.shows : Shows (v.sim.liveOrders 0) v.orders := by
  rw [follows.orders]
  exact follows.accounted.instrument (by rw [follows.single]; exact Nat.one_pos)

theorem Follows.step (few : stream.length + 1 < 2^64) : Follows v.step.2 (stream ++ [v.step.1]) := by
  obtain ⟨next,known,same,_⟩ := follows.accounted.step (by rw [follows.single]) (by rw [follows.single]; omega) few
  rw [follows.single] at known
  have here : instrumentOf v.step.1 = 0 := Nat.lt_one_iff.mp known
  refine ⟨next,same.trans follows.single,?_⟩
  rw [step_orders,ordersOf_concat,here,follows.orders]
  rfl

theorem Follows.writes : ∃ step : Int, (-3 ≤ step ∧ step ≤ 3) ∧
    Writes (v.sim.drifted 0 step) 0 v.step.1 v.step.2.sim := by
  obtain ⟨inside,step,small,writes⟩ := v.sim.nextMessage_writes (by rw [follows.single])
    fun i inside => (follows.accounted.instrument inside).positive
  generalize (uniformInt 0 (v.sim.numInstruments - 1) (v.sim.rng 0)).toNat = i at inside writes
  obtain rfl : i = 0 := by
    rw [follows.single] at inside
    exact Nat.lt_one_iff.mp inside
  exact ⟨step,small,writes⟩

theorem Follows.fresh (few : stream.length + 1 < 2^64) :
    ∀ lo ∈ v.sim.liveOrders 0, lo.orderId ≠ v.sim.nextOrderId := by
  intro lo member same
  have known := follows.accounted.known 0 (by rw [follows.single]; exact Nat.one_pos) lo member
  exact follows.accounted.fresh few (same ▸ known)

end Step

structure InStep (v : VenueFeed) (base : Int64) (count : Nat) : Prop where
  depth : Depth v.book v.orders
  base_eq : v.book.basePrice = base
  banded : ∀ id loc, v.orders.lookup id = some loc → InBand base loc.priceTicks
  dropped : v.book.dropped = 0
  sums : ∀ side price, depthAt v.orders side price ≤ count * 2^32

theorem InStep.step {v : VenueFeed} {stream : List WireMsg} {base : Int64} {count : Nat}
    (inStep : InStep v base count) (follows : Follows v stream) (few : stream.length + 1 < 2^64)
    (short : count + 1 < 2^31) (inBand : ∀ p ∈ quotedPrices v.step.1, InBand base p) :
    InStep v.step.2 base (count + 1) := by
  obtain ⟨moved,_,writes⟩ := follows.writes
  have admissible := writes.emits.admissible follows.shows (follows.fresh few)
    fun p member => (inBand p member).near
  have sums (side : Side) (price : Int) :
      depthAt (trackOrders v.step.1 v.orders) side price ≤ (count + 1) * 2^32 := by
    have grown := depthAt_track v.step.1 v.orders side price
    have before := inStep.sums side price
    omega
  obtain ⟨_,depth⟩ := depth_step v.book v.orders inStep.depth v.step.1 (by rwa [inStep.base_eq])
    fun side k => Nat.lt_of_le_of_lt (sums side _) (by omega)
  refine ⟨?_,?_,?_,?_,?_⟩
  · rw [step_book,step_orders]
    exact depth
  · rw [step_book,calls_basePrice,inStep.base_eq]
  · intro id loc held
    rw [step_orders] at held
    rcases trackOrders_price _ _ id loc held with new | ⟨k,old,found,same⟩
    · exact inBand _ new
    · exact same ▸ inStep.banded k old found
  · rw [step_book,calls_dropped,inStep.dropped]
    intro c member
    rw [inStep.base_eq]
    rcases bookCalls_price _ _ c member with new | ⟨k,old,found,same⟩
    · exact inBand _ new
    · exact same ▸ inStep.banded k old found
  · rw [step_orders]
    exact sums

theorem levelAt_inBand (b : OrderBook) (side : Side) (k : Fin kLevels) :
    levelAt b side (b.basePrice.toInt + k) = (b.side side k).toInt := by
  have bound : (k : Int) < kLevels := by exact_mod_cast k.isLt
  have index : b.basePrice.toInt + k - b.basePrice.toInt = (k : Int) := by omega
  rw [levelAt,index,readAt_coe]

theorem levelAt_outside (b : OrderBook) (side : Side) (price : Int)
    (outside : ¬(0 ≤ price - b.basePrice.toInt ∧ price - b.basePrice.toInt < kLevels)) : levelAt b side price = 0 := by
  rw [levelAt,readAt,dif_neg outside]
  rfl

/-- The accessor reads the same level as long as narrowing the index cannot alias one. -/
theorem qtyAt_near (b : OrderBook) (side : Side) (p : Int64) (near : Near b.basePrice p) :
    (b.qtyAt side p).toInt = levelAt b side p.toInt := by
  unfold qtyAt
  cases located : b.level p with
  | none =>
    have outside := (level_none_near b p near).mp located
    exact (levelAt_outside b side p.toInt fun contra => outside ⟨by omega,by omega⟩).symm
  | some k =>
    rw [(level_near b p near k).mp located,levelAt_inBand]

theorem Reproduces.qtyAt {v : VenueFeed} (reproduces : Reproduces v) (side : Side) (p : Int64)
    (near : Near v.book.basePrice p) : (v.book.qtyAt side p).toInt = restingAt (v.sim.liveOrders 0) side p.toInt :=
  (qtyAt_near v.book side p near).trans (reproduces.levels side p.toInt)

section InStep
variable {v : VenueFeed} {stream : List WireMsg} {base : Int64} {count : Nat}
  (inStep : InStep v base count) (follows : Follows v stream)
include inStep follows

theorem InStep.live (lo : LiveOrder) (member : lo ∈ v.sim.liveOrders 0) :
    v.orders.lookup lo.orderId = some lo.resting ∧ InBand v.book.basePrice lo.priceTicks := by
  have tracked : v.orders.lookup lo.orderId = some lo.resting :=
    (follows.shows.lists.exact _ _).mpr (List.mem_map.mpr ⟨lo,member,rfl⟩)
  rw [inStep.base_eq]
  exact ⟨tracked,inStep.banded _ _ tracked⟩

theorem InStep.levels (side : Side) (price : Int) :
    levelAt v.book side price = restingAt (v.sim.liveOrders 0) side price := by
  by_cases inside : 0 ≤ price - v.book.basePrice.toInt ∧ price - v.book.basePrice.toInt < kLevels
  · have here : price = v.book.basePrice.toInt +
        ((⟨(price - v.book.basePrice.toInt).toNat,by omega⟩ : Fin kLevels) : Nat) := by
      simp only
      omega
    rw [here,levelAt_inBand,inStep.depth.exact,follows.shows.depthAt_eq]
  · have nothing : restingAt (v.sim.liveOrders 0) side price = 0 := by
      refine List.sum_eq_zero fun x member => ?_
      obtain ⟨lo,live,rfl⟩ := List.mem_map.mp member
      obtain ⟨low,high⟩ := (inStep.live follows lo live).2
      refine if_neg fun contra => inside ?_
      have same : lo.priceTicks.toInt = price := contra.2
      omega
    rw [levelAt_outside _ _ _ inside,nothing]
    rfl

theorem InStep.quoted (some_ : v.sim.liveOrders 0 ≠ []) : v.book.hasBid = true ∨ v.book.hasAsk = true := by
  obtain ⟨lo,live⟩ := List.exists_mem_of_ne_nil _ some_
  obtain ⟨tracked,banded⟩ := inStep.live follows lo live
  have touched : lo.priceTicks.toInt ∈ touchPrices v.book.basePrice v.orders.lookup lo.side :=
    ⟨lo.orderId,lo.resting,tracked,rfl,banded,rfl⟩
  cases own : lo.side with
  | buy =>
    rw [own] at touched
    rcases bestBid_spec v.book v.orders inStep.depth with ⟨has,_⟩ | ⟨_,none_⟩
    · exact Or.inl has
    · rw [none_] at touched
      cases touched
  | sell =>
    rw [own] at touched
    rcases bestAsk_spec v.book v.orders inStep.depth with ⟨has,_⟩ | ⟨_,none_⟩
    · exact Or.inr has
    · rw [none_] at touched
      cases touched

theorem InStep.reproduces : Reproduces v :=
  ⟨inStep.dropped,inStep.levels follows,inStep.quoted follows⟩

end InStep

theorem Reproduces.inBand {v : VenueFeed} {stream : List WireMsg} (follows : Follows v stream)
    (reproduces : Reproduces v.step.2) (p : Int64) (member : p ∈ quotedPrices v.step.1) :
    InBand v.book.basePrice p := by
  obtain ⟨_,_,writes⟩ := follows.writes
  obtain ⟨lo,live,price,quantity,_⟩ := writes.emits.quoted p member
  by_contra outside
  have base : v.step.2.book.basePrice = v.book.basePrice := by rw [step_book,calls_basePrice]
  have level := reproduces.levels lo.side p.toInt
  rw [levelAt_outside _ _ _ (by rw [base]; exact fun contra => outside ⟨by omega,by omega⟩)] at level
  have held : restsAt lo.side p.toInt lo.resting ≤ restingAt (v.step.2.sim.liveOrders 0) lo.side p.toInt :=
    List.single_le_sum (fun _ _ => Nat.zero_le _) _ (List.mem_map.mpr ⟨lo,live,rfl⟩)
  have positive := nonzero_of_toNat lo.qty quantity
  have own : restsAt lo.side p.toInt lo.resting = lo.qty.toNat := if_pos ⟨rfl,congrArg Int64.toInt price⟩
  omega

theorem after_sim (v : VenueFeed) (k : Nat) : (v.after k).sim = v.sim.after k := by
  induction k with
  | zero => rfl
  | succ k ih => exact congrArg (fun sim => sim.nextMessage.2) ih

theorem after_message (v : VenueFeed) (k : Nat) : (v.after k).step.1 = v.sim.message k :=
  congrArg (fun sim => sim.nextMessage.1) (v.after_sim k)

section Run
variable (venueId : Int) (rng : Nat → Draw) (reference : Int64)

theorem after_follows (k : Nat) (few : k < 2^64) :
    Follows ((construct venueId rng reference).after k) ((MarketSimulator.construct rng 1).generated k) := by
  induction k with
  | zero => exact ⟨accounted_construct rng 1,(construct_fields rng 1).2.1,rfl⟩
  | succ k ih =>
    have length : ((MarketSimulator.construct rng 1).generated k).length = k := by simp [generated]
    have next := (ih (by omega)).step (by rwa [length])
    rw [after_message] at next
    rw [generated_succ]
    exact next

theorem after_basePrice (k : Nat) :
    ((construct venueId rng reference).after k).book.basePrice = (({} : OrderBook).init reference).basePrice := by
  induction k with
  | zero => rfl
  | succ k ih =>
    rw [after,step_book,calls_basePrice]
    exact ih

theorem after_inStep (k : Nat) (short : k < 2^31)
    (inBand : ∀ j < k, ∀ p ∈ quotedPrices ((MarketSimulator.construct rng 1).message j),
      InBand (({} : OrderBook).init reference).basePrice p) :
    InStep ((construct venueId rng reference).after k) (({} : OrderBook).init reference).basePrice k := by
  induction k with
  | zero =>
    refine ⟨depth_init _ _,rfl,fun id loc held => ?_,rfl,fun side price => ?_⟩
    · exact absurd held (by simp [after,construct])
    · exact (weight_empty _).le.trans (Nat.zero_le _)
  | succ k ih =>
    have length : ((MarketSimulator.construct rng 1).generated k).length = k := by simp [generated]
    have before := ih (by omega) fun j earlier => inBand j (by omega)
    refine before.step (after_follows venueId rng reference k (by omega)) (by rw [length]; omega) short ?_
    rw [after_message]
    exact inBand k (Nat.lt_succ_self k)

/-- The venue's book follows its order flow through `k` steps exactly when every price
quoted in them lies in the band around the reference price of the constructor. -/
theorem reproduces_iff (k : Nat) (bound : 3 * k + 200 < kHalf) :
    (∀ j ≤ k, Reproduces ((construct venueId rng reference).after j)) ↔
      ∀ j < k, ∀ p ∈ quotedPrices ((MarketSimulator.construct rng 1).message j),
        InBand (({} : OrderBook).init reference).basePrice p := by
  have size : kHalf = 8192 := rfl
  refine ⟨?_,?_⟩
  · intro reproduces j before p member
    rw [← after_basePrice venueId rng reference j]
    refine (reproduces (j + 1) before).inBand (after_follows venueId rng reference j (by omega)) p ?_
    rw [after_message]
    exact member
  · intro inBand j within
    exact (after_inStep venueId rng reference j (by omega) fun i earlier => inBand i (by omega)).reproduces
      (after_follows venueId rng reference j (by omega))

end Run

theorem reproduces_iff_one :
    (∀ j ≤ 1, Reproduces ((construct 0 (fun _ => ⟨0,le_rfl,one_pos⟩) 2100).after j)) ↔
      ∀ j < 1, ∀ p ∈ quotedPrices ((MarketSimulator.construct (fun _ => ⟨0,le_rfl,one_pos⟩) 1).message j),
        InBand (({} : OrderBook).init 2100).basePrice p :=
  reproduces_iff 0 (fun _ => ⟨0,le_rfl,one_pos⟩) 2100 1 (by decide)

/-- A venue told 250.00 while its generator starts at 20.00 drops its first order. -/
theorem apart_drops : ¬∀ (venueId : Int) (rng : Nat → Draw) (reference : Int64) (k : Nat),
    3 * k + 200 < kHalf → Reproduces ((construct venueId rng reference).after k) := by
  intro always
  have reproduces := always 0 (fun _ => ⟨0,le_rfl,one_pos⟩) 25000 1 (by decide)
  have dropped : ((construct 0 (fun _ => ⟨0,le_rfl,one_pos⟩) 25000).after 1).book.dropped = 1 := by
    decide +kernel
  rw [reproduces.dropped] at dropped
  cases dropped

/-! Drift alone cannot leave a band that is centred on the generator's own first price. -/

theorem initialPrice_range (d : Draw) : 2000 ≤ (initialPrice d).toInt ∧ (initialPrice d).toInt < 40000 := by
  have nonneg := d.nonneg
  have below := d.below
  have low : (2000 : Int) ≤ ⌊uniformReal 20 400 d * 100⌋ := by
    rw [Int.le_floor,uniformReal]
    push_cast
    linarith
  have high : ⌊uniformReal 20 400 d * 100⌋ < (40000 : Int) := by
    rw [Int.floor_lt,uniformReal]
    push_cast
    linarith
  rw [initialPrice,Int64.toInt_ofInt_of_le (by omega) (by omega)]
  exact ⟨low,high⟩

theorem toInt_add_small (price : Int64) (step : Int) (low : -100000 ≤ price.toInt) (high : price.toInt ≤ 100000)
    (small : -1000 ≤ step ∧ step ≤ 1000) : (price + Int64.ofInt step).toInt = price.toInt + step := by
  rw [Int64.toInt_add,Int64.toInt_ofInt_of_le (by omega) (by omega)]
  exact Int.bmod_eq_of_le (by omega) (by omega)

section Drift
variable (rng : Nat → Draw)

def ownReference : Int64 := (MarketSimulator.construct rng 1).refPrice 0

theorem ownReference_range : 2000 ≤ (ownReference rng).toInt ∧ (ownReference rng).toInt < 40000 := by
  have first : ownReference rng = initialPrice (rng 0) := rfl
  rw [first]
  exact initialPrice_range (rng 0)

theorem after_drifts (k : Nat) (few : k < 2^64) : ∃ step : Int, (-3 ≤ step ∧ step ≤ 3) ∧
    ((MarketSimulator.construct rng 1).after (k + 1)).refPrice 0 =
      ((MarketSimulator.construct rng 1).after k).refPrice 0 + Int64.ofInt step ∧
    ∀ p ∈ quotedPrices ((MarketSimulator.construct rng 1).message k), ∃ side,
      Around (((MarketSimulator.construct rng 1).after (k + 1)).refPrice 0) side p := by
  obtain ⟨step,small,writes⟩ := (after_follows 0 rng 0 k few).writes
  have moved := congrFun writes.refPrice 0
  change ((construct 0 rng 0).after (k + 1)).sim.refPrice 0 = _ at moved
  have quoted := writes.emits.quoted
  rw [← moved,after_message,after_sim] at quoted
  rw [drifted_refPrice,after_sim,after_sim] at moved
  refine ⟨step,small,moved,?_⟩
  intro p member
  obtain ⟨lo,_,_,_,around⟩ := quoted p member
  exact ⟨lo.side,around⟩

theorem drift_bounded (k : Nat) (bound : 3 * k + 200 < kHalf) :
    |(((MarketSimulator.construct rng 1).after k).refPrice 0).toInt - (ownReference rng).toInt| ≤ 3 * k := by
  have size : kHalf = 8192 := rfl
  obtain ⟨low,high⟩ := ownReference_range rng
  induction k with
  | zero => simp [MarketSimulator.after,ownReference]
  | succ k ih =>
    have before := abs_le.mp (ih (by omega))
    obtain ⟨step,small,moved,_⟩ := after_drifts rng k (by omega)
    rw [moved,toInt_add_small _ _ (by omega) (by omega) (by omega)]
    refine abs_le.mpr ⟨?_,?_⟩ <;> omega

theorem quoted_near (k : Nat) (bound : 3 * (k + 1) + 200 < kHalf) (p : Int64)
    (member : p ∈ quotedPrices ((MarketSimulator.construct rng 1).message k)) :
    |p.toInt - (ownReference rng).toInt| ≤ 3 * (k + 1) + 200 := by
  have size : kHalf = 8192 := rfl
  obtain ⟨low,high⟩ := ownReference_range rng
  have reference := abs_le.mp (drift_bounded rng (k + 1) bound)
  obtain ⟨_,_,_,quoted⟩ := after_drifts rng k (by omega)
  obtain ⟨side,off,least,most,rfl⟩ := quoted p member
  have small : -200 ≤ (if side = .buy then -off else off) ∧ (if side = .buy then -off else off) ≤ 200 := by
    split <;> omega
  rw [toInt_add_small _ _ (by omega) (by omega) (by omega)]
  refine abs_le.mpr ⟨?_,?_⟩ <;> omega

/-- A reference near the generator's own is enough for every sequence of draws. -/
theorem reproduces_near (venueId : Int) (reference : Int64) (k : Nat)
    (bound : 3 * k + 200 + |reference.toInt - (ownReference rng).toInt| < kHalf) :
    Reproduces ((construct venueId rng reference).after k) := by
  have size : kHalf = 8192 := rfl
  have wide : (kLevels : Int) = 16384 := rfl
  obtain ⟨low,high⟩ := ownReference_range rng
  obtain ⟨near,far⟩ := abs_le.mp (le_refl |reference.toInt - (ownReference rng).toInt|)
  have base : (({} : OrderBook).init reference).basePrice.toInt = reference.toInt - 8192 := by
    have half : (Int64.ofNat kHalf).toInt = 8192 := by decide
    simp only [init,Int64.toInt_sub,half]
    exact Int.bmod_eq_of_le (by omega) (by omega)
  refine (after_inStep venueId rng reference k (by omega) ?_).reproduces
    (after_follows venueId rng reference k (by omega))
  intro j before p member
  obtain ⟨below,above⟩ := abs_le.mp (quoted_near rng j (by omega) p member)
  exact ⟨by omega,by omega⟩

end Drift

end VenueFeed
end MarketFeed
