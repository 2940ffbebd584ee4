import MarketFeed.QueueLeftover
import MarketFeed.SimulatorStream

/-! `run()` called again on an engine that has completed a run. The generator and the level arrays
are made anew, the order map, the queue book and the counters of ids are not. -/
namespace MarketFeed
open FiniteMap OrderBook

namespace OrderBook

theorem call_dropping (b : OrderBook) (dropped : Nat) (c : Call) :
    ∃ dropped', ({ b with dropped := dropped } : OrderBook).call c = { b.call c with dropped := dropped' } := by
  have same (p : Int64) : ({ b with dropped := dropped } : OrderBook).level p = b.level p := rfl
  cases c with
  | add side p qty =>
    simp only [call,add,same]
    cases b.level p with
    | none => exact ⟨dropped + 1,rfl⟩
    | some idx => cases side <;> exact ⟨dropped,rfl⟩
  | reduce side p qty =>
    simp only [call,reduce,same]
    cases b.level p with
    | none => exact ⟨dropped + 1,rfl⟩
    | some idx => cases side <;> exact ⟨dropped,rfl⟩

/-- No call looks at the drop counter. -/
theorem calls_dropping (cs : List Call) (b : OrderBook) (dropped : Nat) :
    ∃ dropped', ({ b with dropped := dropped } : OrderBook).calls cs = { b.calls cs with dropped := dropped' } := by
  induction cs generalizing b dropped with
  | nil => exact ⟨dropped,rfl⟩
  | cons c rest ih =>
    obtain ⟨middle,called⟩ := call_dropping b dropped c
    rw [calls_cons,calls_cons,called]
    exact ih (b.call c) middle

end OrderBook

theorem included_lessen {orders orders' : OrderMap} (included : Included orders orders') (id : UInt64)
    (loc : RestingLoc) (rq : UInt32) : Included (lessen orders id loc rq) (lessen orders' id loc rq) := by
  unfold lessen
  split
  · exact included.erase id
  · exact included.insert id _

/-- The same book but for the drop counter, and an order map that knows at least as much. -/
structure Extends (books books' : OrderBook × OrderMap) : Prop where
  book : ∃ dropped, books'.1 = { books.1 with dropped := dropped }
  orders : Included books.2 books'.2

theorem extends_apply {books books' : OrderBook × OrderMap} (extended : Extends books books') (m : WireMsg)
    (rests : ∀ id ∈ referenced m, ∃ loc, books.2.lookup id = some loc) :
    Extends (applyToBook m books.1 books.2) (applyToBook m books'.1 books'.2) := by
  rw [applyToBook_eq,applyToBook_eq]
  obtain ⟨⟨dropped,book⟩,orders⟩ := extended
  have both : Included (trackOrders m books.2) (trackOrders m books'.2) ∧
      bookCalls m books'.2.lookup = bookCalls m books.2.lookup := by
    cases m with
    | zero => exact ⟨orders,rfl⟩
    | add a => exact ⟨orders.insert a.orderId _,rfl⟩
    | exec e | cancel e =>
      obtain ⟨loc,rested⟩ := rests _ List.mem_cons_self
      simp only [trackOrders,bookCalls,rested,orders _ loc rested,Option.elim_some,and_true]
      exact included_lessen orders _ loc _
    | del d =>
      obtain ⟨loc,rested⟩ := rests _ List.mem_cons_self
      simp only [trackOrders,bookCalls,rested,orders _ loc rested,Option.elim_some,and_true]
      exact orders.erase d.orderId
    | replace r =>
      obtain ⟨loc,rested⟩ := rests _ List.mem_cons_self
      simp only [trackOrders,bookCalls,rested,orders _ loc rested,Option.elim_some,and_true]
      exact (orders.erase r.oldOrderId).insert r.newOrderId _
  refine ⟨?_,both.1⟩
  rw [both.2,book]
  exact calls_dropping _ _ _

theorem extends_replay (messages : List WireMsg) {books books' : OrderBook × OrderMap}
    (extended : Extends books books') (resting : NamesResting books.2 messages) :
    Extends (replay books messages) (replay books' messages) := by
  induction messages generalizing books books' with
  | nil => exact extended
  | cons m rest ih =>
    have next := resting.2
    have tracked : (applyToBook m books.1 books.2).2 = trackOrders m books.2 := by rw [applyToBook_eq]
    rw [← tracked] at next
    exact ih (extends_apply extended m resting.1) next

namespace BacktestEngine
open Lifetimes QueuePositionBook

def renumber (ids pairIds : UInt64) (r : SimOrderResult) : SimOrderResult :=
  { r with id := r.id + ids, pairId := r.pairId + pairIds }

/-- The same results up to a constant shift of ids and pair ids. -/
def UpToIds (results again : List SimOrderResult) : Prop :=
  ∃ ids pairIds, again = results.map (renumber ids pairIds)

theorem UpToIds.ahead {results again : List SimOrderResult} (same : UpToIds results again) :
    again.map SimOrderResult.aheadQtyAtPlace = results.map SimOrderResult.aheadQtyAtPlace := by
  obtain ⟨ids,pairIds,rfl⟩ := same
  rw [List.map_map]
  rfl

theorem UpToIds.length {results again : List SimOrderResult} (same : UpToIds results again) :
    again.length = results.length := by
  obtain ⟨ids,pairIds,rfl⟩ := same
  exact List.length_map _

/-- At no price of these results does the queue book show a quantity. -/
def LeavesNothing (qbook : QueuePositionBook) (results : List SimOrderResult) : Prop :=
  ∀ r ∈ results, qbook.levelTotalQty ⟨0,r.side,r.priceTicks⟩ = 0

section Orders
variable (left : QueuePositionBook) (ids pairIds : UInt64)

def carryOrder (ao : ActiveOrder) : ActiveOrder :=
  { ao with id := ao.id + ids, pairId := ao.pairId + pairIds, tracker := ao.tracker.map (FastAheadTracker.carry left) }

/-- An order of the first run and the same of the second. -/
structure CarriedOrder (ao again : ActiveOrder) : Prop where
  carried : again = carryOrder left ids pairIds ao
  within : ∀ t, ao.tracker = some t → left.nextSeq.toNat + t.ourSeq.toNat < 2^64

structure CarriedTick (tick again : Tick) : Prop where
  msgIdx : again.msgIdx = tick.msgIdx
  eff : again.eff = left.carryEffect tick.eff
  book : ∃ dropped, again.book = { tick.book with dropped := dropped }
  arrived : ∀ r, tick.eff.reduction = some r → left.nextSeq.toNat + r.entrySeq.toNat < 2^64

variable {left ids pairIds}

theorem finish_carried {book book' : OrderBook} (same : ∃ dropped, book' = { book with dropped := dropped })
    (ao : ActiveOrder) (outcome : Outcome) (msgIdx : Nat) :
    finish book' (carryOrder left ids pairIds ao) outcome msgIdx =
      renumber ids pairIds (finish book ao outcome msgIdx) := by
  obtain ⟨dropped,rfl⟩ := same
  rfl

theorem naiveFill_carried (eff : ApplyEffect) (level : LevelKey) :
    naiveFill (left.carryEffect eff) level = naiveFill eff level := by
  unfold naiveFill carryEffect
  cases eff.reduction <;> rfl

variable (ids pairIds) in
theorem observe_carried {tick again : Tick} (ticks : CarriedTick left tick again) (ao : ActiveOrder)
    (within : ∀ t, ao.tracker = some t → left.nextSeq.toNat + t.ourSeq.toNat < 2^64) :
    observe again.eff (carryOrder left ids pairIds ao) =
      ((observe tick.eff ao).1,carryOrder left ids pairIds (observe tick.eff ao).2) ∧
    ∀ t, (observe tick.eff ao).2.tracker = some t → left.nextSeq.toNat + t.ourSeq.toNat < 2^64 := by
  rw [ticks.eff]
  by_cases naive : ao.isNaive = true
  · have carried : (carryOrder left ids pairIds ao).isNaive = true := naive
    have level : (carryOrder left ids pairIds ao).level = ao.level := rfl
    simp only [observe,if_pos naive,if_pos carried,naiveFill_carried,level,true_and]
    exact within
  · have carried : (carryOrder left ids pairIds ao).isNaive ≠ true := naive
    simp only [observe,if_neg naive,if_neg carried]
    cases tracked : ao.tracker with
    | none =>
      have none_ : (carryOrder left ids pairIds ao).tracker = none := by simp [carryOrder,tracked]
      simp only [none_,true_and]
      exact fun t contra => by simp [tracked] at contra
    | some t =>
      have some_ : (carryOrder left ids pairIds ao).tracker = some (t.carry left) := by simp [carryOrder,tracked]
      simp only [some_,FastAheadTracker.consume_carry left t tick.eff (within t tracked) ticks.arrived]
      refine ⟨by simp [carryOrder],fun t' told => ?_⟩
      obtain rfl := Option.some.inj told
      rw [FastAheadTracker.consume_ourSeq]
      exact within t tracked

theorem attend_carried (cfg : Config) {tick again : Tick} (ticks : CarriedTick left tick again)
    {ao ao' : ActiveOrder} (orders : CarriedOrder left ids pairIds ao ao') :
    Sum.LiftRel (fun r r' => r' = renumber ids pairIds r) (CarriedOrder left ids pairIds)
      (attend cfg tick ao) (attend cfg again ao') := by
  obtain ⟨rfl,within⟩ := orders
  obtain ⟨observed,within⟩ := observe_carried ids pairIds ticks ao within
  have placed : (carryOrder left ids pairIds (observe tick.eff ao).2).placedMsgIdx =
      (observe tick.eff ao).2.placedMsgIdx := rfl
  simp only [attend,observed,ticks.msgIdx,placed]
  split
  · exact .inl (finish_carried ticks.book _ _ _)
  · split
    · exact .inl (finish_carried ticks.book _ _ _)
    · exact .inr ⟨rfl,within⟩

end Orders

theorem shifted_later (number shift step : UInt64) : number + shift + step = number + step + shift := by
  rw [UInt64.add_assoc,UInt64.add_comm shift,UInt64.add_assoc]

/-- The second run is where the first one was, on top of what that left behind. -/
structure Resumes (left : QueuePositionBook) (ids pairIds : UInt64) (e again : BacktestEngine) : Prop where
  cfg : again.cfg = e.cfg
  books : Extends (e.book,e.bookOrders) (again.book,again.bookOrders)
  same : SameOrders e.bookOrders e.qbook
  located : Located e.qbook
  carries : Carries left e.qbook again.qbook
  nextId : again.nextId = e.nextId + ids
  nextPairId : again.nextPairId = e.nextPairId + pairIds

section Resumes
variable {left : QueuePositionBook} {ids pairIds : UInt64} {e again : BacktestEngine}
  (resumes : Resumes left ids pairIds e again)
include resumes

theorem resumes_advance (fresh : ∀ key, ∀ node ∈ left.level key, node.id < left.allocated) (m : WireMsg)
    (rests : ∀ id ∈ referenced m, ∃ loc, e.bookOrders.lookup id = some loc) :
    Resumes left ids pairIds (e.advance m).2 (again.advance m).2 ∧
      (again.advance m).1 = left.carryEffect (e.advance m).1 := by
  obtain ⟨effect,carries⟩ := apply_carried resumes.carries fresh m (rests_known resumes.same m rests)
  have tracked : (e.advance m).2.bookOrders = trackOrders m e.bookOrders := by
    simp only [advance,applyToBook_eq]
  refine ⟨⟨resumes.cfg,extends_apply resumes.books m rests,?_,apply_located resumes.located m,carries,
    resumes.nextId,resumes.nextPairId⟩,effect⟩
  rw [tracked]
  exact sameOrders_apply resumes.located resumes.same m

theorem resumes_place (msgIdx : Nat) : Resumes left ids pairIds (e.placePair msgIdx) (again.placePair msgIdx) := by
  refine ⟨resumes.cfg,resumes.books,resumes.same,resumes.located,resumes.carries,?_,?_⟩
  · simp only [placePair,resumes.nextId,shifted_later]
  · simp only [placePair,resumes.nextPairId,shifted_later]

theorem resumes_places (msgIdx : Nat) : again.places msgIdx = e.places msgIdx := by
  obtain ⟨dropped,book⟩ := resumes.books.book
  have book : again.book = { e.book with dropped := dropped } := book
  simp only [places,resumes.cfg,book]
  rfl

theorem pair_carried (msgIdx : Nat) (clear : left.levelTotalQty ⟨0,.buy,e.book.bestBidTicks⟩ = 0)
    (within : left.nextSeq.toNat + e.qbook.nextSeq.toNat < 2^64) :
    List.Forall₂ (CarriedOrder left ids pairIds) [(e.pair msgIdx).1,(e.pair msgIdx).2]
      [(again.pair msgIdx).1,(again.pair msgIdx).2] := by
  obtain ⟨dropped,book⟩ := resumes.books.book
  have book : again.book = { e.book with dropped := dropped } := book
  have bid : again.book.bestBidTicks = e.book.bestBidTicks := by rw [book]; rfl
  have ask : again.book.bestAskTicks = e.book.bestAskTicks := by rw [book]; rfl
  have ahead := (total_carried resumes.carries ⟨0,.buy,e.book.bestBidTicks⟩).mpr clear
  have seq : again.qbook.currentSeq = left.nextSeq + e.qbook.currentSeq := resumes.carries.nextSeq
  refine .cons ⟨?_,fun t contra => by cases contra⟩ (.cons ⟨?_,fun t told => ?_⟩ .nil)
  · simp only [pair,carryOrder,bid,ask,ahead,resumes.nextId,resumes.nextPairId,resumes.cfg,Option.map_none]
  · simp only [pair,carryOrder,bid,ask,ahead,resumes.nextId,resumes.nextPairId,resumes.cfg,Option.map_some,seq,
      FastAheadTracker.construct_carry,shifted_later]
  · obtain rfl := Option.some.inj told
    rw [(FastAheadTracker.construct_key _ _ _).2]
    exact within

end Resumes

theorem script_carried (messages : List WireMsg) {left : QueuePositionBook} {ids pairIds : UInt64}
    {e again : BacktestEngine} (msgIdx : Nat) {count : Nat} (resumes : Resumes left ids pairIds e again)
    (fresh : ∀ key, ∀ node ∈ left.level key, node.id < left.allocated)
    (resting : NamesResting e.bookOrders messages) (counted : Counted e.qbook count)
    (few : left.nextSeq.toNat + (count + messages.countP introduces) < 2^64)
    (clear : ∀ p ∈ e.placements msgIdx messages, left.levelTotalQty ⟨0,.buy,p.engine.book.bestBidTicks⟩ = 0) :
    List.Forall₂ (fun x x' => CarriedTick left x.1 x'.1 ∧ List.Forall₂ (CarriedOrder left ids pairIds) x.2 x'.2)
      (e.script msgIdx messages) (again.script msgIdx messages) := by
  induction messages generalizing e again msgIdx count with
  | nil => exact .nil
  | cons m rest ih =>
    rw [introduced_cons,← Nat.add_assoc count] at few
    obtain ⟨advanced,effect⟩ := resumes_advance resumes fresh m resting.1
    have tracked : (e.advance m).2.bookOrders = trackOrders m e.bookOrders := by
      simp only [advance,applyToBook_eq]
    have later : NamesResting (e.advance m).2.bookOrders rest := tracked ▸ resting.2
    obtain ⟨next,grows⟩ := counted_step (apply_applies e.qbook m) counted (by omega)
    have next : Counted (e.advance m).2.qbook (count + [m].countP introduces) := next
    have seen := counted.nextSeq
    have bound := next.nextSeq
    have tick : CarriedTick left ⟨msgIdx,(e.advance m).1,(e.advance m).2.book⟩
        ⟨msgIdx,(again.advance m).1,(again.advance m).2.book⟩ := by
      refine ⟨rfl,effect,advanced.books.book,fun r reported => ?_⟩
      have arrived := apply_entrySeq counted.arrived m r reported
      omega
    simp only [script,placements,resumes_places advanced] at clear ⊢
    by_cases here : (e.advance m).2.places msgIdx = true
    · rw [if_pos here] at clear
      rw [if_pos here,if_pos here]
      obtain ⟨first,others⟩ := List.forall_mem_cons.mp clear
      have pair := pair_carried advanced msgIdx first (by omega)
      have onward := ih (msgIdx + 1) (resumes_place advanced msgIdx) later next few others
      exact List.Forall₂.cons ⟨tick,pair⟩ onward
    · rw [if_neg here] at clear
      rw [if_neg here,if_neg here]
      have onward := ih (msgIdx + 1) advanced later next few clear
      exact List.Forall₂.cons ⟨tick,.nil⟩ onward

/-- What a replay leaves of the engine it starts in. -/
structure Replayed (e : BacktestEngine) (messages : List WireMsg) (final : BacktestEngine) : Prop where
  cfg : final.cfg = e.cfg
  books : (final.book,final.bookOrders) = MarketFeed.replay (e.book,e.bookOrders) messages
  qbook : final.qbook = e.qbook.applyAll messages

theorem replay_replayed (messages : List WireMsg) (e : BacktestEngine) (msgIdx : Nat) :
    Replayed e messages (e.replay msgIdx messages).2 := by
  induction messages generalizing e msgIdx with
  | nil => exact ⟨rfl,rfl,rfl⟩
  | cons m rest ih =>
    have later := ih (e.onMessage msgIdx m).2 (msgIdx + 1)
    have step : (e.onMessage msgIdx m).2.cfg = e.cfg ∧
        ((e.onMessage msgIdx m).2.book,(e.onMessage msgIdx m).2.bookOrders) = applyToBook m e.book e.bookOrders ∧
        (e.onMessage msgIdx m).2.qbook = (e.qbook.apply m).2 := by
      simp only [onMessage]
      split <;> exact ⟨rfl,rfl,rfl⟩
    obtain ⟨cfg,books,qbook⟩ := step
    refine ⟨later.cfg.trans cfg,?_,?_⟩
    · exact later.books.trans (congrArg (fun start => MarketFeed.replay start rest) books)
    · exact later.qbook.trans (congrArg (fun start : QueuePositionBook => start.applyAll rest) qbook)

section Twice
variable (cfg : Config) (reference : Int64) (message : Nat → WireMsg)

/-- The engine in which the second run begins to replay. -/
def resumed : BacktestEngine :=
  (runOn cfg reference message).2.opened reference

theorem first_replayed : Replayed (start cfg reference) (stream cfg message) (runOn cfg reference message).2 :=
  replay_replayed _ _ _

theorem leftover_located : Located (runOn cfg reference message).2.qbook := by
  rw [(first_replayed cfg reference message).qbook]
  exact applyAll_located _ _ located_empty

theorem start_resumes : ∃ ids pairIds,
    Resumes (runOn cfg reference message).2.qbook ids pairIds (start cfg reference) (resumed cfg reference message) := by
  have done := first_replayed cfg reference message
  refine ⟨(runOn cfg reference message).2.nextId - (start cfg reference).nextId,
    (runOn cfg reference message).2.nextPairId - (start cfg reference).nextPairId,
    done.cfg,⟨⟨_,rfl⟩,fun id loc contra => ?_⟩,fun id => by simp [start,construct,opened,find],located_empty,
    carries_start _,?_,?_⟩
  · simp [start,construct,opened] at contra
  · rw [UInt64.add_comm,UInt64.sub_add_cancel]
    rfl
  · rw [UInt64.add_comm,UInt64.sub_add_cancel]
    rfl

variable {cfg reference message}

/-- Each placement of the first run is at the price of one of its results. -/
theorem placement_reported (p : Placement) (member : p ∈ (start cfg reference).placements 0 (stream cfg message)) :
    ∃ r ∈ (runOn cfg reference message).1, r.side = .buy ∧ r.priceTicks = p.engine.book.bestBidTicks := by
  have all := replay_perm (stream cfg message) (start cfg reference) 0 rfl
  obtain ⟨book,outcome,msgIdx,fate⟩ := fateOf_finish (start cfg reference).cfg
    ((start cfg reference).replay 0 (stream cfg message)).2.book p.later (p.engine.pair p.msgIdx).1
  refine ⟨_,all.mem_iff.mpr (List.mem_flatMap.mpr ⟨_,List.mem_map_of_mem member,List.mem_cons_self⟩),?_⟩
  simp only [Placement.results,fate]
  exact ⟨rfl,rfl⟩

variable (resting : NamesResting ∅ (stream cfg message))
include resting

/-- Nothing left where the run places: the second run gives the same results, and rests as many
orders at a time. -/
theorem repeats_of_nothing (few : 2 * (stream cfg message).countP introduces < 2^64)
    (nothing : LeavesNothing (runOn cfg reference message).2.qbook (runOn cfg reference message).1) :
    UpToIds (runOn cfg reference message).1 ((resumed cfg reference message).replay 0 (stream cfg message)).1 ∧
    (resumed cfg reference message).peak 0 (stream cfg message) =
      (start cfg reference).peak 0 (stream cfg message) := by
  obtain ⟨ids,pairIds,resumes⟩ := start_resumes cfg reference message
  have fresh := (leftover_located cfg reference message).fresh
  have left := (counted_applyAll (stream cfg message) {} 0 counted_empty (by omega)).nextSeq
  rw [Nat.zero_add] at left
  have same : (runOn cfg reference message).2.qbook = ({} : QueuePositionBook).applyAll (stream cfg message) :=
    (first_replayed cfg reference message).qbook
  rw [← same] at left
  have clear : ∀ p ∈ (start cfg reference).placements 0 (stream cfg message),
      (runOn cfg reference message).2.qbook.levelTotalQty ⟨0,.buy,p.engine.book.bestBidTicks⟩ = 0 := by
    intro p member
    obtain ⟨r,reported,side,price⟩ := placement_reported p member
    rw [← side,← price]
    exact nothing r reported
  have scripts := script_carried (stream cfg message) 0 resumes fresh resting counted_empty (by omega) clear
  have closing : ∃ dropped, ((resumed cfg reference message).replay 0 (stream cfg message)).2.book =
      { ((start cfg reference).replay 0 (stream cfg message)).2.book with dropped := dropped } := by
    have ends := (extends_replay (stream cfg message) resumes.books resting).book
    rw [← (replay_replayed (stream cfg message) (resumed cfg reference message) 0).books,
      ← (replay_replayed (stream cfg message) (start cfg reference) 0).books] at ends
    exact ends
  have idle : (resumed cfg reference message).active = [] := replay_active _ _ _
  have closes (ao ao' : ActiveOrder) (orders : CarriedOrder (runOn cfg reference message).2.qbook ids pairIds ao ao') :
      finish ((resumed cfg reference message).replay 0 (stream cfg message)).2.book ao' .resting cfg.numMessages.toNat =
        renumber ids pairIds
          (finish ((start cfg reference).replay 0 (stream cfg message)).2.book ao .resting cfg.numMessages.toNat) := by
    rw [orders.carried]
    exact finish_carried closing ao .resting cfg.numMessages.toNat
  have attends (tick tick' : Tick) (ao ao' : ActiveOrder) (ticks : CarriedTick (runOn cfg reference message).2.qbook tick tick')
      (orders : CarriedOrder (runOn cfg reference message).2.qbook ids pairIds ao ao') :=
    attend_carried cfg ticks orders
  have second := replay_roster (stream cfg message) (resumed cfg reference message) 0
  have first := replay_roster (stream cfg message) (start cfg reference) 0
  rw [idle,resumes.cfg] at second
  have related : List.Forall₂ (fun r r' => r' = renumber ids pairIds r)
      ((start cfg reference).replay 0 (stream cfg message)).1
      ((resumed cfg reference message).replay 0 (stream cfg message)).1 := by
    rw [first,second]
    exact roster_related attends closes scripts .nil
  refine ⟨⟨ids,pairIds,?_⟩,?_⟩
  · exact (List.forall₂_eq_eq_eq ▸ (List.forall₂_map_right_iff.mpr related.flip) : _ = _)
  · rw [peak_crowd,peak_crowd,idle,resumes.cfg]
    exact (crowd_related attends scripts .nil).symm

/-- A quantity left where the run places is counted by the second run as ahead of its order. -/
theorem nothing_of_repeats
    (repeats : UpToIds (runOn cfg reference message).1 ((resumed cfg reference message).replay 0 (stream cfg message)).1) :
    LeavesNothing (runOn cfg reference message).2.qbook (runOn cfg reference message).1 := by
  intro r reported
  obtain ⟨ids,pairIds,same⟩ := repeats
  have again : renumber ids pairIds r ∈ ((resumed cfg reference message).replay 0 (stream cfg message)).1 := by
    rw [same]
    exact List.mem_map_of_mem reported
  obtain ⟨p,_,placed,ao,own,_,_,_,first⟩ := replay_placed (stream cfg message) (start cfg reference) 0 rfl r reported
  obtain ⟨q,_,placed',ao',own',_,_,_,second⟩ := replay_placed (stream cfg message) (resumed cfg reference message) 0
    (replay_active _ _ _) _ again
  obtain ⟨level,idx,ahead⟩ := pair_recorded own
  obtain ⟨level',idx',ahead'⟩ := pair_recorded own'
  rw [first] at second
  have price : ao.level.priceTicks = ao'.level.priceTicks := congrArg SimOrderResult.priceTicks second
  have msgIdx : ao.placedMsgIdx = ao'.placedMsgIdx := congrArg SimOrderResult.placedMsgIdx second
  have recorded : ao.aheadQtyAtPlace = ao'.aheadQtyAtPlace := congrArg SimOrderResult.aheadQtyAtPlace second
  simp only [level,level'] at price
  rw [idx,idx'] at msgIdx
  rw [ahead,ahead',← price] at recorded
  have whole := resting
  rw [← List.take_append_drop (p.msgIdx + 1) (stream cfg message)] at whole
  have carries := carries_applyAll ((stream cfg message).take (p.msgIdx + 1))
    (carries_start (runOn cfg reference message).2.qbook) (leftover_located cfg reference message).fresh located_empty
    (fun id => by simp [find]) ((namesResting_append _ _ _).mp whole).1
  have qbook : p.engine.qbook = ({} : QueuePositionBook).applyAll ((stream cfg message).take (p.msgIdx + 1)) :=
    placed.qbook
  have qbook' : q.engine.qbook =
      (runOn cfg reference message).2.qbook.applyAll ((stream cfg message).take (p.msgIdx + 1)) := by
    rw [msgIdx]
    exact placed'.qbook
  rw [← qbook,← qbook'] at carries
  have told : r.side = .buy ∧ r.priceTicks = p.engine.book.bestBidTicks := by
    rw [first]
    exact ⟨congrArg LevelKey.side level,congrArg LevelKey.priceTicks level⟩
  rw [told.1,told.2,← total_carried carries]
  exact UInt32.toNat_inj.mp (by simpa using congrArg UInt64.toNat recorded.symm)

end Twice

theorem consistent_rests {orders : OrderMap} {m : WireMsg} (consistent : MarketSimulator.SelfConsistent orders m) :
    ∀ id ∈ referenced m, ∃ loc, orders.lookup id = some loc := by
  intro id named
  cases m with
  | zero | add => cases named
  | exec e | cancel e =>
    obtain ⟨loc,known,_⟩ := consistent
    exact ⟨loc,List.mem_singleton.mp named ▸ known⟩
  | del d =>
    obtain ⟨loc,known⟩ := consistent
    exact ⟨loc,List.mem_singleton.mp named ▸ known⟩
  | replace r =>
    obtain ⟨_,loc,known⟩ := consistent
    exact ⟨loc,List.mem_singleton.mp named ▸ known⟩

/-- The messages of the backtest's generator name only orders of their own stream that rest. -/
theorem generated_resting (rng : Nat → Draw) (calls : Nat) (few : calls < 2^64) :
    NamesResting ∅ ((MarketSimulator.construct rng 1).generated calls) := by
  have consistent := MarketSimulator.message_consistent rng 1 (Nat.le_refl 1) (by omega)
  generalize MarketSimulator.construct rng 1 = sim at consistent ⊢
  have single (k : Nat) (within : k + 1 < 2^64) : instrumentOf (sim.message k) = 0 := by
    have := (consistent k within).1
    omega
  have whole (k : Nat) (within : k < 2^64) : MarketSimulator.ordersOf (MarketSimulator.only 0) (sim.generated k) =
      (sim.generated k).foldl (fun orders m => trackOrders m orders) ∅ := by
    induction k with
    | zero => rfl
    | succ k ih =>
      rw [MarketSimulator.generated_succ,MarketSimulator.ordersOf_concat,single k within,
        if_pos (by simp [MarketSimulator.only]),ih (by omega),Prefix.foldl_concat]
  induction calls with
  | zero => trivial
  | succ k ih =>
    have refers := (consistent k few).2
    rw [single k few,whole k (by omega)] at refers
    rw [MarketSimulator.generated_succ,namesResting_append]
    exact ⟨ih (by omega),consistent_rests refers,trivial⟩

/-- How many orders arrive in a run, by an Add or a Replace. -/
def arrivals (cfg : Config) (rng : Nat → Draw) : Nat :=
  (stream cfg (MarketSimulator.construct rng 1).message).countP introduces

theorem run_ok (e : BacktestEngine) (limits : Limits) (rng : Nat → Draw) (out : List SimOrderResult × BacktestEngine) :
    let sim := MarketSimulator.construct rng 1
    let opened := e.opened (sim.refPrice 0)
    let messages := stream e.cfg sim.message
    e.run limits rng = .ok out ↔
      e.cfg.placementInterval ≠ 0 ∧ reservation e.cfg ≤ limits.results ∧
      (opened.replay 0 messages).1.length ≤ limits.results.toNat ∧ opened.peak 0 messages ≤ limits.active.toNat ∧
      opened.replay 0 messages = out :=
  runFrom_ok e limits _ _ out

/-- Another call of `run()` returns, with the same results up to a shift of ids. -/
def Repeats (e : BacktestEngine) (limits : Limits) (rng : Nat → Draw) (results : List SimOrderResult) : Prop :=
  ∃ again final, e.run limits rng = .ok (again,final) ∧ UpToIds results again

/-- After a completed run, a second call of `run()` gives the same results up to a shift of ids
exactly if the first left nothing in the queue book at the prices where it placed, unless 2^63
orders arrive. -/
theorem run_again_iff (limits : Limits) (cfg : Config) (rng : Nat → Draw) (results : List SimOrderResult)
    (e : BacktestEngine) (completed : (construct cfg).run limits rng = .ok (results,e)) :
    (Repeats e limits rng results → LeavesNothing e.qbook results) ∧
    (2 * arrivals cfg rng < 2^64 → LeavesNothing e.qbook results → Repeats e limits rng results) := by
  obtain ⟨interval,reserved,length,peak,first⟩ := (run_ok _ _ _ _).mp completed
  have resting : NamesResting ∅ (stream cfg (MarketSimulator.construct rng 1).message) :=
    generated_resting rng cfg.numMessages.toNat cfg.numMessages.toNat_lt
  have reported : results = (runOn cfg ((MarketSimulator.construct rng 1).refPrice 0)
      (MarketSimulator.construct rng 1).message).1 := congrArg Prod.fst first.symm
  have left : e = (runOn cfg ((MarketSimulator.construct rng 1).refPrice 0)
      (MarketSimulator.construct rng 1).message).2 := congrArg Prod.snd first.symm
  have same : e.cfg = cfg := left ▸ (replay_replayed _ _ _).cfg
  refine ⟨?_,fun few nothing => ?_⟩
  · rintro ⟨again,final,returned,repeats⟩
    obtain ⟨_,_,_,_,second⟩ := (run_ok _ _ _ _).mp returned
    rw [same,left] at second
    have repeated : _ = again := congrArg Prod.fst second
    rw [reported,← repeated] at repeats
    rw [reported,left]
    exact nothing_of_repeats resting repeats
  · rw [reported,left] at nothing
    obtain ⟨repeats,crowded⟩ := repeats_of_nothing resting few nothing
    have count := repeats.length
    have second : e.run limits rng = .ok ((resumed cfg ((MarketSimulator.construct rng 1).refPrice 0)
        (MarketSimulator.construct rng 1).message).replay 0 (stream cfg (MarketSimulator.construct rng 1).message)) := by
      refine (run_ok _ _ _ _).mpr ?_
      rw [same,left]
      exact ⟨interval,reserved,count.trans_le length,crowded.trans_le peak,rfl⟩
    rw [← reported] at repeats
    exact ⟨_,_,second,repeats⟩

def everyMessage (numMessages : UInt64) : Config := { numMessages := numMessages, placementInterval := 1 }

/-- The first order is a Buy and the second a Sell; a third message deletes the Buy. -/
def buySellDelete (n : Nat) : Draw := if n = 10 ∨ n = 15 ∨ n = 17 then tenths 7 else tenths 2

theorem run_again_deleted : ∃ results e, (construct (everyMessage 3)).run limits64 buySellDelete = .ok (results,e) ∧
    results.length = 2 ∧ Repeats e limits64 buySellDelete results := by
  have completed := (run_ok (construct (everyMessage 3)) limits64 buySellDelete _).mpr
    ⟨by decide,by decide +kernel,by decide +kernel,by decide +kernel,rfl⟩
  refine ⟨_,_,completed,by decide +kernel,
    (run_again_iff limits64 (everyMessage 3) buySellDelete _ _ completed).2 (by decide +kernel) ?_⟩
  unfold LeavesNothing
  decide +kernel

/-- Where the run ends before the Delete, the second one finds the Buy twice. -/
theorem leftover_doubles : ∃ results e again final,
    (construct (everyMessage 2)).run limits64 buySellDelete = .ok (results,e) ∧
      e.run limits64 buySellDelete = .ok (again,final) ∧ ¬UpToIds results again := by
  have completed := (run_ok (construct (everyMessage 2)) limits64 buySellDelete _).mpr
    ⟨by decide,by decide +kernel,by decide +kernel,by decide +kernel,rfl⟩
  refine ⟨_,_,_,_,completed,(run_ok _ limits64 buySellDelete _).mpr
    ⟨by decide +kernel,by decide +kernel,by decide +kernel,by decide +kernel,rfl⟩,
    fun same => absurd same.ahead (by decide +kernel)⟩

end BacktestEngine
end MarketFeed
