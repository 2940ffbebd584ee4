import MarketFeed.LiveLedger

/-! Reading the books while a feed runs: at any moment a book is what some of its instrument's
messages make of it, the oldest that were taken, and it only moves on. -/
namespace MarketFeed

/-- The messages of its own that the book of an instrument shows. -/
def Pool.seen (p : Pool) (i : Nat) : List WireMsg :=
  ((p.shards (p.instrumentToShard i).toNat).applied.map QueueItem.msg).filter fun m => instrumentOf m = i

/-- Later than `p`: what was applied stays applied. -/
structure Pool.Onward (p later : Pool) : Prop where
  toShard : later.instrumentToShard = p.instrumentToShard
  applied : ∀ k, (p.shards k).applied <+: (later.shards k).applied

theorem Pool.Onward.trans {p middle later : Pool} (first : p.Onward middle) (second : middle.Onward later) :
    p.Onward later :=
  ⟨second.toShard.trans first.toShard,fun k => (first.applied k).trans (second.applied k)⟩

theorem Pool.Onward.seen {p later : Pool} (onward : p.Onward later) (i : Nat) : p.seen i <+: later.seen i := by
  unfold Pool.seen
  rw [onward.toShard]
  exact ((onward.applied _).map _).filter _

/-- And nothing more than in `p`. -/
def Pool.Still (p later : Pool) : Prop := ∀ k, (later.shards k).applied = (p.shards k).applied

theorem WorkerMove.applied {stop : Bool} {shard next : Shard} {pc after : WorkerPc}
    (move : WorkerMove stop shard pc next after) : shard.applied <+: next.applied := by
  cases move with
  | apply item => exact List.prefix_append _ _
  | pop | miss | again | leave => exact List.prefix_rfl

namespace LiveFeed

theorem feeding_onward {f next : LiveFeed} {start : Normalizer} {accepted accepted' : List WireMsg} {dropped dropped' : Nat}
    (feeds : Pool.Feeds start f.pool accepted dropped) (feeds' : Pool.Feeds start next.pool accepted' dropped')
    (feeding : Feeding f next) : f.pool.Onward next.pool := by
  refine ⟨feeds'.toShard.trans feeds.toShard.symm,fun k => ?_⟩
  cases feeding with
  | quiet pool => rw [pool]
  | dispatch m _ pool => rw [pool,(idle_dispatch f.pool m).applied]
  | work s worked =>
    obtain ⟨_,shard,pc,moved,move⟩ := Pool.workerStep_move worked
    rw [moved]
    rcases eq_or_ne k s with rfl | other
    · simpa [Pool.move] using move.applied
    · simp [Pool.move,other]

/-- Workers that have left apply nothing. -/
theorem feeding_still {f next : LiveFeed} (gone : ∀ k < f.pool.numShards, f.pool.workers k = .exited)
    (feeding : Feeding f next) : f.pool.Still next.pool := by
  intro k
  cases feeding with
  | quiet pool => rw [pool]
  | dispatch m _ pool => rw [pool,(idle_dispatch f.pool m).applied]
  | work s worked =>
    obtain ⟨inside,_,_,_,move⟩ := Pool.workerStep_move worked
    rw [gone s inside] at move
    cases move

end LiveFeed

namespace LiveSession

section Step
variable {start : Normalizer} {P : WireMsg → Prop} (routed : ∀ m, P m → start.shardOf m < start.numShards)
  {s next : LiveSession} {accepted : List WireMsg} {dropped calls : Nat}
  (ledger : Ledger start P s accepted dropped calls)
include ledger

theorem ledger_gone (drained : s.drained = true) : ∀ k < s.feed.pool.numShards, s.feed.pool.workers k = .exited := by
  intro k inside
  refine ledger.feeds.joined k ?_
  rwa [ledger.once.returned drained,DrainPc.joined]

include routed in
/-- One step: the books move on, and once drained they do not move at all. -/
theorem step_onward (action : Action) (step : s.step action = some next) :
    s.feed.pool.Onward next.feed.pool ∧
      (s.drained = true → next.drained = true ∧ s.feed.pool.Still next.feed.pool) := by
  have same (p : Pool) (stop : Bool) (drain : DrainPc) : p.Onward { p with stop := stop, drain := drain } :=
    ⟨rfl,fun _ => List.prefix_rfl⟩
  cases action with
  | start messages =>
    obtain ⟨_,_,rfl⟩ := start_started step
    exact ⟨⟨rfl,fun _ => List.prefix_rfl⟩,fun drained => ⟨drained,fun _ => rfl⟩⟩
  | feed action =>
    rcases step_feed action step with ⟨rfl,waits⟩ | ⟨other,feed,stepped,rfl⟩
    · cases (waitStep_waits waits).2 with
      | again drained => exact ⟨⟨rfl,fun _ => List.prefix_rfl⟩,fun drained => ⟨drained,fun _ => rfl⟩⟩
      | first => exact ⟨⟨rfl,fun _ => List.prefix_rfl⟩,fun _ => ⟨rfl,fun _ => rfl⟩⟩
      | call => exact ⟨same _ _ _,fun drained => ⟨drained,fun _ => rfl⟩⟩
      | drain undrained pool moved =>
        obtain ⟨stop,drain,rfl,_⟩ := Pool.drainStep_moves moved
        exact ⟨same _ _ _,fun drained => ⟨drained,fun _ => rfl⟩⟩
    · have feeding := LiveFeed.step_feeding action other stepped
      obtain ⟨_,_,after,_⟩ := ledger_feed ledger routed action other feed stepped
      exact ⟨LiveFeed.feeding_onward ledger.feeds after.feeds feeding,fun drained =>
        ⟨drained,LiveFeed.feeding_still (ledger_gone ledger drained) feeding⟩⟩

end Step

theorem run_onward {start : Normalizer} {P : WireMsg → Prop} (routed : ∀ m, P m → start.shardOf m < start.numShards)
    (actions : List Action) {s final : LiveSession} {accepted : List WireMsg} {dropped calls : Nat}
    (ledger : Ledger start P s accepted dropped calls)
    (sends : ∀ messages ∈ starts actions, ∀ m ∈ messages, m ≠ .zero ∧ P m) (ran : s.run actions = some final) :
    s.feed.pool.Onward final.feed.pool ∧ (s.drained = true → s.feed.pool.Still final.feed.pool) := by
  induction actions generalizing s accepted dropped calls with
  | nil =>
    cases ran
    exact ⟨⟨rfl,fun _ => List.prefix_rfl⟩,fun _ _ => rfl⟩
  | cons action rest ih =>
    obtain ⟨middle,step,onward⟩ := Option.bind_eq_some_iff.mp ran
    rw [starts_cons] at sends
    obtain ⟨_,_,kept,_⟩ := ledger_step ledger routed action
      (fun messages called => sends messages (List.mem_append_left _ (by simp [called]))) step
    obtain ⟨first,quiet⟩ := step_onward routed ledger action step
    obtain ⟨later,still⟩ := ih kept (fun messages member => sends messages (List.mem_append_right _ member)) onward
    refine ⟨first.trans later,fun drained k => ?_⟩
    obtain ⟨drained,same⟩ := quiet drained
    exact (still drained k).trans (same k)

/-- The book of an instrument at any moment is a replay of what it has seen, the oldest of the messages
that its queue has taken. -/
theorem ledger_book {n : Nat} {reference : Nat → Int64} {total : List WireMsg} {s : LiveSession}
    {accepted : List WireMsg} {dropped calls : Nat} (owned : Replay.OneInstrument total)
    (ledger : Ledger (Normalizer.ready n reference) (fun m => m ∈ total ∧ instrumentOf m < numInstruments) s accepted
      dropped calls) (i : Nat) (inside : i < numInstruments) :
    s.feed.pool.seen i <+: (accepted.filter fun m => instrumentOf m = i) ∧
      s.feed.pool.bookForInstrument i =
        some (replay (({} : OrderBook).init (reference i),∅) (s.feed.pool.seen i)).1 := by
  have feeds := ledger.feeds
  have held := fun m member => ledger.owns.decoded m (ledger.kept.subset member)
  have applied (k : Nat) : (s.feed.pool.shards k).applied <+: Pool.share (Normalizer.ready n reference) accepted k := by
    rw [← feeds.handed k,handed,List.append_assoc]
    exact List.prefix_append _ _
  have single : Replay.OneInstrument accepted := fun m member other member' =>
    owned m (held m member).1 other (held other member').1
  have book := Replay.applied_book (Normalizer.priced_ready n reference) feeds.toShard feeds.toLocal i (feeds.worked _)
    (fun m member => (held m member).2) single inside (applied _)
  rw [Pool.seen,feeds.toShard]
  refine ⟨?_,book⟩
  rw [← Replay.share_own (Normalizer.ready n reference) accepted i]
  exact ((applied _).map _).filter _

/-- A book read at any moment of any calls, over any network, is the sequential replay of the oldest
messages of its instrument that the queues have taken; a later read shows these and perhaps more, and
after the wait that drains the feed no read shows anything else. What the queues have taken is all that
was decoded but what they dropped when full, and each shard holds its part of it in order. -/
theorem reads_move_on {n : Nat} (positive : 1 ≤ n) (reference : Nat → Int64) (expectedMsgs : Nat)
    (before after : List Action)
    (sends : ∀ messages ∈ starts (before ++ after), ∀ m ∈ messages, m ≠ .zero ∧ instrumentOf m < numInstruments)
    (owned : Replay.OneInstrument (starts (before ++ after)).flatten) (read final : LiveSession)
    (ran : (construct n reference expectedMsgs).run before = some read) (onward : read.run after = some final) :
    ∃ accepted : List WireMsg, accepted.Sublist read.feed.decoded ∧
      read.feed.decoded.length =
        accepted.length + ((List.range n).map fun k => (read.feed.pool.shards k).droppedFull).sum ∧
      (∀ k, handed (read.feed.pool.shards k) (read.feed.pool.workers k) =
        Pool.share (Normalizer.ready n reference) accepted k) ∧
      ∀ i < numInstruments, (read.feed.pool.seen i <+: (accepted.filter fun m => instrumentOf m = i) ∧
        read.feed.pool.bookForInstrument i =
          some (replay (({} : OrderBook).init (reference i),∅) (read.feed.pool.seen i)).1) ∧
      read.feed.pool.seen i <+: final.feed.pool.seen i ∧
      (read.drained = true → final.feed.pool.bookForInstrument i = read.feed.pool.bookForInstrument i) := by
  have addressed := (Normalizer.priced_ready n reference).addressed
  have split : starts (before ++ after) = starts before ++ starts after := List.filterMap_append
  generalize total : (starts (before ++ after)).flatten = messages at owned
  have own (called : List WireMsg) (member : called ∈ starts (before ++ after)) :
      ∀ m ∈ called, m ≠ .zero ∧ m ∈ messages ∧ instrumentOf m < numInstruments := fun m carried =>
    ⟨(sends called member m carried).1,total ▸ List.mem_flatten_of_mem member carried,(sends called member m carried).2⟩
  rw [split] at own
  have routed (m : WireMsg) (held : m ∈ messages ∧ instrumentOf m < numInstruments) :
      (Normalizer.ready n reference).shardOf m < (Normalizer.ready n reference).numShards := by
    rw [addressed.numShards]
    exact addressed.shardOf_lt positive m held.2
  obtain ⟨accepted,dropped,ledger,_⟩ := ledger_run routed before (ledger_construct n reference expectedMsgs _)
    (fun called member => own called (List.mem_append_left _ member)) ran
  have later := fun called member => own called (List.mem_append_right _ member)
  obtain ⟨_,_,ledger',_⟩ := ledger_run routed after ledger later onward
  obtain ⟨moves,still⟩ := run_onward routed after ledger later onward
  have taken : read.feed.decoded.length = accepted.length +
      ((List.range n).map fun k => (read.feed.pool.shards k).droppedFull).sum := by
    rw [← ledger.received,ledger.counted,← ledger.feeds.dropped,addressed.numShards]
  refine ⟨accepted,ledger.kept,taken,ledger.feeds.handed,fun i inside => ?_⟩
  obtain ⟨shown,book⟩ := ledger_book owned ledger i inside
  refine ⟨⟨shown,book⟩,moves.seen i,fun drained => ?_⟩
  have same : final.feed.pool.seen i = read.feed.pool.seen i := by
    unfold Pool.seen
    rw [moves.toShard,still drained]
  rw [(ledger_book owned ledger' i inside).2,same,book]

/-- After a first call is over, and again when a second one has begun. -/
theorem reads_move_on_three : ∃ actions read final, ∃ accepted : List WireMsg, starts actions = [LiveFeed.threeOrders] ∧
    (construct 2 (fun _ => 10000) 3).run actions = some read ∧ read.run [.start oneAdd] = some final ∧
    read.feed.decoded.length =
      accepted.length + ((List.range 2).map fun k => (read.feed.pool.shards k).droppedFull).sum ∧
    read.feed.pool.seen 0 <+: (accepted.filter fun m => instrumentOf m = 0) ∧
    read.feed.pool.seen 0 <+: final.feed.pool.seen 0 ∧
    final.feed.pool.bookForInstrument 0 = read.feed.pool.bookForInstrument 0 := by
  have typed := LiveFeed.threeOrders_typed
  obtain ⟨read,⟨actions,called,_,_,ran⟩,stopped,drained,room⟩ := reaches_first 2 (fun _ => 10000) 3
    LiveFeed.threeOrders (fun m member => (typed m member).1) (by decide)
  obtain ⟨final,step,_⟩ := reaches_start stopped (room ▸ by decide : oneAdd.length ≤ read.expectedMsgs)
  have onward : read.run [.start oneAdd] = some final := Option.bind_eq_some_iff.mpr ⟨final,step,rfl⟩
  have split : starts (actions ++ [.start oneAdd]) = [LiveFeed.threeOrders,oneAdd] := by
    rw [starts,List.filterMap_append]
    exact congrArg (· ++ [oneAdd]) called
  have sends : ∀ messages ∈ [LiveFeed.threeOrders,oneAdd], ∀ m ∈ messages, m ≠ .zero ∧ instrumentOf m < numInstruments := by
    simpa using ⟨typed,oneAdd_typed⟩
  have own : Replay.OneInstrument [LiveFeed.threeOrders,oneAdd].flatten := by
    simp [LiveFeed.threeOrders,oneAdd,Replay.OneInstrument,WireMsg.orderIds,instrumentOf,WireMsg.header]
  obtain ⟨accepted,_,taken,_,reads⟩ := reads_move_on (by decide : 1 ≤ 2) (fun _ => 10000) 3 actions [.start oneAdd]
    (split ▸ sends) (by rw [split]; exact own)
    read final ran onward
  obtain ⟨⟨shown,_⟩,later,same⟩ := reads 0 (by simp [numInstruments])
  exact ⟨actions,read,final,accepted,called,ran,onward,taken,shown,later,same drained⟩

end LiveSession
end MarketFeed
