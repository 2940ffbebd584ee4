import MarketFeed.PoolProgress
import MarketFeed.Library.Routing

/-! The sharded normalizer computes what a sequential replay of each instrument's
messages computes, for every number of shards and every schedule. -/
namespace MarketFeed

namespace Shard

theorem apply_own (shard : Shard) (item : QueueItem) (ids : Set UInt64) (loc : Nat) (book : OrderBook)
    (orders : OrderMap) (placed : shard.books[loc]? = some book) (agrees : shard.AgreesOn ids orders)
    (here : item.localIdx.toNat = loc) (owns : ∀ id ∈ item.msg.orderIds, id ∈ ids) :
    (shard.apply item).books[loc]? = some (applyToBook item.msg book orders).1 ∧
      (shard.apply item).AgreesOn ids (applyToBook item.msg book orders).2 := by
  rw [applyToBook_eq]
  refine ⟨?_,?_⟩
  · have calls := bookCalls_congr item.msg shard.find orders.lookup fun id carried => agrees id (owns id carried)
    rw [apply_books,here,List.getElem?_modify_eq,placed,calls]
    rfl
  · intro id member
    exact apply_find shard item orders id (fun k carried => agrees k (owns k carried)) (agrees id member)

theorem apply_foreign (shard : Shard) (item : QueueItem) (ids : Set UInt64) (loc : Nat)
    (orders : OrderMap) (agrees : shard.AgreesOn ids orders) (elsewhere : item.localIdx.toNat ≠ loc)
    (foreign : ∀ id ∈ item.msg.orderIds, id ∉ ids) :
    (shard.apply item).books[loc]? = shard.books[loc]? ∧ (shard.apply item).AgreesOn ids orders := by
  refine ⟨?_,?_⟩
  · rw [apply_books,List.getElem?_modify_ne _ _ elsewhere]
  · intro id member
    rw [apply_other shard item id fun carried => foreign id carried member]
    exact agrees id member

theorem replay_book (ids : Set UInt64) (i loc : Nat) (items : List QueueItem) (shard : Shard)
    (book : OrderBook) (orders : OrderMap) (placed : shard.books[loc]? = some book)
    (agrees : shard.AgreesOn ids orders)
    (own : ∀ item ∈ items, instrumentOf item.msg = i →
      item.localIdx.toNat = loc ∧ ∀ id ∈ item.msg.orderIds, id ∈ ids)
    (foreign : ∀ item ∈ items, instrumentOf item.msg ≠ i →
      item.localIdx.toNat ≠ loc ∧ ∀ id ∈ item.msg.orderIds, id ∉ ids) :
    (items.foldl Shard.apply shard).books[loc]? = some (replay (book,orders)
      ((items.map QueueItem.msg).filter fun m => instrumentOf m = i)).1 := by
  induction items generalizing shard book orders with
  | nil => exact placed
  | cons item rest ih =>
    have ownRest := fun x member => own x (List.mem_cons_of_mem _ member)
    have foreignRest := fun x member => foreign x (List.mem_cons_of_mem _ member)
    rw [List.foldl_cons]
    rcases eq_or_ne (instrumentOf item.msg) i with mine | other
    · obtain ⟨here,owns⟩ := own item (List.mem_cons_self ..) mine
      obtain ⟨placed,agrees⟩ := apply_own shard item ids loc book orders placed agrees here owns
      rw [ih _ _ _ placed agrees ownRest foreignRest]
      simp [mine,replay]
    · obtain ⟨elsewhere,strange⟩ := foreign item (List.mem_cons_self ..) other
      obtain ⟨untouched,agrees⟩ := apply_foreign shard item ids loc orders agrees elsewhere strange
      rw [ih _ _ _ (untouched.trans placed) agrees ownRest foreignRest]
      simp [other]

end Shard

/-- `run_normalizer`: one thread dispatches the stream and then drains the workers. -/
structure Replay where
  pool : Pool
  rest : List WireMsg

namespace Replay

inductive Thread where
  | worker (s : Nat)
  | main

/-- The main thread retries a dispatch that found the queue full. -/
def mainStep (r : Replay) : Option Replay :=
  match r.pool.drain with
  | .notCalled =>
    match r.rest with
    | [] => some { r with pool := r.pool.callDrain }
    | m :: rest =>
      let (pushed,pool) := r.pool.dispatch m
      some ⟨pool,if pushed then rest else m :: rest⟩
  | _ => r.pool.drainStep.map fun pool => { r with pool := pool }

def step (r : Replay) : Thread → Option Replay
  | .worker s => (r.pool.workerStep s).map fun pool => { r with pool := pool }
  | .main => r.mainStep

inductive Reaches (start : Replay) : Replay → Prop
  | start : Reaches start start
  | step (r thread next) (before : Reaches start r) (taken : r.step thread = some next) :
      Reaches start next

def init (numShards : Nat) (reference : Nat → Int64) (stream : List WireMsg) : Replay where
  pool := { toNormalizer := Normalizer.ready numShards reference }
  rest := stream

/-- The messages no longer in `rest` have been accepted. -/
structure Consistent (start : Normalizer) (stream : List WireMsg) (r : Replay) (accepted : List WireMsg) :
    Prop where
  split : accepted ++ r.rest = stream
  sound : Pool.Sound start r.pool accepted
  closed : r.pool.drain ≠ .notCalled → r.rest = []

variable {start : Normalizer} {stream accepted : List WireMsg} {r next : Replay}

theorem consistent_main (consistent : Consistent start stream r accepted) (taken : r.mainStep = some next) :
    ∃ accepted, Consistent start stream next accepted := by
  unfold mainStep at taken
  split at taken
  next running =>
    split at taken
    next empty =>
      cases taken
      exact ⟨accepted,consistent.split,consistent.sound.callDrain running,fun _ => empty⟩
    next m rest waiting =>
      cases taken
      have dispatched := consistent.sound.dispatch running m
      have split := consistent.split
      refine ⟨_,?_,dispatched,fun draining => absurd running draining⟩
      rw [waiting] at split
      change _ ++ (if (r.pool.dispatch m).1 then rest else m :: rest) = stream
      split <;> simpa using split
  next draining =>
    obtain ⟨pool,drained,rfl⟩ := Option.map_eq_some_iff.mp taken
    exact ⟨accepted,consistent.split,consistent.sound.drainStep drained,fun _ => consistent.closed draining⟩

theorem consistent_step (consistent : Consistent start stream r accepted) (thread : Thread)
    (taken : r.step thread = some next) : ∃ accepted, Consistent start stream next accepted := by
  cases thread with
  | worker s =>
    obtain ⟨pool,worked,rfl⟩ := Option.map_eq_some_iff.mp taken
    refine ⟨accepted,consistent.split,consistent.sound.worker worked,?_⟩
    obtain ⟨_,shard,pc,rfl,_⟩ := Pool.workerStep_move worked
    exact consistent.closed
  | main => exact consistent_main consistent taken

theorem consistent_reaches (n : Nat) (reference : Nat → Int64)
    (reached : Reaches (init n reference stream) r) :
    ∃ accepted, Consistent (Normalizer.ready n reference) stream r accepted := by
  induction reached with
  | start =>
    have blank := (Normalizer.priced_ready n reference).blank
    exact ⟨[],rfl,Pool.Sound.init blank,fun draining => absurd rfl draining⟩
  | step r thread next before taken ih =>
    obtain ⟨accepted,consistent⟩ := ih
    exact consistent_step consistent thread taken

section Progress
variable {origin : Replay}

theorem reaches_works {pool : Pool} (reached : Reaches origin r) (works : Pool.Works r.pool pool) :
    Reaches origin { r with pool := pool } := by
  induction works with
  | refl => exact reached
  | tail _ step ih =>
    obtain ⟨s,taken⟩ := step
    exact .step _ (.worker s) _ ih (by simp [Replay.step,taken])

theorem reaches_closes {pool : Pool} (reached : Reaches origin r) (closes : Pool.Closes r.pool pool) :
    Reaches origin { r with pool := pool } := by
  induction closes with
  | refl => exact reached
  | tail _ step ih =>
    rcases step with ⟨s,taken⟩ | taken
    · exact .step _ (.worker s) _ ih (by simp [Replay.step,taken])
    · have called := (Pool.drainStep_called taken).1
      refine .step _ .main _ ih ?_
      simp only [Replay.step,mainStep]
      rw [taken]
      rfl

theorem reaches_fed (rest : List WireMsg)
    (routed : ∀ m ∈ stream, start.shardOf m < start.numShards) (reached : Reaches origin r)
    (consistent : Consistent start stream r accepted) (running : r.pool.drain = .notCalled)
    (left : r.rest = rest) :
    ∃ final accepted, Reaches origin final ∧ Consistent start stream final accepted ∧
      final.pool.drain = .notCalled ∧ final.rest = [] := by
  induction rest generalizing r accepted with
  | nil => exact ⟨r,accepted,reached,consistent,running,left⟩
  | cons m rest ih =>
    have sound := consistent.sound
    have split := consistent.split
    rw [left] at split
    have member : m ∈ stream := by
      rw [← split]
      simp
    have going : r.pool.stop = false := by rw [sound.stop,running]; rfl
    have stays : r.pool.workers (start.shardOf m) ≠ .exited := fun gone => by
      simp [sound.left _ gone] at going
    have inside : start.shardOf m < r.pool.numShards := by
      rw [sound.numShards]
      exact routed m member
    obtain ⟨pool,works,_,emptied⟩ := Pool.works_empty inside going stays
    have frame := Pool.works_frame works
    have running' : pool.drain = .notCalled := frame.2.2.trans running
    have sound' := Pool.works_sound works sound
    have shardOf : pool.shardOf m = start.shardOf m := by simp [Normalizer.shardOf,sound'.toShard]
    have pushed : (pool.dispatch m).1 = true := by
      rcases pool.toNormalizer.dispatch_cases m with ⟨full,_⟩ | ⟨_,outcome⟩
      · rw [shardOf,emptied] at full
        simp [kQueueCapacity] at full
      · simp [Pool.dispatch,outcome]
    have taken : mainStep { r with pool := pool } = some ⟨(pool.dispatch m).2,rest⟩ := by
      simp [mainStep,running',left,pushed]
    have ready : Consistent start stream { r with pool := pool } accepted :=
      ⟨consistent.split,sound',fun called => absurd running' called⟩
    obtain ⟨accepted',consistent'⟩ := consistent_main ready taken
    exact ih (.step _ .main _ (reaches_works reached works) taken) consistent' running' rfl

/-- No reachable state is stuck: the run can be completed. -/
theorem can_finish
    (routed : ∀ m ∈ stream, start.shardOf m < start.numShards) (reached : Reaches origin r)
    (consistent : Consistent start stream r accepted) :
    ∃ final, Reaches origin final ∧ final.pool.drain = .returned := by
  have close : ∀ r accepted, Reaches origin r → Pool.Sound start r.pool accepted →
      r.pool.drain ≠ .notCalled → ∃ final, Reaches origin final ∧ final.pool.drain = .returned := by
    intro r accepted reached sound called
    obtain ⟨pool,closes,returned⟩ := Pool.closes_returned sound called
    exact ⟨_,reaches_closes reached closes,returned⟩
  rcases eq_or_ne r.pool.drain .notCalled with running | called
  · obtain ⟨fed,accepted,reached,consistent,running,empty⟩ :=
      reaches_fed r.rest routed reached consistent running rfl
    refine close { fed with pool := fed.pool.callDrain } accepted ?_
      (consistent.sound.callDrain running) (by simp [Pool.callDrain])
    exact .step _ .main _ reached (by simp [Replay.step,mainStep,running,empty])
  · exact close r accepted reached consistent.sound called

theorem init_returns (n : Nat) (positive : 1 ≤ n) (reference : Nat → Int64)
    (known : ∀ m ∈ stream, instrumentOf m < numInstruments) :
    ∃ final, Reaches (init n reference stream) final ∧ ∀ s < n, final.pool.workers s = .exited := by
  have addressed := (Normalizer.priced_ready n reference).addressed
  have routed : ∀ m ∈ stream,
      (Normalizer.ready n reference).shardOf m < (Normalizer.ready n reference).numShards := by
    intro m member
    rw [addressed.numShards]
    exact addressed.shardOf_lt positive m (known m member)
  have begun : Reaches (init n reference stream) (init n reference stream) := .start
  obtain ⟨accepted,consistent⟩ := consistent_reaches n reference begun
  obtain ⟨final,reached,returned⟩ := can_finish routed begun consistent
  obtain ⟨_,ended⟩ := consistent_reaches n reference reached
  refine ⟨final,reached,fun s inside => ended.sound.joined s ?_⟩
  rw [returned,ended.sound.numShards,addressed.numShards]
  exact inside

end Progress

def OneInstrument (stream : List WireMsg) : Prop :=
  ∀ m ∈ stream, ∀ other ∈ stream, ∀ id ∈ m.orderIds, id ∈ other.orderIds →
    instrumentOf m = instrumentOf other

/-- The book of one instrument by `apply_to_book` over its messages alone. -/
def sequential (reference : Nat → Int64) (stream : List WireMsg) (i : Nat) : OrderBook :=
  (replay (({} : OrderBook).init (reference i),∅) (stream.filter fun m => instrumentOf m = i)).1

theorem share_own (start : Normalizer) (accepted : List WireMsg) (i : Nat) :
    ((Pool.share start accepted (start.instrumentToShard i).toNat).map QueueItem.msg).filter
      (fun m => instrumentOf m = i) = accepted.filter fun m => instrumentOf m = i := by
  simp only [Pool.share,List.map_map,List.filter_filter,Function.comp_def,Normalizer.itemOf,List.map_id']
  refine List.filter_congr fun m _ => ?_
  rcases eq_or_ne (instrumentOf m) i with mine | other
  · subst mine
    simp [Normalizer.shardOf,instrumentOf]
  · simp [other]

/-- A book shows the messages of its own that its shard has applied, however many those are. -/
theorem applied_book {n : Nat} {reference : Nat → Int64} {pool : Pool} {accepted : List WireMsg}
    (priced : Normalizer.Priced n numInstruments reference start) (toShard : pool.instrumentToShard = start.instrumentToShard)
    (toLocal : pool.instrumentToLocal = start.instrumentToLocal) (i : Nat)
    (worked : Worked (start.shards (start.instrumentToShard i).toNat) (pool.shards (start.instrumentToShard i).toNat))
    (known : ∀ m ∈ accepted, instrumentOf m < numInstruments) (owned : OneInstrument accepted) (inside : i < numInstruments)
    (applied : (pool.shards (start.instrumentToShard i).toNat).applied <+:
      Pool.share start accepted (start.instrumentToShard i).toNat) :
    pool.bookForInstrument i = some (replay (({} : OrderBook).init (reference i),∅)
      (((pool.shards (start.instrumentToShard i).toNat).applied.map QueueItem.msg).filter
        fun m => instrumentOf m = i)).1 := by
  have addressed := priced.addressed
  have placed := priced.books i inside
  rw [if_pos inside,Normalizer.bookForInstrument] at placed
  have replayed := worked.books.1
  rw [Normalizer.bookForInstrument,toShard,toLocal,replayed]
  have agrees : (start.shards (start.instrumentToShard i).toNat).AgreesOn
      {id | ∃ m ∈ accepted, instrumentOf m = i ∧ id ∈ m.orderIds} ∅ := by
    intro id _
    simp [Shard.find,(priced.blank _).orders]
  refine Shard.replay_book _ i _ _ _ _ _ placed agrees ?_ ?_
  · intro item member mine
    obtain ⟨m,chosen,rfl⟩ := List.mem_map.mp (applied.subset member)
    have carried := (List.mem_filter.mp chosen).1
    subst mine
    exact ⟨rfl,fun id named => ⟨m,carried,rfl,named⟩⟩
  · intro item member other
    obtain ⟨m,chosen,rfl⟩ := List.mem_map.mp (applied.subset member)
    obtain ⟨carried,routed⟩ := List.mem_filter.mp chosen
    refine ⟨?_,?_⟩
    · intro sameLocal
      have sameShard := UInt16.toNat_inj.mp (of_decide_eq_true routed)
      exact other (addressed.inj _ _ (known m carried) inside sameShard (UInt16.toNat_inj.mp sameLocal))
    · intro id named contra
      obtain ⟨m',carried',mine,named'⟩ := contra
      exact other ((owned m carried m' carried' id named named').trans mine)

theorem shared_book {n : Nat} {reference : Nat → Int64} {pool : Pool}
    (priced : Normalizer.Priced n numInstruments reference start) (sound : Pool.Sound start pool accepted)
    (known : ∀ m ∈ accepted, instrumentOf m < numInstruments) (owned : OneInstrument accepted) (i : Nat)
    (inside : i < numInstruments)
    (applied : (pool.shards (start.instrumentToShard i).toNat).applied =
      Pool.share start accepted (start.instrumentToShard i).toNat) :
    pool.bookForInstrument i = some (sequential reference accepted i) := by
  rw [applied_book priced sound.toShard sound.toLocal i (sound.worked _) known owned inside (by rw [applied]),
    applied,share_own]
  rfl

section Exited
variable {n : Nat} {reference : Nat → Int64} (positive : 1 ≤ n)
  (known : ∀ m ∈ stream, instrumentOf m < numInstruments)
  (reached : Reaches (init n reference stream) r) (gone : ∀ s < n, r.pool.workers s = .exited)
include positive reached gone

theorem exited_sound : Pool.Sound (Normalizer.ready n reference) r.pool stream := by
  have numShards := (Normalizer.priced_ready n reference).addressed.numShards
  obtain ⟨accepted,consistent⟩ := consistent_reaches n reference reached
  have sound := consistent.sound
  have stopped := sound.stopped (by rwa [sound.numShards,numShards]) (by rwa [numShards])
  rw [sound.stop] at stopped
  have nothing := consistent.closed (by intro running; simp [running,DrainPc.stopped] at stopped)
  have split := consistent.split
  rw [nothing,List.append_nil] at split
  exact split ▸ sound

theorem exited_applied (s : Nat) (inside : s < n) :
    (r.pool.shards s).applied = Pool.share (Normalizer.ready n reference) stream s := by
  have numShards := (Normalizer.priced_ready n reference).addressed.numShards
  have sound := exited_sound positive reached gone
  exact sound.finished (by rwa [sound.numShards,numShards]) (by rwa [numShards]) s (by rwa [numShards])

include known

theorem exited_book (owned : OneInstrument stream) (i : Nat) (inside : i < numInstruments) :
    r.pool.bookForInstrument i = some (sequential reference stream i) := by
  have priced := Normalizer.priced_ready n reference
  have within : ((Normalizer.ready n reference).instrumentToShard i).toNat < n := by
    rw [priced.addressed.shard i inside]
    exact Nat.mod_lt _ positive
  exact shared_book priced (exited_sound positive reached gone) known owned i inside
    (exited_applied positive reached gone _ within)

theorem exited_once :
    ((List.range n).flatMap fun s => (r.pool.shards s).applied.map QueueItem.msg).Perm stream := by
  have addressed := (Normalizer.priced_ready n reference).addressed
  have routed : ∀ m ∈ stream, (Normalizer.ready n reference).shardOf m < n :=
    fun m member => addressed.shardOf_lt positive m (known m member)
  have each : ∀ s ∈ List.range n, (r.pool.shards s).applied.map QueueItem.msg =
      stream.filter fun m => (Normalizer.ready n reference).shardOf m = s := by
    intro s inside
    rw [exited_applied positive reached gone s (List.mem_range.mp inside)]
    simp [Pool.share,Function.comp_def,Normalizer.itemOf]
  rw [List.flatMap_congr each]
  exact Routing.flatMap_filter_perm stream _ n routed

end Exited

/-- Every message is applied once and in its instrument's order, and every book is the
sequential one, whatever the number of shards and the schedule. -/
theorem sharded_replay (n : Nat) (positive : 1 ≤ n) (reference : Nat → Int64) (stream : List WireMsg)
    (known : ∀ m ∈ stream, instrumentOf m < numInstruments) (owned : OneInstrument stream)
    (final : Replay) (reached : Reaches (init n reference stream) final)
    (gone : ∀ s < n, final.pool.workers s = .exited) :
    ((List.range n).flatMap fun s => (final.pool.shards s).applied.map QueueItem.msg).Perm stream ∧
    (∀ s < n, (final.pool.shards s).processed = (final.pool.shards s).applied.length) ∧
    (∀ i < numInstruments, ((final.pool.shards (i % n)).applied.map QueueItem.msg).filter
      (fun m => instrumentOf m = i) = stream.filter fun m => instrumentOf m = i) ∧
    (∀ i < numInstruments, final.pool.bookForInstrument i = some (sequential reference stream i)) ∧
    ∀ n' ≥ 1, ∀ other, Reaches (init n' reference stream) other →
      (∀ s < n', other.pool.workers s = .exited) →
      ∀ i < numInstruments, other.pool.bookForInstrument i = final.pool.bookForInstrument i := by
  have priced := Normalizer.priced_ready n reference
  refine ⟨exited_once positive known reached gone,?_,?_,?_,?_⟩
  · exact fun s _ => ((exited_sound positive reached gone).worked s).processed
  · intro i inside
    rw [exited_applied positive reached gone _ (Nat.mod_lt _ positive)]
    rw [← priced.addressed.shard i inside]
    exact share_own _ stream i
  · exact exited_book positive known reached gone owned
  · intro n' positive' other reached' gone' i inside
    rw [exited_book positive' known reached' gone' owned i inside,
      exited_book positive known reached gone owned i inside]

theorem sharded_replay_two : ∃ final,
    Reaches (init 2 (fun _ => 10000) [.add ⟨⟨0,0⟩,1,.buy,9990,5⟩,.del ⟨⟨1,0⟩,2⟩]) final ∧
    final.pool.bookForInstrument 0 = some
      (sequential (fun _ => 10000) [.add ⟨⟨0,0⟩,1,.buy,9990,5⟩,.del ⟨⟨1,0⟩,2⟩] 0) := by
  have known : ∀ m ∈ [WireMsg.add ⟨⟨0,0⟩,1,.buy,9990,5⟩,.del ⟨⟨1,0⟩,2⟩], instrumentOf m < numInstruments := by
    simp [instrumentOf,WireMsg.header,numInstruments]
  have owned : OneInstrument [.add ⟨⟨0,0⟩,1,.buy,9990,5⟩,.del ⟨⟨1,0⟩,2⟩] := by
    simp [OneInstrument,WireMsg.orderIds]
  obtain ⟨final,reached,gone⟩ := init_returns 2 (by omega) (fun _ => 10000) known
  have replayed := sharded_replay 2 (by omega) (fun _ => 10000) _ known owned final reached gone
  exact ⟨final,reached,replayed.2.2.2.1 0 (by simp [numInstruments])⟩

end Replay
end MarketFeed
