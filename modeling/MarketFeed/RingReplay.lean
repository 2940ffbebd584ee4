import MarketFeed.RingCalls
import MarketFeed.ShardedReplay

/-! The replay of a stream over the ring buffers themselves. Each load and store of `push`, `pop`
and `size_approx` is a step of its own, sequentially consistent, and the threads interleave at
every one of them. -/
namespace MarketFeed
open SpscRingBuffer Relation

/-- A worker in its loop; within `pop` the ring knows how far the call is. -/
inductive RingWorkerPc where
  | polling
  | popping
  | popped (item : QueueItem)
  | foundEmpty
  | exited

/-- The main thread; within `push` the ring knows how far the call is, and `sizing` has the first
load of `size_approx` behind it. -/
inductive RingMainPc where
  | feeding (rest : List WireMsg)
  | pushing (m : WireMsg) (rest : List WireMsg)
  | waiting (shard : Nat)
  | sizing (shard : Nat) (head : UInt64)
  | joining (shard : Nat)
  | returned

def ringCapacity : UInt64 := UInt64.ofNat kQueueCapacity

/-- The shards' `queue` is not used: `rings` are the queues. -/
structure RingReplay where
  normalizer : Normalizer
  rings : Nat → SpscRingBuffer.State QueueItem
  workers : Nat → RingWorkerPc := fun _ => .polling
  stop : Bool := false
  main : RingMainPc

namespace RingReplay

def init (numShards : Nat) (reference : Nat → Int64) (buffer : UInt64 → QueueItem) (stream : List WireMsg) :
    RingReplay where
  normalizer := Normalizer.ready numShards reference
  rings _ := SpscRingBuffer.init buffer
  main := .feeding stream

/-- A worker's step moves its own ring, its own shard and itself. -/
def move (c : RingReplay) (s : Nat) (ring : SpscRingBuffer.State QueueItem) (pc : RingWorkerPc) : RingReplay :=
  { c with rings := Function.update c.rings s ring, workers := Function.update c.workers s pc }

def onShard (c : RingReplay) (s : Nat) (shard : Shard) : RingReplay :=
  { c with normalizer := { c.normalizer with shards := Function.update c.normalizer.shards s shard } }

def workerStep (c : RingReplay) (s : Nat) : Option RingReplay :=
  if s < c.normalizer.numShards then
    match c.workers s with
    | .polling => (SpscRingBuffer.step ringCapacity (c.rings s) .pop).map fun (_,ring) => c.move s ring .popping
    | .popping => (SpscRingBuffer.step ringCapacity (c.rings s) .consumer).map fun (event,ring) =>
      match event with
      | some (.popped item) => c.move s ring (.popped item)
      | some _ => c.move s ring .foundEmpty
      | none => c.move s ring .popping
    | .popped item => some ((c.onShard s ((c.normalizer.shards s).work item)).move s (c.rings s) .polling)
    | .foundEmpty => some (c.move s (c.rings s) (if c.stop then .exited else .polling))
    | .exited => none
  else none

/-- A step of the main thread on the ring of shard `s`. -/
def feed (c : RingReplay) (s : Nat) (ring : SpscRingBuffer.State QueueItem) (main : RingMainPc) : RingReplay :=
  { c with rings := Function.update c.rings s ring, main := main }

/-- One more message dropped; `dispatch` then returns false and is called again. -/
def refuse (c : RingReplay) (s : Nat) : RingReplay :=
  c.onShard s { c.normalizer.shards s with droppedFull := (c.normalizer.shards s).droppedFull + 1 }

def mainStep (c : RingReplay) : Option RingReplay :=
  match c.main with
  | .feeding [] => some { c with main := .waiting 0 }
  | .feeding (m :: rest) =>
    let s := c.normalizer.shardOf m
    (SpscRingBuffer.step ringCapacity (c.rings s) (.push (c.normalizer.itemOf m))).map fun (_,ring) =>
      c.feed s ring (.pushing m rest)
  | .pushing m rest =>
    let s := c.normalizer.shardOf m
    (SpscRingBuffer.step ringCapacity (c.rings s) .producer).map fun (event,ring) =>
      match event with
      | some (.pushed _) => c.feed s ring (.feeding rest)
      | some _ => (c.refuse s).feed s ring (.feeding (m :: rest))
      | none => c.feed s ring (.pushing m rest)
  | .waiting j =>
    if j < c.normalizer.numShards then some { c with main := .sizing j (c.rings j).head }
    else some { c with stop := true, main := .joining 0 }
  | .sizing j head =>
    let size := (head - (c.rings j).tail) &&& kMask ringCapacity
    some { c with main := if size > 0 then .waiting j else .waiting (j + 1) }
  | .joining j =>
    if j < c.normalizer.numShards then
      match c.workers j with
      | .exited => some { c with main := .joining (j + 1) }
      | _ => none
    else some { c with main := .returned }
  | .returned => none

def step (c : RingReplay) : Replay.Thread → Option RingReplay
  | .worker s => c.workerStep s
  | .main => c.mainStep

def Steps (c next : RingReplay) : Prop := ∃ thread, c.step thread = some next

end RingReplay

/-- Over the queues a call of `pop` or `push` is one step, the access that decides it. -/
def RingWorkerPc.plain : RingWorkerPc → WorkerPc
  | .polling => .polling
  | .popping => .polling
  | .popped item => .popped item
  | .foundEmpty => .foundEmpty
  | .exited => .exited

def RingWorkerPc.inCall : RingWorkerPc → Bool
  | .popping => true
  | _ => false

namespace RingMainPc

def inCall : RingMainPc → Bool
  | .pushing _ _ => true
  | .sizing _ _ => true
  | _ => false

def drain : RingMainPc → DrainPc
  | .feeding _ => .notCalled
  | .pushing _ _ => .notCalled
  | .waiting j => .waiting j
  | .sizing j _ => .waiting j
  | .joining j => .joining j
  | .returned => .returned

def rest : RingMainPc → List WireMsg
  | .feeding rest => rest
  | .pushing m rest => m :: rest
  | _ => []

/-- The item on its way into the ring of shard `s`. -/
def carries (nz : Normalizer) (s : Nat) : RingMainPc → Option QueueItem
  | .pushing m _ => if s = nz.shardOf m then some (nz.itemOf m) else none
  | _ => none

end RingMainPc

theorem Shard.work_held (shard : Shard) (item : QueueItem) (queue : List QueueItem) :
    { shard.work item with queue := queue } = ({ shard with queue := queue } : Shard).work item := by
  have reduced : ∀ id qty, { shard.reduceOrder item.localIdx id qty with queue := queue } =
      ({ shard with queue := queue } : Shard).reduceOrder item.localIdx id qty := by
    intro id qty
    simp only [Shard.reduceOrder]
    cases shard.orders.lookup id with
    | none => rfl
    | some loc =>
      simp only
      split <;> rfl
  have applied : { shard.apply item with queue := queue } = ({ shard with queue := queue } : Shard).apply item := by
    obtain ⟨msg,localIdx⟩ := item
    cases msg with
    | zero => rfl
    | add a => rfl
    | exec e => exact reduced e.orderId e.execQty
    | cancel c => exact reduced c.orderId c.cancelQty
    | del d =>
      simp only [Shard.apply]
      cases shard.orders.lookup d.orderId <;> rfl
    | replace r =>
      simp only [Shard.apply]
      cases shard.orders.lookup r.oldOrderId <;> rfl
  simp only [Shard.work,← applied]

namespace RingReplay

/-- The replay over queues that hold what the rings hold. -/
def queued (c : RingReplay) (queue : Nat → List QueueItem) : Replay where
  pool :=
    { numShards := c.normalizer.numShards
      shards := fun s => { c.normalizer.shards s with queue := queue s }
      instrumentToShard := c.normalizer.instrumentToShard
      instrumentToLocal := c.normalizer.instrumentToLocal
      workers := fun s => (c.workers s).plain
      stop := c.stop
      drain := c.main.drain }
  rest := c.main.rest

/-- A call of this thread has begun and is not decided. -/
def inCall (c : RingReplay) : Replay.Thread → Bool
  | .worker s => (c.workers s).inCall
  | .main => c.main.inCall

/-- The accesses this thread may still make before one that decides a call. -/
def left (c : RingReplay) : Replay.Thread → Nat
  | .worker s =>
    match c.workers s with
    | .polling => 4
    | .popping => (c.rings s).consumer.left
    | _ => 0
  | .main =>
    match c.main with
    | .feeding _ => 4
    | .pushing m _ => (c.rings (c.normalizer.shardOf m)).producer.left
    | .waiting _ => 1
    | _ => 0

/-- What holds between any two accesses, `queue` being what the rings stand for. -/
structure Holds (c : RingReplay) (queue : Nat → List QueueItem) : Prop where
  rings : ∀ s, Holding ringCapacity (c.rings s) (queue s)
  popping : ∀ s, (c.rings s).consumer = .idle ↔ c.workers s ≠ .popping
  pushing : ∀ s, (c.rings s).producer.item = c.main.carries c.normalizer s
  sizing : ∀ j head, c.main = .sizing j head → j < c.normalizer.numShards ∧ head = (c.rings j).head

/-- A step of a thread begins or continues a call, with nothing to show for it above, or decides
one, which is the thread's step there. -/
inductive Shown (c : RingReplay) (queue : Nat → List QueueItem) (t : Replay.Thread) (next : RingReplay)
    (queue' : Nat → List QueueItem) : Prop
  | within (inCall : next.inCall t = true) (nearer : next.left t < c.left t) (same : next.queued queue' = c.queued queue)
  | decided (ended : next.inCall t = false) (taken : (c.queued queue).step t = some (next.queued queue'))

theorem ringCapacity_toNat : ringCapacity.toNat = kQueueCapacity :=
  UInt64.toNat_ofNat_of_lt (by norm_num [kQueueCapacity,UInt64.size])

theorem ringCapacity_power : ringCapacity &&& (ringCapacity - 1) = 0 := by decide

theorem ringCapacity_positive : 1 ≤ ringCapacity := by decide

section Moves
variable (c : RingReplay) (queue : Nat → List QueueItem) (s : Nat) (ring : SpscRingBuffer.State QueueItem)
  (shard : Shard) (pc : RingWorkerPc) (main : RingMainPc) (held : List QueueItem)

theorem onShard_self : c.onShard s (c.normalizer.shards s) = c := by
  simp [onShard]

theorem queued_work : ((c.onShard s shard).move s ring pc).queued (Function.update queue s held) =
    { c.queued queue with pool := (c.queued queue).pool.move s { shard with queue := held } pc.plain } := by
  simp only [queued,move,onShard,Pool.move,Replay.mk.injEq,Pool.mk.injEq,Normalizer.mk.injEq,and_true,true_and]
  refine ⟨?_,?_⟩
  · funext k
    rcases eq_or_ne k s with rfl | other
    · simp
    · simp [other]
  · funext k
    rcases eq_or_ne k s with rfl | other
    · simp
    · simp [other]

theorem queued_move : (c.move s ring pc).queued (Function.update queue s held) = { c.queued queue with
    pool := (c.queued queue).pool.move s { c.normalizer.shards s with queue := held } pc.plain } := by
  have moved := queued_work c queue s ring (c.normalizer.shards s) pc held
  rwa [onShard_self] at moved

/-- Within a call nothing moves above. -/
theorem queued_within (same : pc.plain = (c.workers s).plain) :
    (c.move s ring pc).queued (Function.update queue s (queue s)) = c.queued queue := by
  have unmoved : (c.queued queue).pool.move s { c.normalizer.shards s with queue := queue s } (c.workers s).plain =
      (c.queued queue).pool := by
    simp only [Pool.move,queued]
    congr 1
    · simp only [Normalizer.mk.injEq,and_true,true_and]
      exact Function.update_eq_self s _
    · exact Function.update_eq_self s _
  rw [queued_move,same,unmoved]

theorem queued_feed : ((c.onShard s shard).feed s ring main).queued (Function.update queue s held) =
    { pool := { (c.queued queue).pool with
        shards := Function.update (c.queued queue).pool.shards s { shard with queue := held }
        drain := main.drain }
      rest := main.rest } := by
  simp only [queued,feed,onShard,Replay.mk.injEq,Pool.mk.injEq,Normalizer.mk.injEq,and_true,true_and]
  funext k
  rcases eq_or_ne k s with rfl | other
  · simp
  · simp [other]

theorem queued_push : (c.feed s ring main).queued (Function.update queue s held) =
    { pool := { (c.queued queue).pool with
        shards := Function.update (c.queued queue).pool.shards s { c.normalizer.shards s with queue := held }
        drain := main.drain }
      rest := main.rest } := by
  have fed := queued_feed c queue s ring (c.normalizer.shards s) main held
  rwa [onShard_self] at fed

theorem queued_pushing (drain : main.drain = c.main.drain) (rest : main.rest = c.main.rest) :
    (c.feed s ring main).queued (Function.update queue s (queue s)) = c.queued queue := by
  have unmoved : Function.update (c.queued queue).pool.shards s { c.normalizer.shards s with queue := queue s } =
      (c.queued queue).pool.shards := Function.update_eq_self s _
  rw [queued_push,unmoved,drain,rest]
  rfl

end Moves

variable {c next : RingReplay} {queue : Nat → List QueueItem} {s : Nat} {ring : SpscRingBuffer.State QueueItem}
  (holds : Holds c queue)
include holds

theorem Holds.work (shard : Shard) (pc : RingWorkerPc) (held : List QueueItem)
    (holding : Holding ringCapacity ring held) (idle : ring.consumer = .idle ↔ pc ≠ .popping)
    (producer : ring.producer = (c.rings s).producer) (head : ring.head = (c.rings s).head) :
    Holds ((c.onShard s shard).move s ring pc) (Function.update queue s held) := by
  refine ⟨?_,?_,?_,?_⟩
  · intro k
    rcases eq_or_ne k s with rfl | other
    · simpa [move] using holding
    · simpa [move,onShard,other] using holds.rings k
  · intro k
    rcases eq_or_ne k s with rfl | other
    · simpa [move] using idle
    · simpa [move,onShard,other] using holds.popping k
  · intro k
    refine Eq.trans ?_ (holds.pushing k)
    rcases eq_or_ne k s with rfl | other
    · simp [move,producer]
    · simp [move,onShard,other]
  · intro j loaded located
    obtain ⟨inside,same⟩ := holds.sizing j loaded located
    refine ⟨inside,?_⟩
    rcases eq_or_ne j s with rfl | other
    · simpa [move,head] using same
    · simpa [move,onShard,other] using same

theorem Holds.move (pc : RingWorkerPc) (held : List QueueItem)
    (holding : Holding ringCapacity ring held) (idle : ring.consumer = .idle ↔ pc ≠ .popping)
    (producer : ring.producer = (c.rings s).producer) (head : ring.head = (c.rings s).head) :
    Holds (c.move s ring pc) (Function.update queue s held) := by
  have moved := holds.work (c.normalizer.shards s) pc held holding idle producer head
  rwa [onShard_self] at moved

theorem Holds.feed (shard : Shard) (main : RingMainPc) (held : List QueueItem)
    (holding : Holding ringCapacity ring held) (consumer : ring.consumer = (c.rings s).consumer)
    (carried : ring.producer.item = main.carries c.normalizer s)
    (others : ∀ k ≠ s, main.carries c.normalizer k = c.main.carries c.normalizer k)
    (resting : ∀ j head, main ≠ .sizing j head) :
    Holds ((c.onShard s shard).feed s ring main) (Function.update queue s held) := by
  refine ⟨?_,?_,?_,?_⟩
  · intro k
    rcases eq_or_ne k s with rfl | other
    · simpa [RingReplay.feed] using holding
    · simpa [RingReplay.feed,onShard,other] using holds.rings k
  · intro k
    rcases eq_or_ne k s with rfl | other
    · simpa [RingReplay.feed,onShard,consumer] using holds.popping k
    · simpa [RingReplay.feed,onShard,other] using holds.popping k
  · intro k
    rcases eq_or_ne k s with rfl | other
    · simp only [RingReplay.feed,onShard,Function.update_self]
      exact carried
    · simp only [RingReplay.feed,onShard,Function.update_of_ne other]
      exact (holds.pushing k).trans (others k other).symm
  · intro j head located
    exact absurd located (resting j head)

theorem Holds.push (main : RingMainPc) (held : List QueueItem)
    (holding : Holding ringCapacity ring held) (consumer : ring.consumer = (c.rings s).consumer)
    (carried : ring.producer.item = main.carries c.normalizer s)
    (others : ∀ k ≠ s, main.carries c.normalizer k = c.main.carries c.normalizer k)
    (resting : ∀ j head, main ≠ .sizing j head) :
    Holds (c.feed s ring main) (Function.update queue s held) := by
  have fed := holds.feed (c.normalizer.shards s) main held holding consumer carried others resting
  rwa [onShard_self] at fed

theorem Holds.main (main : RingMainPc) (resting : ∀ k, c.main.carries c.normalizer k = none)
    (silent : ∀ k, main.carries c.normalizer k = none)
    (sizing : ∀ j head, main = .sizing j head → j < c.normalizer.numShards ∧ head = (c.rings j).head) (stop : Bool) :
    Holds { c with stop := stop, main := main } queue := by
  refine ⟨holds.rings,holds.popping,?_,sizing⟩
  intro k
  exact ((holds.pushing k).trans (resting k)).trans (silent k).symm

end RingReplay
end MarketFeed
