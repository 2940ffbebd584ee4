import MarketFeed.Sharding

/-! The worker threads and the shutdown handshake around a normalizer, step by step.
Every accepted message stays accounted for: applied, in a worker's hands or queued. -/
namespace MarketFeed

inductive WorkerPc where
  | polling
  | popped (item : QueueItem)
  | foundEmpty
  | exited

inductive DrainPc where
  | notCalled
  | waiting (shard : Nat)
  | joining (shard : Nat)
  | returned

structure Pool extends Normalizer where
  workers : Nat → WorkerPc := fun _ => .polling
  stop : Bool := false
  drain : DrainPc := .notCalled

namespace Pool

def move (p : Pool) (s : Nat) (shard : Shard) (pc : WorkerPc) : Pool :=
  { p with
    shards := Function.update p.shards s shard
    workers := Function.update p.workers s pc }

def workerStep (p : Pool) (s : Nat) : Option Pool :=
  if s < p.numShards then
    match p.workers s with
    | .polling =>
      match (p.shards s).queue with
      | [] => some (p.move s (p.shards s) .foundEmpty)
      | item :: rest => some (p.move s { p.shards s with queue := rest } (.popped item))
    | .popped item => some (p.move s ((p.shards s).work item) .polling)
    | .foundEmpty => some (p.move s (p.shards s) (if p.stop then .exited else .polling))
    | .exited => none
  else none

def drainStep (p : Pool) : Option Pool :=
  match p.drain with
  | .notCalled => none
  | .waiting j =>
    if j < p.numShards then
      if (p.shards j).queue.length > 0 then some p else some { p with drain := .waiting (j + 1) }
    else some { p with stop := true, drain := .joining 0 }
  | .joining j =>
    if j < p.numShards then
      match p.workers j with
      | .exited => some { p with drain := .joining (j + 1) }
      | _ => none
    else some { p with drain := .returned }
  | .returned => none

def callDrain (p : Pool) : Pool := { p with drain := .waiting 0 }

def dispatch (p : Pool) (m : WireMsg) : Bool × Pool :=
  ((p.toNormalizer.dispatch m).1,{ p with toNormalizer := (p.toNormalizer.dispatch m).2 })

end Pool

def WorkerPc.inFlight : WorkerPc → List QueueItem
  | .popped item => [item]
  | _ => []

/-- Everything a shard was handed, oldest first. -/
def handed (shard : Shard) (pc : WorkerPc) : List QueueItem := shard.applied ++ pc.inFlight ++ shard.queue

namespace Shard

def SameBooks (shard other : Shard) : Prop := shard.books = other.books ∧ shard.orders = other.orders

theorem reduceOrder_sameBooks {shard other : Shard} (same : shard.SameBooks other) (localIdx : UInt16)
    (id : UInt64) (qty : UInt32) :
    (shard.reduceOrder localIdx id qty).SameBooks (other.reduceOrder localIdx id qty) := by
  simp only [reduceOrder,same.2]
  cases other.orders.lookup id with
  | none => exact same
  | some loc =>
    simp only [onBook,same.1,same.2]
    split <;> exact ⟨rfl,rfl⟩

theorem apply_sameBooks {shard other : Shard} (same : shard.SameBooks other) (item : QueueItem) :
    (shard.apply item).SameBooks (other.apply item) := by
  have books := same.1
  have orders := same.2
  obtain ⟨msg,localIdx⟩ := item
  cases msg with
  | zero => exact same
  | add a => exact ⟨by simp only [apply,onBook,books],by simp only [apply,onBook,orders]⟩
  | exec e => exact reduceOrder_sameBooks same localIdx e.orderId e.execQty
  | cancel c => exact reduceOrder_sameBooks same localIdx c.orderId c.cancelQty
  | del d =>
    simp only [apply,orders]
    cases other.orders.lookup d.orderId with
    | none => exact same
    | some loc => exact ⟨by simp only [onBook,books],by simp only [onBook,orders]⟩
  | replace r =>
    simp only [apply,orders]
    cases other.orders.lookup r.oldOrderId with
    | none => exact same
    | some loc => exact ⟨by simp only [onBook,books],by simp only [onBook,orders]⟩

theorem apply_frame (shard : Shard) (item : QueueItem) :
    ∃ books orders, shard.apply item = { shard with books := books, orders := orders } := by
  have reduced : ∀ id qty, ∃ books orders, shard.reduceOrder item.localIdx id qty =
      { shard with books := books, orders := orders } := by
    intro id qty
    unfold reduceOrder
    cases shard.orders.lookup id with
    | none => exact ⟨_,_,rfl⟩
    | some loc =>
      simp only
      split <;> exact ⟨_,_,rfl⟩
  obtain ⟨msg,localIdx⟩ := item
  cases msg with
  | zero => exact ⟨_,_,rfl⟩
  | add a => exact ⟨_,_,rfl⟩
  | exec e => exact reduced e.orderId e.execQty
  | cancel c => exact reduced c.orderId c.cancelQty
  | del d =>
    simp only [apply]
    cases shard.orders.lookup d.orderId <;> exact ⟨_,_,rfl⟩
  | replace r =>
    simp only [apply]
    cases shard.orders.lookup r.oldOrderId <;> exact ⟨_,_,rfl⟩

theorem work_queue (shard : Shard) (item : QueueItem) : (shard.work item).queue = shard.queue := by
  obtain ⟨books,orders,framed⟩ := apply_frame shard item
  simp [work,framed]

end Shard

structure Worked (start shard : Shard) : Prop where
  books : shard.SameBooks (shard.applied.foldl Shard.apply start)
  processed : shard.processed = shard.applied.length

theorem worked_work {start shard : Shard} (worked : Worked start shard) (item : QueueItem) :
    Worked start (shard.work item) := by
  refine ⟨?_,?_⟩
  · have applied := Shard.apply_sameBooks worked.books item
    simpa [Shard.work,Shard.SameBooks] using applied
  · simp [Shard.work,worked.processed]

theorem worked_push {start shard : Shard} (worked : Worked start shard) (item : QueueItem) :
    Worked start (shard.push item).2 := by
  unfold Shard.push
  split
  · exact ⟨worked.books,worked.processed⟩
  · exact ⟨worked.books,worked.processed⟩

inductive WorkerMove (stop : Bool) (shard : Shard) : WorkerPc → Shard → WorkerPc → Prop
  | pop (item rest) (head : shard.queue = item :: rest) :
      WorkerMove stop shard .polling { shard with queue := rest } (.popped item)
  | miss (empty : shard.queue = []) : WorkerMove stop shard .polling shard .foundEmpty
  | apply (item) : WorkerMove stop shard (.popped item) (shard.work item) .polling
  | again : WorkerMove stop shard .foundEmpty shard .polling
  | leave (stopped : stop = true) : WorkerMove stop shard .foundEmpty shard .exited

namespace WorkerMove

variable {stop : Bool} {start shard next : Shard} {pc after : WorkerPc}
  (move : WorkerMove stop shard pc next after)
include move

theorem handed_eq : handed next after = handed shard pc := by
  cases move with
  | pop item rest head => simp [handed,WorkerPc.inFlight,head]
  | apply item =>
    simp [handed,WorkerPc.inFlight,Shard.work_queue]
    simp [Shard.work]
  | _ => rfl

theorem worked (before : Worked start shard) : Worked start next := by
  cases move with
  | pop item rest head => exact ⟨before.books,before.processed⟩
  | apply item => exact worked_work before item
  | _ => exact before

theorem queue_empty (empty : shard.queue = []) : next.queue = [] := by
  cases move with
  | pop item rest head => simp [empty] at head
  | apply item => rwa [Shard.work_queue]
  | _ => exact empty

theorem queue_shorter : next.queue.length ≤ shard.queue.length := by
  cases move with
  | pop item rest head => simp [head]
  | apply item => rw [Shard.work_queue]
  | _ => exact Nat.le_refl _

theorem queue_runs (bound : Nat) : ∃ events, BoundedQueue.Runs bound shard.queue events next.queue := by
  cases move with
  | pop item rest head =>
    rw [head]
    exact ⟨_,.snoc _ [] _ _ _ (.nil _) (.popped item rest)⟩
  | miss empty =>
    rw [empty]
    exact ⟨_,.snoc _ [] _ _ _ (.nil _) .empty⟩
  | apply item =>
    rw [Shard.work_queue]
    exact ⟨_,.nil _⟩
  | again | leave => exact ⟨_,.nil _⟩

theorem exited (gone : after = .exited) : stop = true := by
  cases move with
  | leave stopped => exact stopped
  | _ => cases gone

end WorkerMove

namespace DrainPc

def drained (n : Nat) : DrainPc → Nat
  | .notCalled => 0
  | .waiting j => j
  | .joining _ => n
  | .returned => n

def joined (n : Nat) : DrainPc → Nat
  | .joining j => j
  | .returned => n
  | _ => 0

def stopped : DrainPc → Bool
  | .joining _ => true
  | .returned => true
  | _ => false

end DrainPc

namespace Pool

theorem workerStep_move {p next : Pool} {s : Nat} (step : p.workerStep s = some next) :
    s < p.numShards ∧ ∃ shard pc, next = p.move s shard pc ∧
      WorkerMove p.stop (p.shards s) (p.workers s) shard pc := by
  unfold workerStep at step
  split at step
  next inside =>
    refine ⟨inside,?_⟩
    split at step
    next located =>
      rw [located]
      split at step
      next empty =>
        cases step
        exact ⟨_,_,rfl,.miss empty⟩
      next item rest head =>
        cases step
        exact ⟨_,_,rfl,.pop item rest head⟩
    next item located =>
      cases step
      rw [located]
      exact ⟨_,_,rfl,.apply item⟩
    next located =>
      cases step
      rw [located]
      cases stopped : p.stop with
      | true => exact ⟨_,_,rfl,.leave rfl⟩
      | false => exact ⟨_,_,rfl,.again⟩
    next => cases step
  next => cases step

def share (start : Normalizer) (accepted : List WireMsg) (s : Nat) : List QueueItem :=
  (accepted.filter fun m => start.shardOf m = s).map start.itemOf

/-- What holds between any two steps, `accepted` being the messages dispatched with success. -/
structure Sound (start : Normalizer) (p : Pool) (accepted : List WireMsg) : Prop where
  numShards : p.numShards = start.numShards
  toShard : p.instrumentToShard = start.instrumentToShard
  toLocal : p.instrumentToLocal = start.instrumentToLocal
  worked : ∀ s, Worked (start.shards s) (p.shards s)
  handed : ∀ s, handed (p.shards s) (p.workers s) = share start accepted s
  bounded : ∀ s, (p.shards s).queue.length ≤ kQueueCapacity - 1
  stop : p.stop = p.drain.stopped
  drained : ∀ s < p.drain.drained p.numShards, (p.shards s).queue = []
  left : ∀ s, p.workers s = .exited → p.stop = true
  joined : ∀ s < p.drain.joined p.numShards, p.workers s = .exited

namespace Sound

variable {start : Normalizer} {p next : Pool} {accepted : List WireMsg}

theorem init (blank : ∀ s, Normalizer.Blank (start.shards s)) :
    Sound start { toNormalizer := start } [] where
  numShards := rfl
  toShard := rfl
  toLocal := rfl
  worked s := ⟨by rw [(blank s).applied]; exact ⟨rfl,rfl⟩,by rw [(blank s).processed,(blank s).applied]; rfl⟩
  handed s := by simp [MarketFeed.handed,share,WorkerPc.inFlight,(blank s).applied,(blank s).queue]
  bounded s := by simp [(blank s).queue]
  stop := rfl
  drained := by simp [DrainPc.drained]
  left := by simp
  joined := by simp [DrainPc.joined]

theorem worker (sound : Sound start p accepted) {s : Nat} (step : p.workerStep s = some next) :
    Sound start next accepted := by
  obtain ⟨_,shard,pc,rfl,move⟩ := workerStep_move step
  refine ⟨sound.numShards,sound.toShard,sound.toLocal,?_,?_,?_,sound.stop,?_,?_,?_⟩
  · intro k
    rcases eq_or_ne k s with rfl | other
    · simpa [Pool.move] using move.worked (sound.worked k)
    · simpa [Pool.move,other] using sound.worked k
  · intro k
    rcases eq_or_ne k s with rfl | other
    · simpa [Pool.move,move.handed_eq] using sound.handed k
    · simpa [Pool.move,other] using sound.handed k
  · intro k
    rcases eq_or_ne k s with rfl | other
    · obtain ⟨_,runs⟩ := move.queue_runs (kQueueCapacity - 1)
      simpa [Pool.move] using runs.length_le (sound.bounded k)
    · simpa [Pool.move,other] using sound.bounded k
  · intro k inside
    rcases eq_or_ne k s with rfl | other
    · simpa [Pool.move] using move.queue_empty (sound.drained k inside)
    · simpa [Pool.move,other] using sound.drained k inside
  · intro k gone
    rcases eq_or_ne k s with rfl | other
    · exact move.exited (by simpa [Pool.move] using gone)
    · exact sound.left k (by simpa [Pool.move,other] using gone)
  · intro k inside
    have gone := sound.joined k inside
    have other : k ≠ s := by
      rintro rfl
      rw [gone] at move
      cases move
    simpa [Pool.move,other] using gone

theorem callDrain (sound : Sound start p accepted) (running : p.drain = .notCalled) :
    Sound start p.callDrain accepted := by
  have stop := sound.stop
  rw [running] at stop
  exact ⟨sound.numShards,sound.toShard,sound.toLocal,sound.worked,sound.handed,sound.bounded,stop,
    by simp [Pool.callDrain,DrainPc.drained],sound.left,by simp [Pool.callDrain,DrainPc.joined]⟩

theorem drainStep (sound : Sound start p accepted) (step : p.drainStep = some next) :
    Sound start next accepted := by
  obtain ⟨numShards,toShard,toLocal,worked,handed,bounded,stop,drained,left,joined⟩ := sound
  unfold Pool.drainStep at step
  split at step
  next => cases step
  next j located =>
    rw [located] at stop drained joined
    split at step
    next inside =>
      split at step
      next =>
        cases step
        rw [← located] at stop drained joined
        exact ⟨numShards,toShard,toLocal,worked,handed,bounded,stop,drained,left,joined⟩
      next empty =>
        cases step
        have seen : (p.shards j).queue = [] := List.length_eq_zero_iff.mp (by omega)
        refine ⟨numShards,toShard,toLocal,worked,handed,bounded,stop,?_,left,joined⟩
        intro s inside
        rcases Nat.lt_succ_iff_lt_or_eq.mp inside with earlier | rfl
        · exact drained s earlier
        · exact seen
    next all =>
      cases step
      refine ⟨numShards,toShard,toLocal,worked,handed,bounded,rfl,?_,fun _ _ => rfl,by simp [DrainPc.joined]⟩
      intro s inside
      exact drained s (by simp only [DrainPc.drained] at inside ⊢; omega)
  next j located =>
    rw [located] at stop drained joined
    split at step
    next inside =>
      split at step
      next gone =>
        cases step
        refine ⟨numShards,toShard,toLocal,worked,handed,bounded,stop,drained,left,?_⟩
        intro s inside
        rcases Nat.lt_succ_iff_lt_or_eq.mp inside with earlier | rfl
        · exact joined s earlier
        · exact gone
      next => cases step
    next all =>
      cases step
      refine ⟨numShards,toShard,toLocal,worked,handed,bounded,stop,drained,left,?_⟩
      intro s inside
      exact joined s (by simp only [DrainPc.joined] at inside ⊢; omega)
  next => cases step

/-- Dispatching is over before the drain starts, so only the queue of one shard grows. -/
theorem dispatch (sound : Sound start p accepted) (running : p.drain = .notCalled) (m : WireMsg) :
    Sound start (p.dispatch m).2 (if (p.dispatch m).1 then accepted ++ [m] else accepted) := by
  obtain ⟨numShards,toShard,toLocal,worked,handed,bounded,stop,drained,left,joined⟩ := sound
  have shardOf : p.shardOf m = start.shardOf m := by simp [Normalizer.shardOf,toShard]
  have itemOf : p.itemOf m = start.itemOf m := by simp [Normalizer.itemOf,toLocal]
  have none : ∀ P : Nat → Prop, (∀ s < p.drain.drained p.numShards, P s) ∧
      (∀ s < p.drain.joined p.numShards, P s) := by
    simp [running,DrainPc.drained,DrainPc.joined]
  have queues : ∀ s, ((p.dispatch m).2.shards s).queue.length ≤ kQueueCapacity - 1 := by
    intro s
    simp only [Pool.dispatch,Normalizer.dispatch]
    rcases eq_or_ne s (p.shardOf m) with rfl | other
    · have step := Shard.push_step _ (p.itemOf m) (bounded (p.shardOf m))
      simpa using step.length_le (bounded (p.shardOf m))
    · simpa [other] using bounded s
  have working : ∀ s, Worked (start.shards s) ((p.dispatch m).2.shards s) := by
    intro s
    simp only [Pool.dispatch,Normalizer.dispatch]
    rcases eq_or_ne s (p.shardOf m) with rfl | other
    · simpa using worked_push (worked _) (p.itemOf m)
    · simpa [other] using worked s
  rcases p.toNormalizer.dispatch_cases m with ⟨full,outcome⟩ | ⟨room,outcome⟩
  · simp only [Pool.dispatch,outcome] at queues working ⊢
    refine ⟨numShards,toShard,toLocal,working,fun s => ?_,queues,stop,(none _).1,left,(none _).2⟩
    rcases eq_or_ne s (p.shardOf m) with rfl | other
    · simpa [MarketFeed.handed] using handed (p.shardOf m)
    · simpa [other] using handed s
  · simp only [Pool.dispatch,outcome] at queues working ⊢
    refine ⟨numShards,toShard,toLocal,working,fun s => ?_,queues,stop,(none _).1,left,(none _).2⟩
    have before := handed s
    rcases eq_or_ne s (p.shardOf m) with rfl | other
    · simp only [MarketFeed.handed,shardOf] at before ⊢
      simp [share,List.filter_append,← List.append_assoc,before,itemOf]
    · have elsewhere : start.shardOf m ≠ s := by rw [← shardOf]; exact other.symm
      simpa [other,share,List.filter_append,elsewhere] using before

section Finished
variable (sound : Sound start p accepted)
include sound

theorem stopped (gone : ∀ s < p.numShards, p.workers s = .exited) (positive : 1 ≤ start.numShards) :
    p.stop = true := by
  rw [← sound.numShards] at positive
  exact sound.left 0 (gone 0 positive)

theorem finished (gone : ∀ s < p.numShards, p.workers s = .exited) (positive : 1 ≤ start.numShards)
    (s : Nat) (inside : s < start.numShards) : (p.shards s).applied = share start accepted s := by
  rw [← sound.numShards] at inside
  have stopped := sound.stopped gone positive
  have emptied : (p.shards s).queue = [] := by
    refine sound.drained s ?_
    rw [sound.stop] at stopped
    cases located : p.drain with
    | notCalled | waiting j => simp [located,DrainPc.stopped] at stopped
    | joining j | returned => exact inside
  rw [← sound.handed s]
  simp [MarketFeed.handed,gone s inside,WorkerPc.inFlight,emptied]

end Finished

end Sound
end Pool

end MarketFeed
