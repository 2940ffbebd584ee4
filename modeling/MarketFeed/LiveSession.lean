import MarketFeed.LiveWait

/-! One `LiveFeed` object over any sequence of `start` and `wait`. What a later `start` resets
is the packet under construction, the receive buffer and the threads; the counters, the
socket, `publisher_done_` and the normalizer's threads are those of the object. -/
namespace MarketFeed
open Packed

structure LiveSession where
  feed : LiveFeed
  expectedMsgs : Nat
  running : Bool := false
  drained : Bool := false

namespace LiveSession

/-- The constructor: the workers run, no publisher and no receiver does. -/
def construct (numShards : Nat) (reference : Nat → Int64) (expectedMsgs : Nat) : LiveSession where
  feed := { LiveFeed.init [] numShards reference with publisher := .ended, receiver := .ended }
  expectedMsgs := expectedMsgs

/-- `start(num_messages)`, the messages being those its publisher will generate. -/
def start (s : LiveSession) (messages : List WireMsg) : Option LiveSession :=
  if s.running then none
  else if messages.length > s.expectedMsgs then none
  else some { s with
    running := true
    feed := { s.feed with
      rest := messages
      locals := {}
      publisher := .looping
      buf := List.replicate recvBufferBytes 0
      receiver := .receiving } }

/-- The thread in `wait`: both joins, `drain_and_stop` unless `drained_`, and the return. -/
def waitStep (s : LiveSession) : Option LiveSession :=
  if s.running = false then none
  else if s.drained then
    if s.feed.publisher = .ended ∧ s.feed.receiver = .ended then some { s with running := false } else none
  else
    match s.feed.pool.drain with
    | .returned => some { s with drained := true, running := false }
    | _ => s.feed.mainStep.map fun feed => { s with feed := feed }

inductive Action where
  | start (messages : List WireMsg)
  | feed (action : LiveFeed.Action)

def step (s : LiveSession) : Action → Option LiveSession
  | .start messages => s.start messages
  | .feed .main => s.waitStep
  | .feed action => (s.feed.step action).map fun feed => { s with feed := feed }

def run (s : LiveSession) : List Action → Option LiveSession
  | [] => some s
  | action :: rest => (s.step action).bind fun next => next.run rest

def Along (ok : LiveSession → Action → Prop) (s : LiveSession) : List Action → Prop
  | [] => True
  | action :: rest => ok s action ∧ ∀ next, s.step action = some next → next.Along ok rest

def startOf : Action → Option (List WireMsg)
  | .start messages => some messages
  | .feed _ => none

/-- A `start` that does not throw: no call is running and its messages fit. -/
theorem start_started {s next : LiveSession} {messages : List WireMsg} (step : s.start messages = some next) :
    s.running = false ∧ messages.length ≤ s.expectedMsgs ∧ next = { s with
      running := true
      feed := { s.feed with
        rest := messages
        locals := {}
        publisher := .looping
        buf := List.replicate recvBufferBytes 0
        receiver := .receiving } } := by
  unfold start at step
  split at step
  next => cases step
  next stopped =>
    split at step
    next => cases step
    next few => exact ⟨by simpa using stopped,Nat.le_of_not_lt few,(Option.some.inj step).symm⟩

/-- What each `start` of a sequence of calls sends. -/
def starts (actions : List Action) : List (List WireMsg) := actions.filterMap startOf

def Lossless : Action → Prop
  | .start _ => True
  | .feed action => LiveFeed.Lossless action

end LiveSession

namespace LiveFeed

/-- The receiver stops only with an empty socket and no publisher still sending. -/
def Settles (f : LiveFeed) (action : Action) : Prop :=
  action = .receiver → f.receiver = .timedOut → f.publisherDone = true →
    f.socket = [] ∧ f.publisher ≠ .looping

/-- The same feed with a flag that is true to its publisher and a receiver that never stops. -/
def waiting (f : LiveFeed) : LiveFeed :=
  { f with
    publisherDone := decide (f.publisher = .ended)
    receiver := if f.receiver = .ended then .timedOut else f.receiver }

/-- Where every message of all calls so far is, whatever `publisher_done_` says. -/
structure Flows (f : LiveFeed) (total : List WireMsg) : Prop where
  accounted : ∃ groups pending, Accounted total f.waiting groups pending
  flagged : f.publisher = .ended → f.publisherDone = true ∨ f.receiver = .ended
  stopped : f.receiver = .ended → f.socket = [] ∧ f.publisher ≠ .looping

section Flows
variable {f next : LiveFeed} {total : List WireMsg} (flows : f.Flows total)
include flows

theorem flows_publisher (step : f.publisherStep = some next) : next.Flows total := by
  obtain ⟨⟨groups,pending,accounted⟩,flagged,stopped⟩ := flows
  have shadow : f.waiting.publisherStep = some next.waiting := by
    cases publisherStep_move step with
    | pack m rest looping waits => simp [publisherStep,waiting,looping,waits,send]
    | flush looping empty => simp [publisherStep,waiting,looping,empty,send]
    | finish flushed => simp [publisherStep,waiting,flushed]
  obtain ⟨groups,pending,accounted⟩ := accounted_publisher accounted shadow
  refine ⟨⟨groups,pending,accounted⟩,?_,?_⟩
  · cases publisherStep_move step with
    | pack m rest looping => simp [send,looping]
    | flush => simp
    | finish => simp
  · intro ended
    cases publisherStep_move step with
    | pack m rest looping => exact absurd looping (stopped ended).2
    | flush looping => exact absurd looping (stopped ended).2
    | finish => exact ⟨(stopped ended).1,by simp⟩

theorem flows_shadow (shadow : f.waiting.receiverStep = some next.waiting) (publisher : next.publisher = f.publisher)
    (flag : next.publisherDone = f.publisherDone) (going : f.receiver ≠ .ended) (goes : next.receiver ≠ .ended) :
    next.Flows total := by
  obtain ⟨⟨groups,pending,accounted⟩,flagged,_⟩ := flows
  obtain ⟨groups,accounted⟩ := accounted_receiver accounted shadow
  refine ⟨⟨groups,pending,accounted⟩,?_,fun ended => absurd ended goes⟩
  intro ended
  rw [publisher] at ended
  exact Or.inl (flag.trans ((flagged ended).resolve_right going))

theorem flows_receiver (settles : Settles f .receiver) (step : f.receiverStep = some next) : next.Flows total := by
  cases receiverStep_move step with
  | silence receiving empty =>
    have shadow : f.waiting.receiverStep = some (waiting { f with receiver := .timedOut }) := by
      simp [receiverStep,waiting,receiving,empty]
    exact flows_shadow flows shadow rfl rfl (by simp [receiving]) (by simp)
  | blank d rest receiving head void =>
    have shadow : f.waiting.receiverStep = some (waiting { f with socket := rest, receiver := .timedOut }) := by
      simp [receiverStep,waiting,receiving,head,void]
    exact flows_shadow flows shadow rfl rfl (by simp [receiving]) (by simp)
  | datagram d rest receiving head filled =>
    have shadow : f.waiting.receiverStep = some (f.take d rest).waiting := by
      simp only [receiverStep,waiting,receiving,head,if_pos filled]
      rfl
    exact flows_shadow flows shadow rfl rfl (by simp [receiving]) (by simp [take])
  | decode n left offset located inside =>
    have shadow : f.waiting.receiverStep = some (f.decodeOne n left offset).waiting := by
      simp [receiverStep,waiting,decodeOne,located,inside,messageAt]
    exact flows_shadow flows shadow rfl rfl (by simp [located]) (by simp [decodeOne])
  | finish n left offset located finished =>
    have shadow : f.waiting.receiverStep = some (waiting { f with receiver := .receiving }) := by
      simp only [receiverStep,waiting,located]
      simp [finished]
    exact flows_shadow flows shadow rfl rfl (by simp [located]) (by simp)
  | resume timedOut flag =>
    have sending : f.publisher ≠ .ended := by
      intro ended
      have told := flows.flagged ended
      simp [flag,timedOut] at told
    have shadow : f.waiting.receiverStep = some (waiting { f with receiver := .receiving }) := by
      simp [receiverStep,waiting,timedOut,sending]
    exact flows_shadow flows shadow rfl rfl (by simp [timedOut]) (by simp)
  | leave timedOut flag =>
    -- the receiver stops: its shadow keeps waiting
    obtain ⟨⟨groups,pending,accounted⟩,_,_⟩ := flows
    have same : waiting { f with receiver := .ended } = f.waiting := by simp [waiting,timedOut]
    exact ⟨⟨groups,pending,by rwa [same]⟩,fun _ => Or.inr rfl,fun _ => settles rfl timedOut flag⟩

theorem flows_pool (pool : Pool) : Flows { f with pool := pool } total := by
  obtain ⟨⟨groups,pending,accounted⟩,flagged,stopped⟩ := flows
  exact ⟨⟨groups,pending,accounted_pool accounted pool⟩,flagged,stopped⟩

theorem flows_step (action : Action) (lossless : Lossless action) (settles : Settles f action)
    (step : f.step action = some next) : next.Flows total := by
  cases action with
  | publisher => exact flows_publisher flows step
  | receiver => exact flows_receiver flows settles step
  | worker s =>
    obtain ⟨pool,_,rfl⟩ := Option.map_eq_some_iff.mp step
    exact flows_pool flows pool
  | main =>
    obtain ⟨pool,rfl⟩ := mainStep_pool step
    exact flows_pool flows pool
  | network socket => exact absurd lossless not_false

/-- With both threads gone everything of every call has arrived. -/
theorem flows_complete (publisher : f.publisher = .ended) (receiver : f.receiver = .ended) :
    f.socket = [] ∧ f.decoded = total ∧ f.received = total.length ∧ f.sent = total.length ∧
      f.sentDatagrams.length = f.datagrams := by
  obtain ⟨⟨groups,pending,accounted⟩,_,stopped⟩ := flows
  have empty := (stopped receiver).1
  have held := accounted.socket
  simp only [waiting] at held
  rw [empty] at held
  obtain rfl : groups = [] := List.map_eq_nil_iff.mp held.symm
  obtain ⟨rfl,rest⟩ := accounted.ceased (by simp [waiting,publisher])
  have whole := accounted.whole
  have sent := accounted.sent
  have received := accounted.received
  have datagrams := accounted.datagrams
  have over_ : f.waiting.upcoming = [] := by simp [waiting,upcoming,receiver]
  simp only [over_,rest] at whole
  simp only [waiting] at rest whole sent received datagrams
  simp only [rest,List.length_nil,Nat.add_zero] at sent
  have decoded : f.decoded = total := by simpa using whole
  exact ⟨empty,decoded,by rw [received,decoded],sent,by simpa using datagrams⟩

end Flows

/-- What a thread other than the one in `wait` does to the pool. -/
inductive Effect (f : LiveFeed) : Action → LiveFeed → Prop
  | quiet (action next) (pool : next.pool = f.pool) (decoded : next.decoded = f.decoded)
      (going : f.publisher ≠ .ended ∨ f.receiver ≠ .ended) : Effect f action next
  | dispatch (next n left offset) (located : f.receiver = .decoding n left offset) (more : 0 < left ∧ offset < n)
      (pool : next.pool = (f.pool.dispatch (f.messageAt offset)).2)
      (decoded : next.decoded = f.decoded ++ [f.messageAt offset]) : Effect f .receiver next
  | work (s pool) (worked : f.pool.workerStep s = some pool) : Effect f (.worker s) { f with pool := pool }

theorem step_effect {f next : LiveFeed} (action : Action) (lossless : Lossless action) (other : action ≠ .main)
    (step : f.step action = some next) : Effect f action next := by
  cases action with
  | publisher =>
    cases publisherStep_move step with
    | pack m rest looping => exact .quiet _ _ rfl rfl (Or.inl (by simp [looping]))
    | flush looping => exact .quiet _ _ rfl rfl (Or.inl (by simp [looping]))
    | finish flushed => exact .quiet _ _ rfl rfl (Or.inl (by simp [flushed]))
  | receiver =>
    cases receiverStep_move step with
    | silence receiving => exact .quiet _ _ rfl rfl (Or.inr (by simp [receiving]))
    | blank d rest receiving => exact .quiet _ _ rfl rfl (Or.inr (by simp [receiving]))
    | datagram d rest receiving => exact .quiet _ _ rfl rfl (Or.inr (by simp [receiving]))
    | decode n left offset located inside =>
      exact .dispatch _ n (left + 1) offset located ⟨Nat.succ_pos _,inside⟩ rfl rfl
    | finish n left offset located => exact .quiet _ _ rfl rfl (Or.inr (by simp [located]))
    | resume timedOut => exact .quiet _ _ rfl rfl (Or.inr (by simp [timedOut]))
    | leave timedOut => exact .quiet _ _ rfl rfl (Or.inr (by simp [timedOut]))
  | worker s =>
    obtain ⟨pool,worked,rfl⟩ := Option.map_eq_some_iff.mp step
    exact .work s pool worked
  | main => exact absurd rfl other
  | network socket => exact absurd lossless not_false

theorem dispatch_accepts {p : Pool} {m : WireMsg}
    (roomy : (p.shards (p.shardOf m)).queue.length < kQueueCapacity - 1) : (p.dispatch m).1 = true := by
  rcases p.toNormalizer.dispatch_cases m with ⟨full,outcome⟩ | ⟨_,outcome⟩
  · omega
  · simp [Pool.dispatch,outcome]

theorem dispatch_frame (p : Pool) (m : WireMsg) : (p.dispatch m).2.workers = p.workers ∧
    (p.dispatch m).2.drain = p.drain ∧ (p.dispatch m).2.numShards = p.numShards ∧
    ∀ k, ((p.dispatch m).2.shards k).processed = (p.shards k).processed := by
  refine ⟨rfl,rfl,?_,fun k => ?_⟩ <;>
    rcases p.toNormalizer.dispatch_cases m with ⟨_,outcome⟩ | ⟨_,outcome⟩ <;>
    simp only [Pool.dispatch,outcome]
  · rcases eq_or_ne k (p.shardOf m) with rfl | other
    · simp
    · simp [other]
  · rcases eq_or_ne k (p.shardOf m) with rfl | other
    · simp
    · simp [other]

theorem effect_drain {f next : LiveFeed} {action : Action} (effect : Effect f action next) :
    next.pool.drain = f.pool.drain := by
  cases effect with
  | quiet _ _ pool decoded going => rw [pool]
  | dispatch _ n left offset located more pool decoded => rw [pool,(dispatch_frame _ _).2.1]
  | work s pool worked =>
    obtain ⟨_,shard,pc,rfl,_⟩ := Pool.workerStep_move worked
    rfl

def QueuesWithin (f : LiveFeed) : Prop := ∀ k, (f.pool.shards k).queue.length ≤ f.decoded.length

theorem within_effect {f next : LiveFeed} {action : Action} (within : f.QueuesWithin) (effect : Effect f action next) :
    next.QueuesWithin := by
  intro k
  have bound := within k
  cases effect with
  | quiet _ _ pool decoded going => rwa [pool,decoded]
  | dispatch _ n left offset located more pool decoded =>
    rw [pool,decoded,List.length_append,List.length_singleton]
    rcases f.pool.toNormalizer.dispatch_cases (f.messageAt offset) with ⟨_,outcome⟩ | ⟨_,outcome⟩ <;>
      simp only [Pool.dispatch,outcome] <;>
      rcases eq_or_ne k (f.pool.shardOf (f.messageAt offset)) with rfl | other
    · simp
      omega
    · simp [other]
      omega
    · simp
      omega
    · simp [other]
      omega
  | work s pool worked =>
    obtain ⟨_,shard,pc,rfl,move⟩ := Pool.workerStep_move worked
    rcases eq_or_ne k s with rfl | other
    · simpa [Pool.move] using move.queue_shorter.trans bound
    · simpa [Pool.move,other] using bound

/-- So few messages that no queue can be full when one is decoded. -/
theorem within_roomy {f : LiveFeed} {total : List WireMsg} (within : f.QueuesWithin) (flows : f.Flows total)
    (short : total.length < kQueueCapacity) (action : Action) : f.RoomyDispatch action := by
  intro _ n left offset located positive inside
  obtain ⟨⟨groups,pending,accounted⟩,_,_⟩ := flows
  obtain ⟨count,rfl⟩ : ∃ count, left = count + 1 := ⟨left - 1,by omega⟩
  have whole := congrArg List.length accounted.whole
  have more : 1 ≤ f.waiting.upcoming.length := by
    simp only [upcoming,waiting,located]
    simp only [reduceCtorEq,if_false,decodeFrom,if_pos inside]
    exact Nat.succ_pos _
  have decoded : f.waiting.decoded = f.decoded := rfl
  have bound := within (f.pool.shardOf (f.messageAt offset))
  simp only [List.length_append,decoded] at whole
  omega

end LiveFeed

end MarketFeed
