import MarketFeed.LatencyBuffer
import MarketFeed.ShardedReplay

/-! Where the messages are that a `LiveFeed` has counted: over any calls, any network and any
schedule each of them is applied, in a worker's hands, queued, or dropped by a full queue. -/
namespace MarketFeed
open Packed

namespace Pool

/-- What no step of any thread undoes, not even a dispatch to workers that have left. -/
structure Feeds (start : Normalizer) (p : Pool) (accepted : List WireMsg) (dropped : Nat) : Prop where
  numShards : p.numShards = start.numShards
  toShard : p.instrumentToShard = start.instrumentToShard
  toLocal : p.instrumentToLocal = start.instrumentToLocal
  worked : ∀ s, Worked (start.shards s) (p.shards s)
  handed : ∀ s, handed (p.shards s) (p.workers s) = share start accepted s
  dropped : ((List.range start.numShards).map fun s => (p.shards s).droppedFull).sum = dropped
  joined : ∀ s < p.drain.joined p.numShards, p.workers s = .exited

theorem drainStep_moves {p next : Pool} (step : p.drainStep = some next) :
    ∃ stop drain, next = { p with stop := stop, drain := drain } ∧
      ((∀ s < p.drain.joined p.numShards, p.workers s = .exited) →
        ∀ s < drain.joined p.numShards, p.workers s = .exited) := by
  unfold drainStep at step
  split at step
  next => cases step
  next j located =>
    have early (k : Nat) (contra : k < 0) : p.workers k = .exited := absurd contra (Nat.not_lt_zero k)
    split at step
    next =>
      split at step
      next =>
        cases step
        exact ⟨_,_,rfl,id⟩
      next =>
        cases step
        exact ⟨_,_,rfl,fun _ => early⟩
    next =>
      cases step
      exact ⟨_,_,rfl,fun _ => early⟩
  next j located =>
    rw [located]
    split at step
    next =>
      split at step
      next gone =>
        cases step
        refine ⟨_,_,rfl,fun joined s before => ?_⟩
        rcases Nat.lt_succ_iff_lt_or_eq.mp before with earlier | rfl
        · exact joined s earlier
        · exact gone
      next => cases step
    next all =>
      cases step
      exact ⟨_,_,rfl,fun joined s before => joined s (by simp only [DrainPc.joined] at before ⊢; omega)⟩
  next => cases step

end Pool

theorem WorkerMove.droppedFull {stop : Bool} {shard next : Shard} {pc after : WorkerPc}
    (move : WorkerMove stop shard pc next after) : next.droppedFull = shard.droppedFull := by
  cases move with
  | apply item =>
    obtain ⟨books,orders,framed⟩ := Shard.apply_frame shard item
    simp [Shard.work,framed]
  | _ => rfl

namespace Pool.Feeds

variable {start : Normalizer} {p next : Pool} {accepted : List WireMsg} {dropped : Nat}

theorem init (blank : ∀ s, Normalizer.Blank (start.shards s)) : Feeds start { toNormalizer := start } [] 0 := by
  have sound := Pool.Sound.init blank
  refine ⟨rfl,rfl,rfl,sound.worked,sound.handed,?_,sound.joined⟩
  exact List.sum_eq_zero (by simp [fun s => (blank s).droppedFull])

section Steps
variable (feeds : Feeds start p accepted dropped)
include feeds

theorem worker {s : Nat} (step : p.workerStep s = some next) : Feeds start next accepted dropped := by
  obtain ⟨_,shard,pc,rfl,move⟩ := workerStep_move step
  refine ⟨feeds.numShards,feeds.toShard,feeds.toLocal,?_,?_,?_,?_⟩
  · intro k
    rcases eq_or_ne k s with rfl | other
    · simpa [Pool.move] using move.worked (feeds.worked k)
    · simpa [Pool.move,other] using feeds.worked k
  · intro k
    rcases eq_or_ne k s with rfl | other
    · simpa [Pool.move,move.handed_eq] using feeds.handed k
    · simpa [Pool.move,other] using feeds.handed k
  · rw [← feeds.dropped]
    refine congrArg List.sum (List.map_congr_left fun k _ => ?_)
    rcases eq_or_ne k s with rfl | other
    · simpa [Pool.move] using move.droppedFull
    · simp [Pool.move,other]
  · intro k before
    have gone := feeds.joined k before
    have other : k ≠ s := by
      rintro rfl
      rw [gone] at move
      cases move
    simpa [Pool.move,other] using gone

theorem callDrain : Feeds start p.callDrain accepted dropped :=
  ⟨feeds.numShards,feeds.toShard,feeds.toLocal,feeds.worked,feeds.handed,feeds.dropped,
    fun _ before => absurd before (Nat.not_lt_zero _)⟩

theorem drainStep (step : p.drainStep = some next) : Feeds start next accepted dropped := by
  obtain ⟨stop,drain,rfl,joined⟩ := drainStep_moves step
  exact ⟨feeds.numShards,feeds.toShard,feeds.toLocal,feeds.worked,feeds.handed,feeds.dropped,joined feeds.joined⟩

theorem dispatch (m : WireMsg) (routed : start.shardOf m < start.numShards) :
    Feeds start (p.dispatch m).2 (if (p.dispatch m).1 then accepted ++ [m] else accepted)
      (if (p.dispatch m).1 then dropped else dropped + 1) := by
  obtain ⟨numShards,toShard,toLocal,worked,handed,drops,joined⟩ := feeds
  have shardOf : p.shardOf m = start.shardOf m := by simp [Normalizer.shardOf,toShard]
  have itemOf : p.itemOf m = start.itemOf m := by simp [Normalizer.itemOf,toLocal]
  have working (s : Nat) : Worked (start.shards s) ((p.dispatch m).2.shards s) := by
    simp only [Pool.dispatch,Normalizer.dispatch]
    rcases eq_or_ne s (p.shardOf m) with rfl | other
    · simpa using worked_push (worked _) (p.itemOf m)
    · simpa [other] using worked s
  rcases p.toNormalizer.dispatch_cases m with ⟨full,outcome⟩ | ⟨room,outcome⟩
  · simp only [Pool.dispatch,outcome] at working ⊢
    refine ⟨numShards,toShard,toLocal,working,fun s => ?_,?_,joined⟩
    · rcases eq_or_ne s (p.shardOf m) with rfl | other
      · simpa [MarketFeed.handed] using handed (p.shardOf m)
      · simpa [other] using handed s
    · rw [← drops]
      refine Routing.sum_raise _ _ (shardOf ▸ routed) (by simp) fun k other => by simp [other]
  · simp only [Pool.dispatch,outcome] at working ⊢
    refine ⟨numShards,toShard,toLocal,working,fun s => ?_,?_,joined⟩
    · have before := handed s
      rcases eq_or_ne s (p.shardOf m) with rfl | other
      · simp only [MarketFeed.handed,shardOf] at before ⊢
        simp [share,List.filter_append,← List.append_assoc,before,itemOf]
      · have elsewhere : start.shardOf m ≠ s := by rw [← shardOf]; exact other.symm
        simpa [other,share,List.filter_append,elsewhere] using before
    · rw [if_true,← drops]
      refine congrArg List.sum (List.map_congr_left fun k _ => ?_)
      rcases eq_or_ne k (p.shardOf m) with rfl | other
      · simp
      · simp [other]

end Steps

/-- Each message taken is in one place, and each not taken was counted by the queue that was full. -/
theorem accounted (feeds : Feeds start p accepted dropped) (routed : ∀ m ∈ accepted, start.shardOf m < start.numShards) :
    ((List.range start.numShards).map fun s => (p.shards s).processed + (p.workers s).inFlight.length +
      (p.shards s).queue.length + (p.shards s).droppedFull).sum = accepted.length + dropped := by
  have whole := (Routing.flatMap_filter_perm accepted _ _ routed).length_eq
  rw [List.length_flatMap] at whole
  rw [← feeds.dropped,← whole,← List.sum_map_add]
  refine congrArg List.sum (List.map_congr_left fun s _ => ?_)
  have handed := congrArg List.length (feeds.handed s)
  simp only [MarketFeed.handed,share,List.length_append,List.length_map] at handed
  rw [(feeds.worked s).processed]
  omega

end Pool.Feeds

namespace LiveFeed

/-- Wherever a message is between its publisher and its book, `P` holds of it. -/
structure Owns (P : WireMsg → Prop) (f : LiveFeed) : Prop where
  holds : ∃ pending, f.locals.Holds pending ∧ ∀ m ∈ pending, P m
  rest : ∀ m ∈ f.rest, m ≠ .zero ∧ P m
  socket : ∀ d ∈ f.socket, d ∈ f.sentDatagrams
  sent : ∀ d ∈ f.sentDatagrams, ∃ group, Fits group ∧ (∀ m ∈ group, P m) ∧ d = datagram group
  upcoming : ∀ m ∈ f.upcoming, P m
  decoded : ∀ m ∈ f.decoded, P m

section Owns
variable {P : WireMsg → Prop} {f next : LiveFeed} (owns : f.Owns P)
include owns

theorem owns_send {packet : Option (List UInt8)} {locals : Publisher} {rest : List WireMsg}
    (carries : ∀ d ∈ packet, ∃ group, Fits group ∧ (∀ m ∈ group, P m) ∧ d = datagram group)
    (holds : ∃ pending, locals.Holds pending ∧ ∀ m ∈ pending, P m)
    (waits : ∀ m ∈ rest, m ≠ .zero ∧ P m) (sent : Nat) (publisher : PublisherPc) :
    Owns P { f.send packet with rest := rest, locals := locals, sent := sent, publisher := publisher } := by
  refine ⟨holds,waits,fun d member => ?_,fun d member => ?_,owns.upcoming,owns.decoded⟩
  · rcases List.mem_append.mp member with earlier | now
    · exact List.mem_append_left _ (owns.socket d earlier)
    · exact List.mem_append_right _ now
  · rcases List.mem_append.mp member with earlier | now
    · exact owns.sent d earlier
    · exact carries d (Option.mem_toList.mp now)

theorem owns_publisher (step : f.publisherStep = some next) : next.Owns P := by
  obtain ⟨pending,holds,own⟩ := owns.holds
  have filled : ∃ group, Fits group ∧ (∀ m ∈ group, P m) ∧ datagram pending = datagram group :=
    ⟨pending,holds.fits,own,rfl⟩
  cases publisherStep_move step with
  | pack m rest looping waiting =>
    have waits := owns.rest
    rw [waiting] at waits
    have others := fun x member => waits x (List.mem_cons_of_mem _ member)
    obtain ⟨typed,first⟩ := waits m List.mem_cons_self
    have last : ∀ x ∈ [m], P x := by simpa using first
    rcases Publisher.pack_holds holds m typed with ⟨kept,packed⟩ | ⟨nonempty,flushed,packed⟩
    · refine owns_send owns (by simp [kept]) ⟨_,packed,fun x member => ?_⟩ others _ _
      exact (List.mem_append.mp member).elim (own x) (last x)
    · exact owns_send owns (by simpa [flushed] using filled) ⟨_,packed,last⟩ others _ _
  | flush looping empty =>
    rcases eq_or_ne pending [] with rfl | nonempty
    · have nothing := Publisher.flush_empty holds
      exact owns_send owns (by simp [nothing]) ⟨[],by simpa [nothing] using holds,by simp⟩ owns.rest _ _
    · obtain ⟨flushed,cleared⟩ := Publisher.flush_pending holds nonempty
      exact owns_send owns (by simpa [flushed] using filled) ⟨_,cleared,by simp⟩ owns.rest _ _
  | finish flushed => exact ⟨owns.holds,owns.rest,owns.socket,owns.sent,owns.upcoming,owns.decoded⟩

theorem owns_receiver (step : f.receiverStep = some next) : next.Owns P := by
  have whole := owns
  obtain ⟨holds,rest,socket,sent,upcoming,decoded⟩ := owns
  have nothing (g : LiveFeed) (idle : ∀ n left offset, g.receiver ≠ .decoding n left offset) : ∀ m ∈ g.upcoming, P m := by
    unfold LiveFeed.upcoming
    split
    next n left offset located => exact absurd located (idle n left offset)
    next => simp
  cases receiverStep_move step with
  | silence | finish | resume | leave => exact ⟨holds,rest,socket,sent,nothing _ (by simp),decoded⟩
  | blank d others receiving head void =>
    exact ⟨holds,rest,fun x member => socket x (head ▸ List.mem_cons_of_mem _ member),sent,nothing _ (by simp),decoded⟩
  | datagram d others receiving head filled =>
    refine ⟨holds,rest,fun x member => socket x (head ▸ List.mem_cons_of_mem _ member),sent,?_,decoded⟩
    obtain ⟨group,fits,own,rfl⟩ := sent d (socket d (head ▸ List.mem_cons_self))
    have decodes := decodePacket_datagram group fits f.buf
    rw [decodePacket] at decodes
    simp only [LiveFeed.upcoming,take]
    rw [decodes]
    exact own
  | decode n left offset located inside =>
    have split : f.upcoming = f.messageAt offset :: (f.decodeOne n left offset).upcoming := by
      simp only [LiveFeed.upcoming,located,decodeOne]
      rw [decodeFrom,if_pos inside]
      rfl
    rw [split] at upcoming
    refine ⟨holds,rest,socket,sent,fun m member => upcoming m (List.mem_cons_of_mem _ member),fun m member => ?_⟩
    rcases List.mem_append.mp member with earlier | last
    · exact decoded m earlier
    · exact List.mem_singleton.mp last ▸ upcoming _ List.mem_cons_self

theorem owns_pool (pool : Pool) : Owns P { f with pool := pool } :=
  ⟨owns.holds,owns.rest,owns.socket,owns.sent,owns.upcoming,owns.decoded⟩

theorem owns_step (action : Action) (step : f.step action = some next) : next.Owns P := by
  cases action with
  | publisher => exact owns_publisher owns step
  | receiver => exact owns_receiver owns step
  | worker s =>
    obtain ⟨pool,_,rfl⟩ := Option.map_eq_some_iff.mp step
    exact owns_pool owns pool
  | main =>
    obtain ⟨pool,rfl⟩ := mainStep_pool step
    exact owns_pool owns pool
  | network socket =>
    simp only [LiveFeed.step] at step
    split at step
    next own =>
      cases step
      exact ⟨owns.holds,owns.rest,own,owns.sent,owns.upcoming,owns.decoded⟩
    next => cases step

end Owns

/-- What a thread other than the one in `wait` does to the pool, over any network. -/
inductive Feeding (f next : LiveFeed) : Prop
  | quiet (pool : next.pool = f.pool) (decoded : next.decoded = f.decoded)
  | dispatch (m) (carried : m ∈ f.upcoming) (pool : next.pool = (f.pool.dispatch m).2)
      (decoded : next.decoded = f.decoded ++ [m])
  | work (s) (worked : f.pool.workerStep s = some next.pool) (decoded : next.decoded = f.decoded)

theorem step_feeding {f next : LiveFeed} (action : Action) (other : action ≠ .main) (step : f.step action = some next) :
    Feeding f next := by
  by_cases lossless : Lossless action
  · cases step_effect action lossless other step with
    | quiet _ _ pool decoded => exact .quiet pool decoded
    | dispatch _ n left offset located more pool decoded =>
      refine .dispatch _ ?_ pool decoded
      obtain ⟨count,rfl⟩ : ∃ count, left = count + 1 := ⟨left - 1,by omega⟩
      simp only [upcoming,located,decodeFrom,if_pos more.2]
      exact List.mem_cons_self
    | work s pool worked => exact .work s worked rfl
  · cases action with
    | network socket =>
      simp only [LiveFeed.step] at step
      split at step <;> cases step
      exact .quiet rfl rfl
    | publisher | receiver | worker | main => exact absurd trivial lossless

theorem Feeding.drain_eq {f next : LiveFeed} (feeding : Feeding f next) : next.pool.drain = f.pool.drain := by
  cases feeding with
  | quiet pool => rw [pool]
  | dispatch m _ pool => rw [pool,(dispatch_frame _ _).2.1]
  | work s worked =>
    obtain ⟨_,shard,pc,moved,_⟩ := Pool.workerStep_move worked
    rw [moved]
    rfl

/-- A step counts the messages that it decodes. -/
theorem step_received {f next : LiveFeed} (action : Action) (counted : f.received = f.decoded.length)
    (step : f.step action = some next) : next.received = next.decoded.length := by
  cases action with
  | publisher => cases publisherStep_move step <;> exact counted
  | receiver =>
    cases receiverStep_move step with
    | decode n left offset => simp [decodeOne,counted]
    | silence | blank | datagram | finish | resume | leave => exact counted
  | worker s =>
    obtain ⟨pool,_,rfl⟩ := Option.map_eq_some_iff.mp step
    exact counted
  | main =>
    obtain ⟨pool,rfl⟩ := mainStep_pool step
    exact counted
  | network socket =>
    simp only [LiveFeed.step] at step
    split at step <;> cases step
    exact counted

end LiveFeed

namespace LiveSession

/-- A first call is the only one whose messages a drain waits for. -/
structure Once (start : Normalizer) (s : LiveSession) (accepted : List WireMsg) (calls : Nat) : Prop where
  opened : s.running = true → 1 ≤ calls
  drained : s.drained = true → 1 ≤ calls
  returned : s.drained = true → s.feed.pool.drain = .returned
  rests : calls ≤ 1 → s.drained = true → s.running = false
  sound : calls ≤ 1 → Pool.Sound start s.feed.pool accepted

/-- `accepted` are the messages that a queue has taken, and `dropped` counts the others. -/
structure Ledger (start : Normalizer) (P : WireMsg → Prop) (s : LiveSession) (accepted : List WireMsg) (dropped : Nat)
    (calls : Nat) : Prop where
  owns : s.feed.Owns P
  joins : Joins s
  feeds : Pool.Feeds start s.feed.pool accepted dropped
  kept : accepted.Sublist s.feed.decoded
  received : s.feed.received = s.feed.decoded.length
  counted : s.feed.received = accepted.length + dropped
  once : Once start s accepted calls

theorem ledger_construct (numShards : Nat) (reference : Nat → Int64) (expectedMsgs : Nat) (P : WireMsg → Prop) :
    Ledger (Normalizer.ready numShards reference) P (construct numShards reference expectedMsgs) [] 0 0 := by
  have joins := (session_construct numShards reference expectedMsgs).streams.joins
  have blank := (Normalizer.priced_ready numShards reference).blank
  refine ⟨⟨⟨[],Publisher.holds_init,by simp⟩,?_,?_,?_,?_,?_⟩,joins,Pool.Feeds.init blank,.slnil,rfl,rfl,
    ⟨?_,?_,?_,fun _ _ => rfl,fun _ => Pool.Sound.init blank⟩⟩ <;>
    simp [construct,LiveFeed.init,LiveFeed.upcoming]

section Ledger
variable {start : Normalizer} {P : WireMsg → Prop} {s next : LiveSession} {accepted : List WireMsg} {dropped calls : Nat}
  (ledger : Ledger start P s accepted dropped calls)
include ledger

theorem ledger_start (messages : List WireMsg) (sends : ∀ m ∈ messages, m ≠ .zero ∧ P m)
    (step : s.start messages = some next) : Ledger start P next accepted dropped (calls + 1) := by
  have joins := joins_start ledger.joins messages step
  obtain ⟨_,_,rfl⟩ := start_started step
  obtain ⟨owns,_,feeds,kept,received,counted,once⟩ := ledger
  refine ⟨⟨⟨[],Publisher.holds_init,by simp⟩,sends,owns.socket,owns.sent,?_,owns.decoded⟩,joins,feeds,kept,received,
    counted,⟨fun _ => Nat.le_add_left 1 calls,fun _ => Nat.le_add_left 1 calls,once.returned,fun few drained => ?_,
      fun few => ?_⟩⟩
  · simp [LiveFeed.upcoming]
  · have before := once.drained drained
    omega
  · exact once.sound (by omega)

theorem ledger_wait (step : s.waitStep = some next) : Ledger start P next accepted dropped calls := by
  have joins := joins_wait ledger.joins step
  obtain ⟨owns,_,feeds,kept,received,counted,once⟩ := ledger
  obtain ⟨running,waits⟩ := waitStep_waits step
  have begun := once.opened running
  cases waits with
  | again drained =>
    exact ⟨owns,joins,feeds,kept,received,counted,
      ⟨fun _ => begun,fun _ => begun,once.returned,fun _ _ => rfl,once.sound⟩⟩
  | first undrained returned =>
    exact ⟨owns,joins,feeds,kept,received,counted,
      ⟨fun _ => begun,fun _ => begun,fun _ => returned,fun _ _ => rfl,once.sound⟩⟩
  | call undrained notCalled =>
    exact ⟨LiveFeed.owns_pool owns _,joins,feeds.callDrain,kept,received,counted,
      ⟨once.opened,once.drained,fun drained => by simp [undrained] at drained,once.rests,
        fun few => (once.sound few).callDrain notCalled⟩⟩
  | drain undrained pool stepped =>
    exact ⟨LiveFeed.owns_pool owns _,joins,feeds.drainStep stepped,kept,received,counted,
      ⟨once.opened,once.drained,fun drained => by simp [undrained] at drained,once.rests,
        fun few => (once.sound few).drainStep stepped⟩⟩

/-- In a first call the drain starts when the receiver is through. -/
theorem ledger_notCalled (few : calls ≤ 1) {m : WireMsg} (carried : m ∈ s.feed.upcoming) :
    s.feed.pool.drain = .notCalled := by
  obtain ⟨_,joins,_,_,_,_,once⟩ := ledger
  have going : s.feed.receiver ≠ .ended := by
    intro ended
    simp [LiveFeed.upcoming,ended] at carried
  by_contra called
  cases drained : s.drained with
  | false => exact going (joins.joined drained called).2
  | true => exact going (joins.idle (once.rests few drained)).2

theorem ledger_feed (routed : ∀ m, P m → start.shardOf m < start.numShards) (action : LiveFeed.Action)
    (other : action ≠ .main) (feed : LiveFeed) (step : s.feed.step action = some feed) :
    ∃ accepted' dropped', Ledger start P { s with feed := feed } accepted' dropped' calls ∧ accepted <+: accepted' := by
  have joins := joins_feed ledger.joins action other feed step
  have running := fun few m carried => ledger_notCalled ledger few (m := m) carried
  obtain ⟨owns,_,feeds,kept,received,counted,once⟩ := ledger
  have owned := LiveFeed.owns_step owns action step
  have recounted := LiveFeed.step_received action received step
  have feeding := LiveFeed.step_feeding action other step
  have returned (drained : s.drained = true) : feed.pool.drain = .returned :=
    feeding.drain_eq.trans (once.returned drained)
  cases feeding with
  | quiet pool decoded =>
    refine ⟨accepted,dropped,⟨owned,joins,by rwa [pool],by rwa [decoded],recounted,?_,
      ⟨once.opened,once.drained,returned,once.rests,fun few => ?_⟩⟩,List.prefix_rfl⟩
    · rw [← counted,received,recounted,decoded]
    · rw [pool]
      exact once.sound few
  | work k worked decoded =>
    refine ⟨accepted,dropped,⟨owned,joins,feeds.worker worked,by rwa [decoded],recounted,?_,
      ⟨once.opened,once.drained,returned,once.rests,fun few => (once.sound few).worker worked⟩⟩,List.prefix_rfl⟩
    rw [← counted,received,recounted,decoded]
  | dispatch m carried pool decoded =>
    have dispatched := feeds.dispatch m (routed m (owns.upcoming m carried))
    have sound (few : calls ≤ 1) := (once.sound few).dispatch (running few m carried) m
    have total : feed.received = accepted.length + dropped + 1 := by
      rw [recounted,decoded,List.length_append,← received,counted]
      rfl
    rw [← pool] at dispatched sound
    refine ⟨_,_,⟨owned,joins,dispatched,?_,recounted,?_,⟨once.opened,once.drained,returned,once.rests,sound⟩⟩,?_⟩
    · rw [decoded]
      split
      next => exact kept.append (List.Sublist.refl _)
      next => exact kept.trans (List.sublist_append_left _ _)
    · rw [total]
      split
      next => simp; omega
      next => omega
    · split
      next => exact List.prefix_append _ _
      next => exact List.prefix_rfl

theorem ledger_step (routed : ∀ m, P m → start.shardOf m < start.numShards) (action : Action)
    (sends : ∀ messages, startOf action = some messages → ∀ m ∈ messages, m ≠ .zero ∧ P m)
    (step : s.step action = some next) : ∃ accepted' dropped',
      Ledger start P next accepted' dropped' (calls + (startOf action).toList.length) ∧ accepted <+: accepted' := by
  cases action with
  | start messages => exact ⟨accepted,dropped,ledger_start ledger messages (sends messages rfl) step,List.prefix_rfl⟩
  | feed action =>
    rcases step_feed action step with ⟨rfl,waits⟩ | ⟨other,feed,stepped,rfl⟩
    · exact ⟨accepted,dropped,ledger_wait ledger waits,List.prefix_rfl⟩
    · exact ledger_feed ledger routed action other feed stepped

end Ledger

theorem ledger_run {start : Normalizer} {P : WireMsg → Prop} (routed : ∀ m, P m → start.shardOf m < start.numShards)
    (actions : List Action) {s final : LiveSession} {accepted : List WireMsg} {dropped calls : Nat}
    (ledger : Ledger start P s accepted dropped calls)
    (sends : ∀ messages ∈ starts actions, ∀ m ∈ messages, m ≠ .zero ∧ P m) (ran : s.run actions = some final) :
    ∃ accepted' dropped', Ledger start P final accepted' dropped' (calls + (starts actions).length) ∧
      accepted <+: accepted' := by
  induction actions generalizing s accepted dropped calls with
  | nil =>
    cases ran
    exact ⟨accepted,dropped,ledger,List.prefix_rfl⟩
  | cons action rest ih =>
    obtain ⟨middle,step,onward⟩ := Option.bind_eq_some_iff.mp ran
    rw [starts_cons] at sends
    obtain ⟨_,_,kept,before⟩ := ledger_step ledger routed action
      (fun messages called => sends messages (List.mem_append_left _ (by simp [called]))) step
    obtain ⟨_,_,reached,after⟩ := ih kept (fun messages member => sends messages (List.mem_append_right _ member)) onward
    rw [starts_cons,List.length_append,← Nat.add_assoc]
    exact ⟨_,_,reached,before.trans after⟩

section Runs
variable {n : Nat} (positive : 1 ≤ n) {reference : Nat → Int64} {expectedMsgs : Nat} {actions : List Action}
  (sends : ∀ messages ∈ starts actions, ∀ m ∈ messages, m ≠ .zero ∧ instrumentOf m < numInstruments)
  {final : LiveSession} (ran : (construct n reference expectedMsgs).run actions = some final)
include positive sends ran

/-- Each message dispatched is at any moment applied, in a worker's hands, queued, or dropped; once
the wait of a first call is over, applied or dropped. -/
theorem dispatched_accounted :
    final.feed.received = ((List.range n).map fun k => (final.feed.pool.shards k).processed +
      (final.feed.pool.workers k).inFlight.length + (final.feed.pool.shards k).queue.length +
      (final.feed.pool.shards k).droppedFull).sum ∧
    ((starts actions).length ≤ 1 → final.drained = true → final.running = false ∧ final.feed.received =
      ((List.range n).map fun k => (final.feed.pool.shards k).processed +
        (final.feed.pool.shards k).droppedFull).sum) := by
  have addressed := (Normalizer.priced_ready n reference).addressed
  have routed (m : WireMsg) (known : instrumentOf m < numInstruments) :
      (Normalizer.ready n reference).shardOf m < (Normalizer.ready n reference).numShards := by
    rw [addressed.numShards]
    exact addressed.shardOf_lt positive m known
  obtain ⟨accepted,dropped,ledger,_⟩ := ledger_run routed actions
    (ledger_construct n reference expectedMsgs fun m => instrumentOf m < numInstruments) sends ran
  have held := ledger.feeds.accounted fun m member =>
    routed m (ledger.owns.decoded m (ledger.kept.subset member))
  rw [← ledger.counted,addressed.numShards] at held
  obtain ⟨_,_,returned,rests,sound⟩ := ledger.once
  rw [Nat.zero_add] at rests sound
  refine ⟨held.symm,fun few drained => ⟨rests few drained,held.symm.trans ?_⟩⟩
  have over_ := returned drained
  have sound := sound few
  have all := sound.numShards.trans addressed.numShards
  refine congrArg List.sum (List.map_congr_left fun k member => ?_)
  have inside := List.mem_range.mp member
  have gone := sound.joined k (by rwa [over_,DrainPc.joined,all])
  have empty := sound.drained k (by rwa [over_,DrainPc.drained,all])
  rw [gone,empty]
  simp [WorkerPc.inFlight]

end Runs

end LiveSession

end MarketFeed
