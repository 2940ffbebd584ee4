import MarketFeed.LiveSession

/-! Any sequence of calls on one feed: where every message of every call is, and the pool, which
works through the first call and is left as it is by the others. -/
namespace MarketFeed.LiveSession

/-- What `wait` promises on its return. -/
structure Settled (start : Normalizer) (s : LiveSession) : Prop where
  empty : ∀ k < start.numShards, (s.feed.pool.shards k).queue = []
  processed : ((List.range start.numShards).map fun k => (s.feed.pool.shards k).processed).sum = s.feed.received
  books : ∀ k < start.numShards, (s.feed.pool.shards k).SameBooks
    ((Pool.share start s.feed.decoded k).foldl Shard.apply (start.shards k))

/-- The normalizer's threads still run: at most one call, not yet drained. -/
structure Fresh (start : Normalizer) (s : LiveSession) (calls : List (List WireMsg)) : Prop where
  drained : s.drained = false
  sound : Pool.Sound start s.feed.pool s.feed.decoded
  once : if s.running then calls.length = 1 else calls = []

/-- Once drained, the pool is that of the first call, but for what later calls queue. -/
structure Spent (start : Normalizer) (s : LiveSession) (calls : List (List WireMsg)) : Prop where
  drained : s.drained = true
  called : calls ≠ []
  pool : ∃ pool, Pool.Sound start pool (calls.headD []) ∧ pool.drain = .returned ∧
    (∀ k, (s.feed.pool.shards k).processed = (pool.shards k).processed) ∧
    (∀ k < s.feed.pool.numShards, s.feed.pool.workers k = .exited) ∧
    calls.headD [] <+: s.feed.decoded ∧ (s.feed.decoded = calls.headD [] → s.feed.pool = pool)

structure Streams (s : LiveSession) (calls : List (List WireMsg)) : Prop where
  flows : s.feed.Flows calls.flatten
  idle : s.running = false → s.feed.publisher = .ended ∧ s.feed.receiver = .ended
  unused : s.running = false → s.drained = false → s.feed.pool.drain = .notCalled
  joined : s.drained = false → s.feed.pool.drain ≠ .notCalled → s.feed.publisher = .ended ∧ s.feed.receiver = .ended

/-- Between calls, and once `drain_and_stop` is called, neither of a call's threads runs. -/
structure Joins (s : LiveSession) : Prop where
  idle : s.running = false → s.feed.publisher = .ended ∧ s.feed.receiver = .ended
  unused : s.running = false → s.drained = false → s.feed.pool.drain = .notCalled
  joined : s.drained = false → s.feed.pool.drain ≠ .notCalled → s.feed.publisher = .ended ∧ s.feed.receiver = .ended

theorem Streams.joins {s : LiveSession} {calls : List (List WireMsg)} (streams : Streams s calls) : Joins s :=
  ⟨streams.idle,streams.unused,streams.joined⟩

structure Session (start : Normalizer) (s : LiveSession) (calls : List (List WireMsg)) : Prop where
  streams : Streams s calls
  phase : Fresh start s calls ∨ Spent start s calls

def Stops (s : LiveSession) : Action → Prop
  | .start _ => True
  | .feed action => s.feed.Settles action

/-- Queues never fill, and the receiver stops only when all is sent and received. -/
def Fair (s : LiveSession) : Action → Prop
  | .start _ => True
  | .feed action => s.feed.RoomyDispatch action ∧ s.feed.Settles action

theorem session_construct (numShards : Nat) (reference : Nat → Int64) (expectedMsgs : Nat) :
    Session (Normalizer.ready numShards reference) (construct numShards reference expectedMsgs) [] := by
  have blank := Pool.Sound.init (Normalizer.priced_ready numShards reference).blank
  refine ⟨⟨⟨⟨[],[],?_⟩,fun _ => Or.inr rfl,fun _ => ⟨rfl,by simp [construct]⟩⟩,fun _ => ⟨rfl,rfl⟩,
    fun _ _ => rfl,fun _ called => absurd rfl called⟩,Or.inl ⟨rfl,blank,rfl⟩⟩
  have nothing : (construct numShards reference expectedMsgs).feed.waiting.rest = [] := rfl
  exact ⟨Publisher.holds_init,by simp [nothing],by simp [nothing],by simp [LiveFeed.waiting],rfl,by simp,
    rfl,rfl,rfl,rfl,by simp [LiveFeed.waiting,construct]⟩

/-- What a step of the thread in `wait` does. -/
inductive Waits (s : LiveSession) : LiveSession → Prop
  | again (drained : s.drained = true) (publisher : s.feed.publisher = .ended) (receiver : s.feed.receiver = .ended) :
      Waits s { s with running := false }
  | first (undrained : s.drained = false) (returned : s.feed.pool.drain = .returned) :
      Waits s { s with drained := true, running := false }
  | call (undrained : s.drained = false) (running : s.feed.pool.drain = .notCalled)
      (publisher : s.feed.publisher = .ended) (receiver : s.feed.receiver = .ended) :
      Waits s { s with feed := { s.feed with pool := s.feed.pool.callDrain } }
  | drain (undrained : s.drained = false) (pool) (drained : s.feed.pool.drainStep = some pool) :
      Waits s { s with feed := { s.feed with pool := pool } }

theorem waitStep_waits {s next : LiveSession} (step : s.waitStep = some next) : s.running = true ∧ Waits s next := by
  unfold waitStep at step
  split at step
  next => cases step
  next running =>
    refine ⟨by simpa using running,?_⟩
    split at step
    next drained =>
      split at step
      next joined =>
        cases step
        exact .again drained joined.1 joined.2
      next => cases step
    next undrained =>
      have undrained : s.drained = false := by simpa using undrained
      split at step
      next returned =>
        cases step
        exact .first undrained returned
      next =>
        obtain ⟨feed,taken,rfl⟩ := Option.map_eq_some_iff.mp step
        unfold LiveFeed.mainStep at taken
        split at taken
        next notCalled =>
          split at taken
          next ended =>
            cases taken
            exact .call undrained notCalled ended.1 ended.2
          next => cases taken
        next =>
          obtain ⟨pool,drained,rfl⟩ := Option.map_eq_some_iff.mp taken
          exact .drain undrained pool drained

theorem step_feed {s next : LiveSession} (action : LiveFeed.Action) (step : s.step (.feed action) = some next) :
    (action = .main ∧ s.waitStep = some next) ∨
      (action ≠ .main ∧ ∃ feed, s.feed.step action = some feed ∧ { s with feed := feed } = next) := by
  cases action with
  | main => exact Or.inl ⟨rfl,step⟩
  | publisher | receiver | worker | network =>
    obtain ⟨feed,stepped,same⟩ := Option.map_eq_some_iff.mp step
    exact Or.inr ⟨by simp,feed,stepped,same⟩

section Joins
variable {s next : LiveSession} (joins : Joins s)
include joins

theorem joins_start (messages : List WireMsg) (step : s.start messages = some next) : Joins next := by
  obtain ⟨stopped,_,rfl⟩ := start_started step
  exact ⟨by simp,by simp,fun undrained called => absurd (joins.unused stopped undrained) called⟩

theorem joins_feed (action : LiveFeed.Action) (other : action ≠ .main) (feed : LiveFeed)
    (step : s.feed.step action = some feed) : Joins { s with feed := feed } := by
  have frame : feed.pool.drain = s.feed.pool.drain ∧
      (s.feed.publisher = .ended ∧ s.feed.receiver = .ended → feed.publisher = .ended ∧ feed.receiver = .ended) := by
    by_cases lossless : LiveFeed.Lossless action
    · have effect := LiveFeed.step_effect action lossless other step
      refine ⟨LiveFeed.effect_drain effect,fun ⟨publisher,receiver⟩ => ?_⟩
      cases effect with
      | quiet _ _ pool decoded going => simp [publisher,receiver] at going
      | dispatch _ n left offset located more pool decoded => simp [receiver] at located
      | work k pool worked => exact ⟨publisher,receiver⟩
    · cases action with
      | network socket =>
        simp only [LiveFeed.step] at step
        split at step <;> cases step
        exact ⟨rfl,id⟩
      | publisher | receiver | worker | main => exact absurd trivial lossless
  obtain ⟨drain,stays⟩ := frame
  refine ⟨fun stopped => stays (joins.idle stopped),?_,?_⟩
  · exact fun stopped undrained => drain.trans (joins.unused stopped undrained)
  · intro undrained called
    rw [drain] at called
    exact stays (joins.joined undrained called)

theorem joins_wait (step : s.waitStep = some next) : Joins next := by
  obtain ⟨running,waits⟩ := waitStep_waits step
  have going (stopped : s.running = false) : False := by simp [running] at stopped
  cases waits with
  | again drained publisher receiver =>
    exact ⟨fun _ => ⟨publisher,receiver⟩,fun _ undrained => by simp [drained] at undrained,
      fun undrained => by simp [drained] at undrained⟩
  | first undrained returned =>
    have drained (contra : true = false) : False := by cases contra
    exact ⟨fun _ => joins.joined undrained (by simp [returned]),fun _ contra => (drained contra).elim,
      fun contra => (drained contra).elim⟩
  | call undrained notCalled publisher receiver =>
    exact ⟨fun stopped => (going stopped).elim,fun stopped => (going stopped).elim,fun _ _ => ⟨publisher,receiver⟩⟩
  | drain undrained pool stepped =>
    exact ⟨fun stopped => (going stopped).elim,fun stopped => (going stopped).elim,
      fun undrained _ => joins.joined undrained (Pool.drainStep_called stepped).1⟩

theorem joins_step (action : Action) (step : s.step action = some next) : Joins next := by
  cases action with
  | start messages => exact joins_start joins messages step
  | feed action =>
    rcases step_feed action step with ⟨rfl,waits⟩ | ⟨other,feed,stepped,rfl⟩
    · exact joins_wait joins waits
    · exact joins_feed joins action other feed stepped

end Joins

section Streams
variable {s next : LiveSession} {calls : List (List WireMsg)} (streams : Streams s calls)
include streams

theorem streams_start (messages : List WireMsg) (typed : ∀ m ∈ messages, m ≠ .zero)
    (step : s.start messages = some next) : Streams next (calls ++ [messages]) := by
  obtain ⟨idle,unused,joined⟩ := joins_start streams.joins messages step
  obtain ⟨stopped,_,rfl⟩ := start_started step
  obtain ⟨publisher,receiver⟩ := streams.idle stopped
  obtain ⟨empty,decoded,received,sent,datagrams⟩ := LiveFeed.flows_complete streams.flows publisher receiver
  refine ⟨⟨⟨[],[],?_⟩,by simp,by simp⟩,idle,unused,joined⟩
  refine ⟨Publisher.holds_init,typed,by simp [LiveFeed.waiting],by simp [LiveFeed.waiting],empty,by simp,?_,?_,?_,?_,?_⟩
  · simp [LiveFeed.waiting,LiveFeed.upcoming,decoded]
  · simp [LiveFeed.waiting,sent]
  · simp [LiveFeed.waiting,received,decoded]
  · simpa [LiveFeed.waiting] using datagrams
  · simp [LiveFeed.waiting]

theorem streams_feed (action : LiveFeed.Action) (lossless : LiveFeed.Lossless action) (other : action ≠ .main)
    (settles : s.feed.Settles action) (feed : LiveFeed) (step : s.feed.step action = some feed) :
    Streams { s with feed := feed } calls := by
  obtain ⟨idle,unused,joined⟩ := joins_feed streams.joins action other feed step
  exact ⟨LiveFeed.flows_step streams.flows action lossless settles step,idle,unused,joined⟩

theorem streams_wait (step : s.waitStep = some next) : Streams next calls := by
  obtain ⟨idle,unused,joined⟩ := joins_wait streams.joins step
  refine ⟨?_,idle,unused,joined⟩
  cases (waitStep_waits step).2 with
  | again | first => exact streams.flows
  | call | drain => exact LiveFeed.flows_pool streams.flows _

end Streams

theorem streams_step {s next : LiveSession} {calls : List (List WireMsg)} (streams : Streams s calls) (action : Action)
    (typed : ∀ messages, startOf action = some messages → ∀ m ∈ messages, m ≠ .zero)
    (lossless : Lossless action) (stops : Stops s action) (step : s.step action = some next) :
    Streams next (calls ++ (startOf action).toList) := by
  cases action with
  | start messages => exact streams_start streams messages (typed messages rfl) step
  | feed action =>
    rw [startOf,Option.toList_none,List.append_nil]
    rcases step_feed action step with ⟨rfl,waits⟩ | ⟨other,feed,stepped,rfl⟩
    · exact streams_wait streams waits
    · exact streams_feed streams action lossless other stops feed stepped

section Steps
variable {start : Normalizer} {s next : LiveSession} {calls : List (List WireMsg)} (session : Session start s calls)
include session

theorem session_start (messages : List WireMsg) (typed : ∀ m ∈ messages, m ≠ .zero)
    (step : s.start messages = some next) : Session start next (calls ++ [messages]) := by
  refine ⟨streams_start session.streams messages typed step,?_⟩
  obtain ⟨stopped,_,rfl⟩ := start_started step
  rcases session.phase with ⟨drained,sound,once⟩ | ⟨drained,called,pool⟩
  · rw [if_neg (by simp [stopped])] at once
    subst once
    exact Or.inl ⟨drained,sound,by simp⟩
  · refine Or.inr ⟨drained,by simp,?_⟩
    have head : (calls ++ [messages]).headD [] = calls.headD [] := by
      cases calls with
      | nil => exact absurd rfl called
      | cons first rest => rfl
    rw [head]
    exact pool

theorem session_feed (action : LiveFeed.Action) (lossless : LiveFeed.Lossless action) (other : action ≠ .main)
    (roomy : s.feed.RoomyDispatch action) (settles : s.feed.Settles action) (feed : LiveFeed)
    (step : s.feed.step action = some feed) : Session start { s with feed := feed } calls := by
  refine ⟨streams_feed session.streams action lossless other settles feed step,?_⟩
  have effect := LiveFeed.step_effect action lossless other step
  rcases session.phase with ⟨drained,sound,once⟩ | ⟨drained,called,pool,sound,returned,processed,gone,before,same⟩
  · refine Or.inl ?_
    cases effect with
    | quiet _ _ pool decoded going => exact ⟨drained,by rwa [pool,decoded],once⟩
    | dispatch _ n left offset located more pool decoded =>
      have running : s.feed.pool.drain = .notCalled := by
        by_contra called
        simp [(session.streams.joined drained called).2] at located
      have accepts := LiveFeed.dispatch_accepts (roomy rfl n left offset located more.1 more.2)
      have dispatched := sound.dispatch running (s.feed.messageAt offset)
      rw [if_pos accepts] at dispatched
      exact ⟨drained,by rwa [pool,decoded],once⟩
    | work k pool worked => exact ⟨drained,sound.worker worked,once⟩
  · refine Or.inr ?_
    cases effect with
    | quiet _ _ same' decoded going =>
      exact ⟨drained,called,pool,sound,returned,by rwa [same'],by rwa [same'],by rwa [decoded],by rwa [same',decoded]⟩
    | dispatch _ n left offset located more pool' decoded =>
      obtain ⟨workers,_,numShards,kept⟩ := LiveFeed.dispatch_frame s.feed.pool (s.feed.messageAt offset)
      refine ⟨drained,called,pool,sound,returned,?_,?_,?_,?_⟩
      · intro k
        rw [pool',kept,processed]
      · rwa [pool',workers,numShards]
      · rw [decoded]
        exact before.trans (List.prefix_append _ _)
      · intro equal
        have shorter := before.length_le
        rw [decoded] at equal
        have lengths := congrArg List.length equal
        simp only [List.length_append,List.length_singleton] at lengths
        omega
    | work k pool' worked =>
      obtain ⟨inside,_,_,_,move⟩ := Pool.workerStep_move worked
      rw [gone k inside] at move
      cases move

theorem session_wait (step : s.waitStep = some next) : Session start next calls := by
  refine ⟨streams_wait session.streams step,?_⟩
  obtain ⟨streams,phase⟩ := session
  obtain ⟨running,waits⟩ := waitStep_waits step
  have fresh (undrained : s.drained = false) : Fresh start s calls :=
    phase.resolve_right fun spent => by simp [spent.drained] at undrained
  cases waits with
  | again drained publisher receiver =>
    have spent := phase.resolve_left fun fresh => by simp [fresh.drained] at drained
    exact Or.inr ⟨drained,spent.called,spent.pool⟩
  | first undrained returned =>
    obtain ⟨_,sound,once⟩ := fresh undrained
    obtain ⟨publisher,receiver⟩ := streams.joined undrained (by simp [returned])
    obtain ⟨_,decoded,_⟩ := LiveFeed.flows_complete streams.flows publisher receiver
    rw [if_pos running] at once
    obtain ⟨only,rfl⟩ := List.length_eq_one_iff.mp once
    rw [List.flatten_singleton] at decoded
    refine Or.inr ⟨rfl,by simp,s.feed.pool,decoded ▸ sound,returned,fun _ => rfl,?_,?_,fun _ => rfl⟩
    · intro k inside
      exact sound.joined k (by rwa [returned])
    · exact (decoded ▸ List.prefix_refl _ : only <+: s.feed.decoded)
  | call undrained notCalled publisher receiver =>
    obtain ⟨drained,sound,once⟩ := fresh undrained
    exact Or.inl ⟨drained,sound.callDrain notCalled,once⟩
  | drain undrained pool stepped =>
    obtain ⟨drained,sound,once⟩ := fresh undrained
    exact Or.inl ⟨drained,sound.drainStep stepped,once⟩

theorem session_step (action : Action) (typed : ∀ messages, startOf action = some messages → ∀ m ∈ messages, m ≠ .zero)
    (lossless : Lossless action) (fair : Fair s action) (step : s.step action = some next) :
    Session start next (calls ++ (startOf action).toList) := by
  cases action with
  | start messages => exact session_start session messages (typed messages rfl) step
  | feed action =>
    rw [startOf,Option.toList_none,List.append_nil]
    rcases step_feed action step with ⟨rfl,waits⟩ | ⟨other,feed,stepped,rfl⟩
    · exact session_wait session waits
    · exact session_feed session action lossless other fair.1 fair.2 feed stepped

end Steps

theorem starts_cons (action : Action) (rest : List Action) :
    starts (action :: rest) = (startOf action).toList ++ starts rest := by
  cases action <;> rfl

theorem session_run (actions : List Action) {start : Normalizer} {s final : LiveSession}
    {calls : List (List WireMsg)} (session : Session start s calls)
    (typed : ∀ messages ∈ starts actions, ∀ m ∈ messages, m ≠ .zero)
    (lossless : ∀ action ∈ actions, Lossless action) (fair : s.Along Fair actions)
    (ran : s.run actions = some final) : Session start final (calls ++ starts actions) := by
  induction actions generalizing s calls with
  | nil =>
    cases ran
    simpa [starts] using session
  | cons action rest ih =>
    obtain ⟨next,step,onward⟩ := Option.bind_eq_some_iff.mp ran
    rw [starts_cons] at typed ⊢
    rw [← List.append_assoc]
    refine ih (session_step session action ?_ (lossless action List.mem_cons_self) fair.1 step) ?_ ?_
      (fair.2 next step) onward
    · exact fun messages called => typed messages (List.mem_append_left _ (by simp [called]))
    · exact fun messages member => typed messages (List.mem_append_right _ member)
    · exact fun x member => lossless x (List.mem_cons_of_mem _ member)

theorem within_step {s next : LiveSession} (within : s.feed.QueuesWithin) (action : Action) (lossless : Lossless action)
    (step : s.step action = some next) : next.feed.QueuesWithin := by
  cases action with
  | start messages =>
    obtain ⟨_,_,rfl⟩ := start_started step
    exact within
  | feed action =>
    rcases step_feed action step with ⟨rfl,waits⟩ | ⟨other,feed,stepped,rfl⟩
    · cases (waitStep_waits waits).2 with
      | again | first | call => exact within
      | drain undrained pool stepped =>
        intro k
        rw [Pool.drainStep_shards stepped]
        exact within k
    · exact LiveFeed.within_effect within (LiveFeed.step_effect action lossless other stepped)

/-- A run of fewer messages than a queue takes is fair once its receiver stops in time. -/
theorem fair_run (actions : List Action) {s final : LiveSession} {calls : List (List WireMsg)}
    (streams : Streams s calls) (within : s.feed.QueuesWithin)
    (typed : ∀ messages ∈ starts actions, ∀ m ∈ messages, m ≠ .zero)
    (lossless : ∀ action ∈ actions, Lossless action) (stops : s.Along Stops actions)
    (ran : s.run actions = some final) (short : (calls ++ starts actions).flatten.length < kQueueCapacity) :
    s.Along Fair actions := by
  induction actions generalizing s calls with
  | nil => trivial
  | cons action rest ih =>
    obtain ⟨next,step,onward⟩ := Option.bind_eq_some_iff.mp ran
    rw [starts_cons] at typed short
    have first := lossless action List.mem_cons_self
    refine ⟨?_,fun other taken => ?_⟩
    · cases action with
      | start messages => trivial
      | feed action =>
        refine ⟨LiveFeed.within_roomy within streams.flows ?_ action,stops.1⟩
        rw [List.flatten_append,List.length_append] at short
        omega
    · obtain rfl := Option.some.inj (step.symm.trans taken)
      refine ih (streams_step streams action ?_ first stops.1 step) (within_step within action first step) ?_ ?_
        (stops.2 next step) onward ?_
      · exact fun messages called => typed messages (List.mem_append_left _ (by simp [called]))
      · exact fun messages member => typed messages (List.mem_append_right _ member)
      · exact fun x member => lossless x (List.mem_cons_of_mem _ member)
      · rwa [List.append_assoc]

theorem settled_iff {n : Nat} (positive : 1 ≤ n) {reference : Nat → Int64} {s : LiveSession}
    {calls : List (List WireMsg)} (session : Session (Normalizer.ready n reference) s calls)
    (known : ∀ messages ∈ calls, ∀ m ∈ messages, instrumentOf m < numInstruments) (stopped : s.running = false) :
    Settled (Normalizer.ready n reference) s ↔ ∀ messages ∈ calls.tail, messages = [] := by
  have numShards := (Normalizer.priced_ready n reference).addressed.numShards
  obtain ⟨publisher,receiver⟩ := session.streams.idle stopped
  obtain ⟨_,decoded,received,_⟩ := LiveFeed.flows_complete session.streams.flows publisher receiver
  rcases session.phase with ⟨_,sound,once⟩ | ⟨_,called,pool,sound,returned,processed,_,_,same⟩
  · rw [if_neg (by simp [stopped])] at once
    subst once
    have decoded : s.feed.decoded = [] := decoded
    rw [decoded] at sound
    have nothing (k : Nat) : (s.feed.pool.shards k).applied = [] ∧ (s.feed.pool.shards k).queue = [] := by
      have none_ := sound.handed k
      simp only [handed,Pool.share,List.filter_nil,List.map_nil,List.append_eq_nil_iff] at none_
      exact ⟨none_.1.1,none_.2⟩
    refine ⟨fun _ => by simp,fun _ => ⟨fun k _ => (nothing k).2,?_,fun k _ => ?_⟩⟩
    · rw [numShards,received,LiveFeed.shares_processed positive (by simp) sound fun k _ => (nothing k).1]
      rfl
    · have books := (sound.worked k).books
      rw [(nothing k).1] at books
      rwa [decoded]
  · obtain ⟨first,later,rfl⟩ := List.exists_cons_of_ne_nil called
    simp only [List.headD_cons,List.flatten_cons,List.tail_cons] at sound same decoded received ⊢
    have gone : ∀ k < pool.numShards, pool.workers k = .exited := fun k inside =>
      sound.joined k (by rwa [returned])
    have applied := sound.finished gone (by rwa [numShards])
    rw [numShards] at applied
    have counted := LiveFeed.shares_processed positive (known first List.mem_cons_self) sound applied
    have total : ((List.range n).map fun k => (s.feed.pool.shards k).processed).sum = first.length := by
      simpa only [processed] using counted
    rw [← List.flatten_eq_nil_iff]
    refine ⟨fun settled => ?_,fun silent => ?_⟩
    · have equal := settled.processed
      rw [numShards,total,received,List.length_append] at equal
      exact List.length_eq_zero_iff.mp (by omega)
    · rw [silent,List.append_nil] at decoded received
      have whole := same decoded
      refine ⟨fun k inside => ?_,by rw [numShards,total,received],fun k inside => ?_⟩
      · rw [whole]
        exact sound.drained k (by rw [returned]; simpa [DrainPc.drained,sound.numShards] using inside)
      · rw [numShards] at inside
        have books := (sound.worked k).books
        rw [applied k inside] at books
        rwa [whole,decoded]

end MarketFeed.LiveSession
