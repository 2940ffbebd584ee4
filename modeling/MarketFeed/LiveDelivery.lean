import MarketFeed.LivePath
import MarketFeed.Library.Routing

/-! From the receiver to the books: what the feed counts as received reaches its book
exactly when no dispatch met a full queue. The network may do what it likes with the
datagrams. -/
namespace MarketFeed.LiveFeed
open Packed

def RoomyDispatch (f : LiveFeed) (action : Action) : Prop :=
  action = .receiver → ∀ n left offset, f.receiver = .decoding n left offset → 0 < left → offset < n →
    (f.pool.shards (f.pool.shardOf (f.messageAt offset))).queue.length < kQueueCapacity - 1

def Own (messages : List WireMsg) (d : List UInt8) : Prop :=
  ∃ group, Fits group ∧ (∀ m ∈ group, m ∈ messages) ∧ d = datagram group

/-- `accepted` are the messages whose dispatch succeeded. -/
structure Delivers (messages : List WireMsg) (start : Normalizer) (f : LiveFeed) (pending : List WireMsg)
    (accepted : List WireMsg) : Prop where
  holds : f.locals.Holds pending
  typed : ∀ m ∈ f.rest, m ≠ .zero
  ceased : f.publisher ≠ .looping → pending = [] ∧ f.rest = []
  done : f.publisherDone = true ↔ f.publisher = .ended
  queued : ∀ m ∈ pending ++ f.rest, m ∈ messages
  history : ∀ d ∈ f.sentDatagrams, Own messages d
  network : ∀ d ∈ f.socket, d ∈ f.sentDatagrams
  upcoming : ∀ m ∈ f.upcoming, m ∈ messages
  decoded : ∀ m ∈ f.decoded, m ∈ messages
  received : f.received = f.decoded.length
  sound : Pool.Sound start f.pool accepted
  kept : accepted.Sublist f.decoded
  joined : f.pool.drain ≠ .notCalled → f.receiver = .ended

def lost (f : LiveFeed) (accepted : List WireMsg) : Nat := f.decoded.length - accepted.length

/-- A step loses a message exactly when it dispatches to a full queue. -/
def Loses (f : LiveFeed) (action : Action) (accepted : List WireMsg) (next : LiveFeed)
    (accepted' : List WireMsg) : Prop :=
  (RoomyDispatch f action ∧ next.lost accepted' = f.lost accepted) ∨
    (¬RoomyDispatch f action ∧ next.lost accepted' = f.lost accepted + 1)

theorem delivers_init (messages : List WireMsg) (typed : ∀ m ∈ messages, m ≠ .zero) (n : Nat)
    (reference : Nat → Int64) :
    Delivers messages (Normalizer.ready n reference) (init messages n reference) [] [] where
  holds := Publisher.holds_init
  typed := typed
  ceased looping := absurd rfl looping
  done := by simp [init]
  queued := by simp [init]
  history := by simp [init]
  network := by simp [init]
  upcoming := by simp [init,LiveFeed.upcoming]
  decoded := by simp [init]
  received := rfl
  sound := Pool.Sound.init (Normalizer.priced_ready n reference).blank
  kept := .slnil
  joined called := absurd rfl called

section Steps
variable {messages : List WireMsg} {start : Normalizer} {f next : LiveFeed}
  {pending accepted : List WireMsg} (delivers : Delivers messages start f pending accepted)
include delivers

theorem delivers_publisher (step : f.publisherStep = some next) :
    ∃ pending, Delivers messages start next pending accepted ∧ next.decoded = f.decoded := by
  obtain ⟨holds,typed,ceased,done,queued,history,network,upcoming,decoded,received,sound,kept,joined⟩ := delivers
  obtain ⟨more,pending',publishes⟩ := publisher_publishes holds typed ceased done step
  obtain ⟨sameReceiver,sameBuf,_,sameReceived,sameDecoded,samePool⟩ := publishes.receiver
  have flow : ∀ m ∈ more.flatten ++ pending' ++ next.rest, m ∈ messages := by
    rw [publishes.flow]
    exact queued
  refine ⟨pending',⟨publishes.holds,?_,publishes.ceased,publishes.done,?_,?_,?_,?_,?_,?_,?_,?_,?_⟩,sameDecoded⟩
  · exact fun m member => typed m (publishes.shorter.subset member)
  · intro m member
    rw [List.append_assoc] at flow
    exact flow m (List.mem_append_right _ member)
  · intro d member
    rw [publishes.sentDatagrams] at member
    rcases List.mem_append.mp member with earlier | later
    · exact history d earlier
    · obtain ⟨group,chosen,rfl⟩ := List.mem_map.mp later
      refine ⟨group,(publishes.fits group chosen).2,fun m carried => flow m ?_,rfl⟩
      exact List.mem_append_left _ (List.mem_append_left _ (List.mem_flatten_of_mem chosen carried))
  · intro d member
    rw [publishes.socket] at member
    rw [publishes.sentDatagrams]
    rcases List.mem_append.mp member with earlier | later
    · exact List.mem_append_left _ (network d earlier)
    · exact List.mem_append_right _ later
  · simpa only [LiveFeed.upcoming,sameReceiver,sameBuf] using upcoming
  · rwa [sameDecoded]
  · rwa [sameReceived,sameDecoded]
  · rwa [samePool]
  · rwa [sameDecoded]
  · rwa [samePool,sameReceiver]

theorem delivers_pool (pool : Pool) (sound : Pool.Sound start pool accepted)
    (joined : pool.drain ≠ .notCalled → f.receiver = .ended) :
    Delivers messages start { f with pool := pool } pending accepted :=
  ⟨delivers.holds,delivers.typed,delivers.ceased,delivers.done,delivers.queued,delivers.history,
    delivers.network,delivers.upcoming,delivers.decoded,delivers.received,sound,delivers.kept,joined⟩

theorem delivers_main (step : f.mainStep = some next) :
    Delivers messages start next pending accepted ∧ next.decoded = f.decoded := by
  unfold mainStep at step
  split at step
  next running =>
    split at step
    next ended =>
      cases step
      exact ⟨delivers_pool delivers _ (delivers.sound.callDrain running) fun _ => ended.2,rfl⟩
    next => cases step
  next called =>
    obtain ⟨pool,drained,rfl⟩ := Option.map_eq_some_iff.mp step
    exact ⟨delivers_pool delivers _ (delivers.sound.drainStep drained) fun _ => delivers.joined called,rfl⟩

theorem delivers_worker (s : Nat) (pool : Pool) (worked : f.pool.workerStep s = some pool) :
    Delivers messages start { f with pool := pool } pending accepted := by
  refine delivers_pool delivers _ (delivers.sound.worker worked) ?_
  obtain ⟨_,shard,pc,rfl,_⟩ := Pool.workerStep_move worked
  exact delivers.joined

theorem delivers_running (going : f.receiver ≠ .ended) : f.pool.drain = .notCalled := by
  by_contra called
  exact going (delivers.joined called)

theorem delivers_decode (n left offset : Nat) (located : f.receiver = .decoding n (left + 1) offset)
    (inside : offset < n) : ∃ accepted', Delivers messages start (f.decodeOne n left offset) pending accepted' ∧
      Loses f .receiver accepted (f.decodeOne n left offset) accepted' := by
  have running := delivers_running delivers (by simp [located])
  obtain ⟨holds,typed,ceased,done,queued,history,network,upcoming,decoded,received,sound,kept,joined⟩ := delivers
  have split : f.upcoming = f.messageAt offset :: decodeFrom f.buf n left
      (offset + msgSize (MsgType.ofByte ((f.buf.drop offset).headD 0))) := by
    simp only [LiveFeed.upcoming,located]
    rw [decodeFrom,if_pos inside]
    rfl
  rw [split] at upcoming
  have dispatched := sound.dispatch running (f.messageAt offset)
  have pushed : (f.pool.dispatch (f.messageAt offset)).1 = true ↔ RoomyDispatch f .receiver := by
    have bounded := sound.bounded (f.pool.shardOf (f.messageAt offset))
    have roomy : RoomyDispatch f .receiver ↔
        (f.pool.shards (f.pool.shardOf (f.messageAt offset))).queue.length < kQueueCapacity - 1 := by
      simp [RoomyDispatch,located,inside]
    rw [roomy]
    rcases f.pool.toNormalizer.dispatch_cases (f.messageAt offset) with ⟨full,outcome⟩ | ⟨room,outcome⟩
    · simp [Pool.dispatch,outcome,full]
    · simp only [Pool.dispatch,outcome,true_iff]
      omega
  have shorter := kept.length_le
  refine ⟨_,⟨holds,typed,ceased,done,queued,history,network,?_,?_,?_,dispatched,?_,?_⟩,?_⟩
  · exact fun m member => upcoming m (List.mem_cons_of_mem _ member)
  · intro m member
    rcases List.mem_append.mp member with earlier | last
    · exact decoded m earlier
    · rw [List.mem_singleton.mp last]
      exact upcoming _ (List.mem_cons_self ..)
  · simp [decodeOne,received]
  · split
    next => exact kept.append (List.Sublist.refl _)
    next => exact kept.trans (List.sublist_append_left _ _)
  · exact fun called => absurd running called
  · rw [Loses,← pushed]
    cases outcome : (f.pool.dispatch (f.messageAt offset)).1 with
    | true => simp [lost,decodeOne]
    | false =>
      refine Or.inr ⟨by simp,?_⟩
      simp only [lost,decodeOne,List.length_append,List.length_singleton]
      simp
      omega

theorem delivers_receiver (step : f.receiverStep = some next) :
    ∃ accepted', Delivers messages start next pending accepted' ∧ Loses f .receiver accepted next accepted' := by
  have outside : ∀ kept : Delivers messages start next pending accepted, next.decoded = f.decoded →
      (∀ n left offset, f.receiver = .decoding n left offset → ¬(0 < left ∧ offset < n)) →
      ∃ accepted', Delivers messages start next pending accepted' ∧ Loses f .receiver accepted next accepted' := by
    intro kept same silent
    have roomy : RoomyDispatch f .receiver := by
      intro _ n left offset located positive inside
      exact absurd ⟨positive,inside⟩ (silent n left offset located)
    exact ⟨accepted,kept,Or.inl ⟨roomy,by rw [lost,lost,same]⟩⟩
  have running := fun going => delivers_running delivers going
  have whole := delivers
  obtain ⟨holds,typed,ceased,done,queued,history,network,upcoming,decoded,received,sound,kept,joined⟩ := delivers
  have sent (d : List UInt8) (rest : List (List UInt8)) (head : f.socket = d :: rest) :
      Own messages d ∧ ∀ d ∈ rest, d ∈ f.sentDatagrams := by
    rw [head] at network
    exact ⟨history d (network d (List.mem_cons_self ..)),fun x member => network x (List.mem_cons_of_mem _ member)⟩
  cases receiverStep_move step with
  | silence receiving empty =>
    have running := running (by simp [receiving])
    exact outside ⟨holds,typed,ceased,done,queued,history,network,by simp [LiveFeed.upcoming],decoded,
      received,sound,kept,fun called => absurd running called⟩ rfl (by simp [receiving])
  | blank d rest receiving head void =>
    obtain ⟨⟨group,_,_,rfl⟩,_⟩ := sent d rest head
    have filled := length_datagram_pos group
    simp [void] at filled
  | datagram d rest receiving head filled =>
    have running := running (by simp [receiving])
    obtain ⟨⟨group,fits,known,rfl⟩,remains⟩ := sent d rest head
    have decodes := decodePacket_datagram group fits f.buf
    rw [decodePacket] at decodes
    refine outside ⟨holds,typed,ceased,done,queued,history,remains,?_,decoded,
      received,sound,kept,fun called => absurd running called⟩ rfl (by simp [receiving])
    simp only [LiveFeed.upcoming,take]
    rw [decodes]
    exact known
  | decode n left offset located inside => exact delivers_decode whole n left offset located inside
  | finish n left offset located finished =>
    have running := running (by simp [located])
    refine outside ⟨holds,typed,ceased,done,queued,history,network,by simp [LiveFeed.upcoming],decoded,
      received,sound,kept,fun called => absurd running called⟩ rfl ?_
    intro n' left' offset' same
    cases located.symm.trans same
    exact finished
  | resume timedOut flag =>
    have running := running (by simp [timedOut])
    exact outside ⟨holds,typed,ceased,done,queued,history,network,by simp [LiveFeed.upcoming],decoded,
      received,sound,kept,fun called => absurd running called⟩ rfl (by simp [timedOut])
  | leave timedOut flag =>
    have running := running (by simp [timedOut])
    exact outside ⟨holds,typed,ceased,done,queued,history,network,by simp [LiveFeed.upcoming],decoded,
      received,sound,kept,fun called => absurd running called⟩ rfl (by simp [timedOut])

theorem delivers_network (socket : List (List UInt8)) (own : ∀ d ∈ socket, d ∈ f.sentDatagrams) :
    Delivers messages start { f with socket := socket } pending accepted :=
  ⟨delivers.holds,delivers.typed,delivers.ceased,delivers.done,delivers.queued,delivers.history,
    own,delivers.upcoming,delivers.decoded,delivers.received,delivers.sound,delivers.kept,delivers.joined⟩

theorem delivers_step (action : Action) (step : f.step action = some next) :
    ∃ pending' accepted', Delivers messages start next pending' accepted' ∧
      Loses f action accepted next accepted' := by
  have silent : ∀ pending', Delivers messages start next pending' accepted → next.decoded = f.decoded →
      action ≠ .receiver → ∃ pending' accepted', Delivers messages start next pending' accepted' ∧
        Loses f action accepted next accepted' :=
    fun pending' kept same other =>
      ⟨pending',accepted,kept,Or.inl ⟨fun contra => absurd contra other,by rw [lost,lost,same]⟩⟩
  cases action with
  | publisher =>
    obtain ⟨pending',kept,same⟩ := delivers_publisher delivers step
    exact silent pending' kept same (by simp)
  | receiver =>
    obtain ⟨accepted',kept,loses⟩ := delivers_receiver delivers step
    exact ⟨pending,accepted',kept,loses⟩
  | worker s =>
    obtain ⟨pool,worked,rfl⟩ := Option.map_eq_some_iff.mp step
    exact silent pending (delivers_worker delivers s pool worked) rfl (by simp)
  | main =>
    obtain ⟨kept,same⟩ := delivers_main delivers step
    exact silent pending kept same (by simp)
  | network socket =>
    simp only [LiveFeed.step] at step
    split at step
    next own =>
      cases step
      exact silent pending (delivers_network delivers socket own) rfl (by simp)
    next => cases step

end Steps

theorem delivers_run (actions : List Action) {messages : List WireMsg} {start : Normalizer}
    {f final : LiveFeed} {pending accepted : List WireMsg}
    (delivers : Delivers messages start f pending accepted) (ran : f.run actions = some final) :
    ∃ pending' accepted', Delivers messages start final pending' accepted' ∧
      f.lost accepted ≤ final.lost accepted' ∧
      (f.Along RoomyDispatch actions ↔ final.lost accepted' = f.lost accepted) := by
  induction actions generalizing f pending accepted with
  | nil =>
    cases ran
    exact ⟨pending,accepted,delivers,Nat.le_refl _,by simp [Along]⟩
  | cons action rest ih =>
    obtain ⟨next,step,onward⟩ := Option.bind_eq_some_iff.mp ran
    obtain ⟨middle,some_,kept,loses⟩ := delivers_step delivers action step
    obtain ⟨pending',accepted',final_,more,along⟩ := ih kept onward
    have unfolded : f.Along RoomyDispatch (action :: rest) ↔
        RoomyDispatch f action ∧ next.Along RoomyDispatch rest := by
      simp [Along,step]
    refine ⟨pending',accepted',final_,?_,?_⟩
    · rcases loses with ⟨_,same⟩ | ⟨_,same⟩ <;> omega
    · rw [unfolded,along]
      rcases loses with ⟨roomy,same⟩ | ⟨full,same⟩
      · simp only [roomy,true_and]
        omega
      · simp only [full,false_and,false_iff]
        omega

/-- Fewer messages than a queue takes cannot fill one. -/
theorem short_run_roomy (actions : List Action) {messages : List WireMsg} {start : Normalizer}
    {f final : LiveFeed} {groups : List (List WireMsg)} {waiting pending accepted : List WireMsg}
    (short : messages.length < kQueueCapacity) (accounted : Accounted messages f groups waiting)
    (delivers : Delivers messages start f pending accepted)
    (lossless : ∀ action ∈ actions, Lossless action) (ran : f.run actions = some final) :
    f.Along RoomyDispatch actions := by
  induction actions generalizing f groups waiting pending accepted with
  | nil => trivial
  | cons action rest ih =>
    obtain ⟨next,step,onward⟩ := Option.bind_eq_some_iff.mp ran
    refine ⟨?_,?_⟩
    · intro _ n left offset located positive inside
      obtain ⟨count,rfl⟩ : ∃ count, left = count + 1 := ⟨left - 1,by omega⟩
      have whole := congrArg List.length accounted.whole
      have upcoming : 1 ≤ f.upcoming.length := by
        simp only [LiveFeed.upcoming,located]
        rw [decodeFrom,if_pos inside]
        exact Nat.succ_pos _
      have handed := congrArg List.length (delivers.sound.handed (f.pool.shardOf (f.messageAt offset)))
      have shared := List.length_filter_le
        (fun m => decide (start.shardOf m = f.pool.shardOf (f.messageAt offset))) accepted
      have kept := delivers.kept.length_le
      simp only [List.length_append,MarketFeed.handed,Pool.share,List.length_map] at whole handed
      omega
    · intro other taken
      cases step.symm.trans taken
      obtain ⟨groups,waiting,accounted⟩ := accounted_step accounted action (lossless action (List.mem_cons_self ..)) step
      obtain ⟨pending,accepted,delivers,_⟩ := delivers_step delivers action step
      exact ih accounted delivers (fun x member => lossless x (List.mem_cons_of_mem _ member)) onward

/-- Once every shard has applied its share, the counts of the shards add up. -/
theorem shares_processed {p : Pool} {n : Nat} {reference : Nat → Int64} {accepted : List WireMsg} (positive : 1 ≤ n)
    (known : ∀ m ∈ accepted, instrumentOf m < numInstruments) (sound : Pool.Sound (Normalizer.ready n reference) p accepted)
    (applied : ∀ s < n, (p.shards s).applied = Pool.share (Normalizer.ready n reference) accepted s) :
    ((List.range n).map fun s => (p.shards s).processed).sum = accepted.length := by
  have addressed := (Normalizer.priced_ready n reference).addressed
  have routed : ∀ m ∈ accepted, (Normalizer.ready n reference).shardOf m < n := fun m member =>
    addressed.shardOf_lt positive m (known m member)
  have whole := (Routing.flatMap_filter_perm accepted _ n routed).length_eq
  rw [List.length_flatMap] at whole
  rw [← whole]
  refine congrArg List.sum (List.map_congr_left fun s inside => ?_)
  rw [(sound.worked s).processed,applied s (List.mem_range.mp inside)]
  simp [Pool.share]

section Returned
variable {messages : List WireMsg} {n : Nat} {reference : Nat → Int64} {final : LiveFeed}
  {pending accepted : List WireMsg} (positive : 1 ≤ n)
  (known : ∀ m ∈ messages, instrumentOf m < numInstruments)
  (delivers : Delivers messages (Normalizer.ready n reference) final pending accepted)
  (returned : final.pool.drain = .returned)
include positive delivers returned

theorem returned_applied (s : Nat) (inside : s < n) :
    (final.pool.shards s).applied = Pool.share (Normalizer.ready n reference) accepted s := by
  have numShards := (Normalizer.priced_ready n reference).addressed.numShards
  have sound := delivers.sound
  refine sound.finished ?_ (by rwa [numShards]) s (by rwa [numShards])
  intro s inside
  exact sound.joined s (by rwa [returned])

include known in
theorem returned_processed :
    ((List.range n).map fun s => (final.pool.shards s).processed).sum = accepted.length := by
  refine shares_processed positive ?_ delivers.sound (returned_applied positive delivers returned)
  exact fun m member => known m (delivers.decoded m (delivers.kept.subset member))

end Returned

end MarketFeed.LiveFeed
