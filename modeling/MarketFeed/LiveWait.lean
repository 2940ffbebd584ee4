import MarketFeed.LiveDelivery

/-! Complete runs of the live feed. What `wait` finds depends on one thing, whether a
dispatch met a full queue; a slow enough worker makes that happen. -/
namespace MarketFeed.LiveFeed
open Relation

def Leads (f next : LiveFeed) : Prop :=
  ∃ actions, (∀ action ∈ actions, Lossless action) ∧ f.run actions = some next

/-- The same, every step of the run being one that `ok` allows. -/
def LeadsAlong (ok : LiveFeed → Action → Prop) (f next : LiveFeed) : Prop :=
  ∃ actions, (∀ action ∈ actions, Lossless action) ∧ f.Along ok actions ∧ f.run actions = some next

theorem along_append (ok : LiveFeed → Action → Prop) (f middle : LiveFeed) (first second : List Action)
    (ran : f.run first = some middle) (before : f.Along ok first) (after : middle.Along ok second) :
    f.Along ok (first ++ second) := by
  induction first generalizing f with
  | nil =>
    cases ran
    exact after
  | cons action rest ih =>
    refine ⟨before.1,fun next step => ?_⟩
    rw [run,step] at ran
    exact ih next ran (before.2 next step)

section Runs
variable {ok : LiveFeed → Action → Prop} {f middle next : LiveFeed}

theorem LeadsAlong.leads (run : LeadsAlong ok f next) : Leads f next := by
  obtain ⟨actions,lossless,_,ran⟩ := run
  exact ⟨actions,lossless,ran⟩

theorem LeadsAlong.refl (f : LiveFeed) : LeadsAlong ok f f := ⟨[],by simp,trivial,rfl⟩

theorem LeadsAlong.trans (first : LeadsAlong ok f middle) (second : LeadsAlong ok middle next) :
    LeadsAlong ok f next := by
  obtain ⟨before,left,allowed,ran⟩ := first
  obtain ⟨after,right,allows,onward⟩ := second
  refine ⟨before ++ after,?_,along_append ok f middle before after ran allowed allows,
    by rw [run_append,ran]; exact onward⟩
  intro action member
  rcases List.mem_append.mp member with earlier | later
  · exact left action earlier
  · exact right action later

theorem leads_step (action : Action) (lossless : Lossless action) (allowed : ok f action)
    (taken : f.step action = some next) : LeadsAlong ok f next :=
  ⟨[action],by simpa using lossless,⟨allowed,fun _ _ => trivial⟩,by simp [run,taken]⟩

end Runs

/-- What a publisher, a receiver that stops in time, and the threads that close may do. -/
structure Allows (ok : LiveFeed → Action → Prop) : Prop where
  publisher : ∀ f, ok f .publisher
  receiver : ∀ f, f.receiver ≠ .timedOut → ok f .receiver
  stops : ∀ f, f.socket = [] → f.publisher = .ended → ok f .receiver

structure Closable (ok : LiveFeed → Action → Prop) : Prop extends Allows ok where
  worker : ∀ f s, ok f (.worker s)
  main : ∀ f, ok f .main

theorem closable_any : Closable fun _ _ => True where
  publisher _ := trivial
  receiver _ _ := trivial
  stops _ _ _ := trivial
  worker _ _ := trivial
  main _ := trivial

structure Idle (p next : Pool) : Prop where
  workers : next.workers = p.workers
  drain : next.drain = p.drain
  applied : ∀ s, (next.shards s).applied = (p.shards s).applied

theorem Idle.refl (p : Pool) : Idle p p := ⟨rfl,rfl,fun _ => rfl⟩

theorem Idle.trans {p middle next : Pool} (first : Idle p middle) (second : Idle middle next) : Idle p next :=
  ⟨second.workers.trans first.workers,second.drain.trans first.drain,
    fun s => (second.applied s).trans (first.applied s)⟩

theorem idle_dispatch (p : Pool) (m : WireMsg) : Idle p (p.dispatch m).2 := by
  refine ⟨rfl,rfl,fun s => ?_⟩
  rcases p.toNormalizer.dispatch_cases m with ⟨_,outcome⟩ | ⟨_,outcome⟩
  · simp only [Pool.dispatch,outcome,Function.update_apply]
    split
    next same => rw [same]
    next => rfl
  · simp only [Pool.dispatch,outcome,Function.update_apply]
    split
    next same => rw [same]
    next => rfl

section Allowed
variable {ok : LiveFeed → Action → Prop} (allows : Allows ok)

include allows in
theorem leads_published (rest : List WireMsg) (f : LiveFeed) (waiting : f.rest = rest)
    (looping : f.publisher = .looping) : ∃ next, LeadsAlong ok f next ∧ next.publisher = .ended ∧
      next.receiver = f.receiver ∧ next.pool = f.pool := by
  induction rest generalizing f with
  | nil =>
    obtain ⟨middle,flushed,pc,receiver,pool⟩ : ∃ middle, f.step .publisher = some middle ∧
        middle.publisher = .flushed ∧ middle.receiver = f.receiver ∧ middle.pool = f.pool := by
      simp only [step,publisherStep,looping,waiting]
      exact ⟨_,rfl,rfl,rfl,rfl⟩
    have stored : middle.step .publisher = some { middle with publisherDone := true, publisher := .ended } := by
      simp only [step,publisherStep,pc]
    exact ⟨_,(leads_step .publisher trivial (allows.publisher _) flushed).trans
      (leads_step .publisher trivial (allows.publisher _) stored),rfl,receiver,pool⟩
  | cons m rest ih =>
    obtain ⟨middle,packed,fewer,pc,receiver,pool⟩ : ∃ middle, f.step .publisher = some middle ∧
        middle.rest = rest ∧ middle.publisher = .looping ∧ middle.receiver = f.receiver ∧ middle.pool = f.pool := by
      simp only [step,publisherStep,looping,waiting]
      exact ⟨_,rfl,rfl,looping,rfl,rfl⟩
    obtain ⟨next,leads,ended,receiver',pool'⟩ := ih middle fewer pc
    exact ⟨next,(leads_step .publisher trivial (allows.publisher _) packed).trans leads,ended,receiver'.trans receiver,
      pool'.trans pool⟩

structure Receives (ok : LiveFeed → Action → Prop) (f next : LiveFeed) : Prop where
  leads : LeadsAlong ok f next
  receiving : next.receiver = .receiving
  publisher : next.publisher = f.publisher
  idle : Idle f.pool next.pool

include allows in
theorem leads_decoded (n left offset : Nat) (f : LiveFeed) (located : f.receiver = .decoding n left offset) :
    ∃ next, Receives ok f next ∧ next.socket = f.socket := by
  have finish : ∀ left offset, ∀ f : LiveFeed, f.receiver = .decoding n left offset →
      ¬(0 < left ∧ offset < n) → ∃ next, Receives ok f next ∧ next.socket = f.socket := by
    intro left offset f located short
    have finished : f.step .receiver = some { f with receiver := .receiving } := by
      simp only [step,receiverStep,located,if_neg short]
    exact ⟨_,⟨leads_step .receiver trivial (allows.receiver _ (by simp [located])) finished,rfl,rfl,.refl _⟩,rfl⟩
  induction left generalizing f offset with
  | zero => exact finish 0 offset f located (by omega)
  | succ left ih =>
    by_cases inside : offset < n
    · have more : 0 < left + 1 ∧ offset < n := ⟨by omega,inside⟩
      obtain ⟨middle,decoded,pc,publisher,socket,idle⟩ : ∃ middle, f.step .receiver = some middle ∧
          (∃ after, middle.receiver = .decoding n left after) ∧ middle.publisher = f.publisher ∧
          middle.socket = f.socket ∧ Idle f.pool middle.pool := by
        simp only [step,receiverStep,located,if_pos more]
        exact ⟨_,rfl,⟨_,rfl⟩,rfl,rfl,idle_dispatch _ _⟩
      obtain ⟨after,pc⟩ := pc
      obtain ⟨next,receives,same⟩ := ih after middle pc
      refine ⟨next,⟨?_,receives.receiving,receives.publisher.trans publisher,idle.trans receives.idle⟩,
        same.trans socket⟩
      exact (leads_step .receiver trivial (allows.receiver _ (by simp [located])) decoded).trans receives.leads
    · exact finish (left + 1) offset f located (by omega)

include allows in
theorem leads_received (groups : List (List WireMsg)) (f : LiveFeed) (receiving : f.receiver = .receiving)
    (held : f.socket = groups.map datagram) : ∃ next, Receives ok f next ∧ next.socket = [] := by
  induction groups generalizing f with
  | nil => exact ⟨f,⟨.refl f,receiving,rfl,.refl _⟩,held⟩
  | cons group rest ih =>
    rw [List.map_cons] at held
    have filled := length_datagram_pos group
    obtain ⟨taken,received,⟨n,left,offset,pc⟩,publisher,socket,pool⟩ : ∃ taken, f.step .receiver = some taken ∧
        (∃ n left offset, taken.receiver = .decoding n left offset) ∧ taken.publisher = f.publisher ∧
        taken.socket = rest.map datagram ∧ taken.pool = f.pool := by
      simp only [step,receiverStep,receiving,held,gt_iff_lt,if_pos filled]
      exact ⟨_,rfl,⟨_,_,_,rfl⟩,rfl,rfl,rfl⟩
    obtain ⟨middle,decodes,same⟩ := leads_decoded allows n left offset taken pc
    obtain ⟨next,receives,empty⟩ := ih middle decodes.receiving (same.trans socket)
    have idle := decodes.idle.trans receives.idle
    rw [pool] at idle
    have published := (receives.publisher.trans decodes.publisher).trans publisher
    have first := leads_step .receiver trivial (allows.receiver _ (by simp [receiving])) received
    refine ⟨next,⟨?_,receives.receiving,published,idle⟩,empty⟩
    exact (first.trans decodes.leads).trans receives.leads

include allows in
theorem leads_left (f : LiveFeed) (receiving : f.receiver = .receiving) (empty : f.socket = [])
    (published : f.publisher = .ended) (flag : f.publisherDone = true) :
    LeadsAlong ok f { f with receiver := .ended } := by
  have timedOut : f.step .receiver = some { f with receiver := .timedOut } := by
    simp only [step,receiverStep,receiving,empty]
  have broke : step { f with receiver := .timedOut } .receiver = some { f with receiver := .ended } := by
    simp only [step,receiverStep,flag,if_true]
  exact (leads_step .receiver trivial (allows.stops _ empty published) timedOut).trans
    (leads_step .receiver trivial (allows.stops _ empty published) broke)

theorem leads_closes (closable : Closable ok) {f : LiveFeed} {pool : Pool} (closes : Pool.Closes f.pool pool) :
    LeadsAlong ok f { f with pool := pool } := by
  induction closes with
  | refl => exact .refl f
  | tail _ step ih =>
    rcases step with ⟨s,taken⟩ | taken
    · exact ih.trans (leads_step (.worker s) trivial (closable.worker _ _) (by simp [LiveFeed.step,taken]))
    · have called := (Pool.drainStep_called taken).1
      refine ih.trans (leads_step .main trivial (closable.main _) ?_)
      simp only [LiveFeed.step,mainStep]
      rw [taken]
      rfl

theorem leads_returned (closable : Closable ok) {messages : List WireMsg} {start : Normalizer} {f : LiveFeed}
    {pending accepted : List WireMsg}
    (delivers : Delivers messages start f pending accepted) (receiving : f.receiver = .receiving)
    (empty : f.socket = []) (published : f.publisher = .ended) (running : f.pool.drain = .notCalled) :
    ∃ final, LeadsAlong ok f final ∧ final.pool.drain = .returned ∧ final.decoded = f.decoded := by
  have left := leads_left closable.toAllows f receiving empty published (delivers.done.mpr published)
  have called : step { f with receiver := .ended } .main =
      some { f with receiver := .ended, pool := f.pool.callDrain } := by
    simp only [step,mainStep,running,published,and_self,if_true]
  obtain ⟨pool,closes,returned⟩ := Pool.closes_returned (delivers.sound.callDrain running)
    (by simp [Pool.callDrain])
  have closed : LeadsAlong ok { f with receiver := .ended, pool := f.pool.callDrain } _ := leads_closes closable closes
  exact ⟨_,(left.trans (leads_step .main trivial (closable.main _) called)).trans closed,returned,rfl⟩

end Allowed

section Init
variable {ok : LiveFeed → Action → Prop} {messages : List WireMsg} (typed : ∀ m ∈ messages, m ≠ .zero)
  (n : Nat) (reference : Nat → Int64)
include typed

/-- The receiver can be done with everything before any worker moves. -/
theorem leads_decoded_all (allows : Allows ok) : ∃ mid, LeadsAlong ok (init messages n reference) mid ∧
    mid.receiver = .receiving ∧ mid.socket = [] ∧ mid.publisher = .ended ∧ mid.decoded = messages ∧
    Idle { toNormalizer := Normalizer.ready n reference } mid.pool := by
  obtain ⟨sent,published,ended,receiver,pool⟩ := leads_published allows messages (init messages n reference) rfl rfl
  have start := accounted_init messages typed n reference
  obtain ⟨actions,lossless,along,ran⟩ := published
  obtain ⟨groups,pending,accounted⟩ := accounted_run actions start lossless ran
  obtain ⟨mid,receives,empty⟩ := leads_received allows groups sent receiver accounted.socket
  have arrived := LeadsAlong.trans ⟨actions,lossless,along,ran⟩ receives.leads
  obtain ⟨actions,lossless,along,ran⟩ := arrived
  obtain ⟨groups,pending,accounted⟩ := accounted_run actions start lossless ran
  have published := receives.publisher.trans ended
  have idle := receives.idle
  rw [pool] at idle
  refine ⟨mid,⟨actions,lossless,along,ran⟩,receives.receiving,empty,published,?_,idle⟩
  obtain ⟨rfl,rest⟩ := accounted.ceased (by simp [published])
  have held := accounted.socket
  rw [empty] at held
  have whole := accounted.whole
  simpa [upcoming,receives.receiving,rest,List.map_eq_nil_iff.mp held.symm] using whole

theorem init_returns (closable : Closable ok) :
    ∃ final, LeadsAlong ok (init messages n reference) final ∧ final.pool.drain = .returned := by
  obtain ⟨mid,leads,receiving,empty,published,_,idle⟩ := leads_decoded_all typed n reference closable.toAllows
  have arrived := leads
  obtain ⟨actions,_,_,ran⟩ := arrived
  obtain ⟨_,_,delivers,_⟩ := delivers_run actions (delivers_init messages typed n reference) ran
  obtain ⟨final,more,returned,_⟩ := leads_returned closable delivers receiving empty published idle.drain
  exact ⟨final,leads.trans more,returned⟩

end Init

/-- When `wait` has returned, everything received is in its book, once and in order, if
and only if no dispatch of the run met a full queue. -/
theorem received_applied_iff (messages : List WireMsg) (typed : ∀ m ∈ messages, m ≠ .zero)
    (known : ∀ m ∈ messages, instrumentOf m < numInstruments) (n : Nat) (positive : 1 ≤ n)
    (reference : Nat → Int64) (actions : List Action) (final : LiveFeed)
    (ran : (init messages n reference).run actions = some final)
    (returned : final.pool.drain = .returned) :
    (((List.range n).map fun s => (final.pool.shards s).processed).sum = final.received ∧
      ∀ s < n, (final.pool.shards s).applied = Pool.share (Normalizer.ready n reference) final.decoded s ∧
        (final.pool.shards s).SameBooks ((Pool.share (Normalizer.ready n reference) final.decoded s).foldl
          Shard.apply ((Normalizer.ready n reference).shards s))) ↔
      (init messages n reference).Along RoomyDispatch actions := by
  have start := delivers_init messages typed n reference
  obtain ⟨pending,accepted,delivers,_,along⟩ := delivers_run actions start ran
  have processed := returned_processed positive known delivers returned
  have shorter := delivers.kept.length_le
  rw [along,processed,delivers.received]
  have none_ : (init messages n reference).lost [] = 0 := by simp [lost,init]
  rw [none_,lost]
  refine ⟨?_,?_⟩
  · intro kept
    omega
  · intro nothing
    have all : accepted = final.decoded := delivers.kept.eq_of_length_le (by omega)
    refine ⟨by rw [all],fun s inside => ?_⟩
    have applied := returned_applied positive delivers returned s inside
    have books := (delivers.sound.worked s).books
    rw [all] at applied
    rw [applied] at books
    exact ⟨applied,books⟩

theorem interleaved_lossless : ∀ action ∈ interleaved, Lossless action := by simp [interleaved,Lossless]

theorem interleaved_ran : ((init threeOrders 2 fun _ => 10000).run interleaved).map (fun f =>
    (f.publisher,f.receiver,f.socket,f.decoded)) = some (.ended,.receiving,[],threeOrders) := by
  decide +kernel

theorem received_applied_interleaved : ∃ after final,
    (init threeOrders 2 fun _ => 10000).run (interleaved ++ after) = some final ∧ final.pool.drain = .returned ∧
      final.received = 3 ∧ ((List.range 2).map fun s => (final.pool.shards s).processed).sum = final.received ∧
      ∀ s < 2, (final.pool.shards s).applied = Pool.share (Normalizer.ready 2 fun _ => 10000) threeOrders s := by
  obtain ⟨mid,ran,there⟩ := Option.map_eq_some_iff.mp interleaved_ran
  simp only [Prod.mk.injEq] at there
  obtain ⟨published,receiving,empty,decoded⟩ := there
  have typed := fun m member => (threeOrders_typed m member).1
  have start := delivers_init threeOrders typed 2 fun _ => 10000
  obtain ⟨_,_,delivers,_⟩ := delivers_run interleaved start ran
  obtain ⟨final,⟨after,lossless,_,onward⟩,returned,same⟩ := leads_returned closable_any delivers receiving empty
    published (delivers_running delivers (by simp [receiving]))
  have whole : (init threeOrders 2 fun _ => 10000).run (interleaved ++ after) = some final := by
    rw [run_append,ran]
    exact onward
  have kept : ∀ action ∈ interleaved ++ after, Lossless action := by
    intro action member
    rcases List.mem_append.mp member with earlier | later
    · exact interleaved_lossless action earlier
    · exact lossless action later
  have roomy := short_run_roomy (interleaved ++ after) (by simp [threeOrders,kQueueCapacity])
    (accounted_init _ typed 2 _) start kept whole
  obtain ⟨_,_,ended,_⟩ := delivers_run _ start whole
  have applied := (received_applied_iff _ typed (by decide) 2 (by decide) _ _ final whole returned).mpr roomy
  refine ⟨after,final,whole,returned,?_,applied.1,fun s inside => ?_⟩
  · rw [ended.received,same,decoded]
    rfl
  · rw [(applied.2 s inside).1,same,decoded]

section OneShard
variable {messages : List WireMsg} (known : ∀ m ∈ messages, instrumentOf m < numInstruments)
  (reference : Nat → Int64)
include known

theorem accepted_queue {f : LiveFeed} {pending accepted : List WireMsg}
    (delivers : Delivers messages (Normalizer.ready 1 reference) f pending accepted)
    (applied : (f.pool.shards 0).applied = []) (polling : f.pool.workers 0 = .polling) :
    accepted.length ≤ kQueueCapacity - 1 := by
  have priced := Normalizer.priced_ready 1 reference
  have handed := delivers.sound.handed 0
  have all : (accepted.filter fun m => (Normalizer.ready 1 reference).shardOf m = 0) = accepted := by
    rw [List.filter_eq_self]
    intro m member
    have below := priced.addressed.shardOf_lt (Nat.le_refl 1) m
      (known m (delivers.decoded m (delivers.kept.subset member)))
    exact decide_eq_true (by omega)
  rw [Pool.share,all,MarketFeed.handed,applied,polling] at handed
  have same := congrArg List.length handed
  simp only [WorkerPc.inFlight,List.append_nil,List.nil_append,List.length_map] at same
  rw [← same]
  exact delivers.sound.bounded 0

theorem flood (typed : ∀ m ∈ messages, m ≠ .zero) (long : kQueueCapacity ≤ messages.length) :
    ∃ final, Leads (init messages 1 reference) final ∧ final.pool.drain = .returned ∧
      (final.pool.shards 0).processed < final.received := by
  obtain ⟨mid,leads,receiving,empty,published,whole,idle⟩ := leads_decoded_all typed 1 reference closable_any.toAllows
  have start := delivers_init messages typed 1 reference
  have arrived := leads
  obtain ⟨actions,_,_,ran⟩ := arrived
  obtain ⟨_,accepted,delivers,_⟩ := delivers_run actions start ran
  have applied : (mid.pool.shards 0).applied = [] := by
    rw [idle.applied 0]
    exact ((Normalizer.priced_ready 1 reference).blank 0).applied
  have inQueue := accepted_queue known reference delivers applied (congrFun idle.workers 0)
  obtain ⟨final,more,returned,same⟩ := leads_returned closable_any delivers receiving empty published idle.drain
  have closed := more
  obtain ⟨actions,_,_,ran⟩ := closed
  obtain ⟨_,accepted',ended,monotone,_⟩ := delivers_run actions delivers ran
  have processed := returned_processed (Nat.le_refl 1) known ended returned
  refine ⟨final,(leads.trans more).leads,returned,?_⟩
  simp only [List.range_one,List.map_cons,List.map_nil,List.sum_singleton] at processed
  simp only [lost,same,whole] at monotone
  rw [processed,ended.received,same,whole]
  simp only [kQueueCapacity] at inQueue long
  omega

end OneShard

/-- One message more than the queue of a shard takes, as the generator may produce them. -/
theorem flood_loses : ∃ final, Leads (init ((List.range kQueueCapacity).map fun i =>
      .add ⟨⟨0,0⟩,UInt64.ofNat (i + 1),.buy,10000,1⟩) 1 (fun _ => 10001)) final ∧
    final.pool.drain = .returned ∧ (final.pool.shards 0).processed < final.received := by
  refine flood ?_ _ ?_ ?_
  · intro m member
    obtain ⟨i,_,rfl⟩ := List.mem_map.mp member
    simp [instrumentOf,WireMsg.header,numInstruments]
  · intro m member
    obtain ⟨i,_,rfl⟩ := List.mem_map.mp member
    simp
  · rw [List.length_map,List.length_range]

end MarketFeed.LiveFeed
