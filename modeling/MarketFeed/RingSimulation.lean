import MarketFeed.RingReplay
import MarketFeed.Library.Simulation

/-! The replay over the ring buffers and the replay over queues reach the same states: what one
access is above, how a step above is carried out by accesses, and what follows for the books. -/
namespace MarketFeed
open SpscRingBuffer Relation

def Replay.Steps (r next : Replay) : Prop := ∃ thread, r.step thread = some next

theorem Replay.reaches_iff {start r : Replay} : Reaches start r ↔ ReflTransGen Steps start r := by
  refine ⟨?_,?_⟩
  · intro reached
    induction reached with
    | start => exact .refl
    | step r thread next before taken ih => exact ih.tail ⟨thread,taken⟩
  · intro run
    induction run with
    | refl => exact .start
    | tail before step ih =>
      obtain ⟨thread,taken⟩ := step
      exact .step _ thread _ ih taken

namespace RingReplay

section Steps
variable {c next : RingReplay} {queue : Nat → List QueueItem} {s : Nat} (holds : Holds c queue)
include holds

theorem worker_matches (taken : c.workerStep s = some next) :
    ∃ queue', Holds next queue' ∧ Shown c queue (.worker s) next queue' := by
  have power := ringCapacity_power
  have positive := ringCapacity_positive
  unfold workerStep at taken
  split at taken
  next inside =>
    have above : ∀ pool, (c.queued queue).pool.workerStep s = some pool →
        (c.queued queue).step (.worker s) = some { c.queued queue with pool := pool } :=
      fun pool stepped => by simp only [Replay.step,stepped,Option.map_some]
    have within : s < (c.queued queue).pool.numShards := inside
    have called : (c.queued queue).pool.workers s = (c.workers s).plain := rfl
    split at taken
    next located =>
      obtain ⟨⟨event,ring⟩,popped,rfl⟩ := Option.map_eq_some_iff.mp taken
      obtain ⟨rfl,same⟩ := pop_starts popped
      have held := holding_silent power positive (holds.rings s) _ popped
      refine ⟨_,holds.move .popping (queue s) held (by simp [same]) (by rw [same]) (by rw [same]),
        .within (by simp [inCall,RingWorkerPc.inCall,move]) ?_ ?_⟩
      · simp [left,move,located,same,PopPc.left]
      · exact queued_within c queue s ring .popping (by rw [located]; rfl)
    next located =>
      obtain ⟨⟨event,ring⟩,popped,rfl⟩ := Option.map_eq_some_iff.mp taken
      have popping := consumer_popping popped
      rw [located] at called
      cases popping with
      | silent _ producer head busy nearer =>
        have held := holding_silent power positive (holds.rings s) _ popped
        refine ⟨_,holds.move .popping (queue s) held (by simp [busy]) producer head,
          .within (by simp [inCall,RingWorkerPc.inCall,move]) ?_ ?_⟩
        · simpa [left,move,located] using nearer
        · exact queued_within c queue s ring .popping (by rw [located])
      | popped item _ producer head ended =>
        obtain ⟨rest,held,took⟩ := holding_event power positive (holds.rings s) _ _ popped
        generalize present : queue s = before at took
        cases took
        refine ⟨_,holds.move (.popped item) rest held (by simp [ended]) producer head,
          .decided (by simp [inCall,RingWorkerPc.inCall,move]) ?_⟩
        rw [queued_move]
        refine above _ ?_
        have first : ((c.queued queue).pool.shards s).queue = item :: rest := present
        simp only [Pool.workerStep,if_pos within,called,RingWorkerPc.plain,first]
        rfl
      | empty _ producer head ended =>
        obtain ⟨rest,held,missed⟩ := holding_event power positive (holds.rings s) _ _ popped
        generalize present : queue s = before at missed
        cases missed
        refine ⟨_,holds.move .foundEmpty [] held (by simp [ended]) producer head,
          .decided (by simp [inCall,RingWorkerPc.inCall,move]) ?_⟩
        rw [queued_move]
        refine above _ ?_
        have none : ((c.queued queue).pool.shards s).queue = [] := present
        simp only [Pool.workerStep,if_pos within,called,RingWorkerPc.plain,none]
        rw [← present]
        rfl
    next item located =>
      cases taken
      have idle : (c.rings s).consumer = .idle := (holds.popping s).mpr (by simp [located])
      rw [located] at called
      refine ⟨_,holds.work _ .polling (queue s) (holds.rings s) (by simp [idle]) rfl rfl,
        .decided (by simp [inCall,RingWorkerPc.inCall,move]) ?_⟩
      rw [queued_work,Shard.work_held]
      refine above _ ?_
      simp only [Pool.workerStep,if_pos within,called,RingWorkerPc.plain]
      rfl
    next located =>
      cases taken
      have idle : (c.rings s).consumer = .idle := (holds.popping s).mpr (by simp [located])
      rw [located] at called
      refine ⟨_,holds.move _ (queue s) (holds.rings s) (by simp [idle]; split <;> simp) rfl rfl,
        .decided (by simp only [inCall,move,Function.update_self]; split <;> rfl) ?_⟩
      rw [queued_move]
      refine above _ ?_
      simp only [Pool.workerStep,if_pos within,called,RingWorkerPc.plain]
      cases stopped : c.stop <;> simp [queued,stopped]
    next => cases taken
  next => cases taken

theorem feed_matches {m : WireMsg} {rest : List WireMsg} (located : c.main = .pushing m rest)
    (taken : c.mainStep = some next) :
    ∃ queue', Holds next queue' ∧ Shown c queue .main next queue' := by
  have power := ringCapacity_power
  have positive := ringCapacity_positive
  have bound : ringCapacity.toNat - 1 = kQueueCapacity - 1 := by rw [ringCapacity_toNat]
  have carried := holds.pushing (c.normalizer.shardOf m)
  simp only [located,RingMainPc.carries,if_pos] at carried
  have others : ∀ k ≠ c.normalizer.shardOf m, none = c.main.carries c.normalizer k := by
    intro k other
    rw [located]
    exact (if_neg other).symm
  simp only [mainStep,located] at taken
  obtain ⟨⟨event,ring⟩,pushed,rfl⟩ := Option.map_eq_some_iff.mp taken
  obtain ⟨item,carries,pushing⟩ := producer_pushing pushed
  obtain rfl : c.normalizer.itemOf m = item := Option.some.inj (carried.symm.trans carries)
  have running : (c.queued queue).pool.drain = .notCalled := by simp [queued,located,RingMainPc.drain]
  have above : ∀ flag pool, (c.queued queue).pool.dispatch m = (flag,pool) →
      (c.queued queue).step .main = some ⟨pool,if flag then rest else m :: rest⟩ := by
    intro flag pool dispatched
    have waiting : (c.queued queue).rest = m :: rest := by simp [queued,located,RingMainPc.rest]
    simp only [Replay.step,Replay.mainStep,running,waiting,dispatched]
  have stored : ∀ s, ((c.queued queue).pool.shards s).queue = queue s := fun _ => rfl
  have dispatch := (c.queued queue).pool.toNormalizer.dispatch_cases m
  have here : (c.queued queue).pool.toNormalizer.shardOf m = c.normalizer.shardOf m := rfl
  have item : (c.queued queue).pool.toNormalizer.itemOf m = c.normalizer.itemOf m := rfl
  rw [here,item] at dispatch
  cases pushing with
  | silent _ consumer carries nearer =>
    have held := holding_silent power positive (holds.rings _) _ pushed
    refine ⟨_,holds.push (.pushing m rest) _ held consumer (by simp [carries,RingMainPc.carries]) ?_ (by simp),
      .within rfl ?_ ?_⟩
    · exact fun k other => by rw [located]
    · simpa [left,feed,located] using nearer
    · exact queued_pushing c queue _ ring _ (by rw [located]) (by rw [located])
  | pushed _ consumer ended =>
    obtain ⟨after,held,accepted⟩ := holding_event power positive (holds.rings _) _ _ pushed
    generalize present : queue (c.normalizer.shardOf m) = before at accepted
    cases accepted
    next room =>
      refine ⟨_,holds.push (.feeding rest) _ held consumer (by simp [ended,PushPc.item,RingMainPc.carries])
        others (by simp),.decided rfl ?_⟩
      rw [queued_push]
      have short : ((c.queued queue).pool.shards (c.normalizer.shardOf m)).queue.length ≠ kQueueCapacity - 1 := by
        rw [stored,present]
        omega
      rcases dispatch with ⟨full,_⟩ | ⟨_,outcome⟩
      · exact absurd full short
      · refine above true _ ?_
        simp only [Pool.dispatch,outcome,running]
        rw [← present]
        rfl
  | full _ consumer ended =>
    obtain ⟨after,held,refused⟩ := holding_event power positive (holds.rings _) _ _ pushed
    generalize present : queue (c.normalizer.shardOf m) = before at refused
    cases refused
    next full =>
      refine ⟨_,holds.feed _ (.feeding (m :: rest)) _ held consumer (by simp [ended,PushPc.item,RingMainPc.carries])
        others (by simp),.decided rfl ?_⟩
      simp only [refuse,queued_feed]
      have long : ((c.queued queue).pool.shards (c.normalizer.shardOf m)).queue.length = kQueueCapacity - 1 := by
        rw [stored,present]
        omega
      rcases dispatch with ⟨_,outcome⟩ | ⟨room,_⟩
      · refine above false _ ?_
        simp only [Pool.dispatch,outcome,running]
        rw [← present]
        rfl
      · exact absurd long room

theorem main_matches (taken : c.mainStep = some next) :
    ∃ queue', Holds next queue' ∧ Shown c queue .main next queue' := by
  have power := ringCapacity_power
  have positive := ringCapacity_positive
  cases located : c.main with
  | feeding rest =>
    cases rest with
    | nil =>
      simp only [mainStep,located] at taken
      cases taken
      refine ⟨queue,holds.main _ (by simp [located,RingMainPc.carries]) (by simp [RingMainPc.carries]) (by simp) c.stop,
        .decided rfl ?_⟩
      simp [Replay.step,Replay.mainStep,queued,located,RingMainPc.drain,RingMainPc.rest,Pool.callDrain]
    | cons m rest =>
      simp only [mainStep,located] at taken
      obtain ⟨⟨event,ring⟩,pushed,rfl⟩ := Option.map_eq_some_iff.mp taken
      obtain ⟨rfl,same⟩ := push_starts pushed
      have held := holding_silent power positive (holds.rings _) _ pushed
      refine ⟨_,holds.push (.pushing m rest) _ held (by rw [same]) (by simp [same,PushPc.item,RingMainPc.carries]) ?_
        (by simp),.within rfl ?_ ?_⟩
      · intro k other
        rw [located]
        exact if_neg other
      · simp [left,feed,located,same,PushPc.left]
      · exact queued_pushing c queue _ ring _ (by rw [located]; rfl) (by rw [located]; rfl)
  | pushing m rest => exact feed_matches holds located taken
  | waiting j =>
    simp only [mainStep,located] at taken
    split at taken
    next inside =>
      cases taken
      refine ⟨queue,holds.main _ (by simp [located,RingMainPc.carries]) (by simp [RingMainPc.carries]) ?_ c.stop,
        .within rfl (by simp [left,located]) ?_⟩
      · rintro k head ⟨⟩
        exact ⟨inside,rfl⟩
      · simp [queued,located,RingMainPc.drain,RingMainPc.rest]
    next last =>
      cases taken
      refine ⟨queue,holds.main _ (by simp [located,RingMainPc.carries]) (by simp [RingMainPc.carries]) (by simp) true,
        .decided rfl ?_⟩
      simp [Replay.step,Replay.mainStep,Pool.drainStep,queued,located,RingMainPc.drain,RingMainPc.rest,last]
  | sizing j head =>
    obtain ⟨inside,loaded⟩ := holds.sizing j head located
    have size := holding_size power positive (holds.rings j)
    rw [← loaded] at size
    simp only [mainStep,located] at taken
    cases taken
    refine ⟨queue,holds.main _ (by simp [located,RingMainPc.carries]) (by split <;> simp [RingMainPc.carries])
      (by split <;> simp) c.stop,.decided (by simp only [inCall]; split <;> rfl) ?_⟩
    split
    next some =>
      have waiting : 0 < (queue j).length := by
        rw [← size]
        exact UInt64.lt_iff_toNat_lt.mp some
      simp [Replay.step,Replay.mainStep,Pool.drainStep,queued,located,RingMainPc.drain,RingMainPc.rest,inside,waiting]
    next zero =>
      have none : (head - (c.rings j).tail) &&& kMask ringCapacity = 0 := by simpa using zero
      have empty : queue j = [] := by
        rw [← List.length_eq_zero_iff,← size,none]
        rfl
      simp [Replay.step,Replay.mainStep,Pool.drainStep,queued,located,RingMainPc.drain,RingMainPc.rest,inside,empty]
  | joining j =>
    simp only [mainStep,located] at taken
    split at taken
    next inside =>
      split at taken
      next gone =>
        cases taken
        refine ⟨queue,holds.main _ (by simp [located,RingMainPc.carries]) (by simp [RingMainPc.carries]) (by simp) c.stop,
        .decided rfl ?_⟩
        simp [Replay.step,Replay.mainStep,Pool.drainStep,queued,located,RingMainPc.drain,RingMainPc.rest,inside,gone,
          RingWorkerPc.plain]
      next => cases taken
    next last =>
      cases taken
      refine ⟨queue,holds.main _ (by simp [located,RingMainPc.carries]) (by simp [RingMainPc.carries]) (by simp) c.stop,
        .decided rfl ?_⟩
      simp [Replay.step,Replay.mainStep,Pool.drainStep,queued,located,RingMainPc.drain,RingMainPc.rest,last]
  | returned =>
    simp only [mainStep,located] at taken
    cases taken

theorem step_shown (t : Replay.Thread) (taken : c.step t = some next) :
    ∃ queue', Holds next queue' ∧ Shown c queue t next queue' := by
  cases t with
  | worker s => exact worker_matches holds taken
  | main => exact main_matches holds taken

theorem enabled_worker {pool : Pool} (above : (c.queued queue).pool.workerStep s = some pool) :
    ∃ next, c.workerStep s = some next := by
  obtain ⟨inside,shard,pc,_,moved⟩ := Pool.workerStep_move above
  have inside : s < c.normalizer.numShards := inside
  have called : (c.queued queue).pool.workers s = (c.workers s).plain := rfl
  simp only [workerStep,if_pos inside]
  cases located : c.workers s with
  | polling =>
    obtain ⟨ring,popped⟩ := pop_enabled ((holds.popping s).mpr (by simp [located]))
    exact ⟨_,Option.map_eq_some_iff.mpr ⟨_,popped,rfl⟩⟩
  | popping =>
    obtain ⟨outcome,popped⟩ := consumer_enabled fun idle => (holds.popping s).mp idle located
    exact ⟨_,Option.map_eq_some_iff.mpr ⟨_,popped,rfl⟩⟩
  | popped item => exact ⟨_,rfl⟩
  | foundEmpty => exact ⟨_,rfl⟩
  | exited =>
    rw [called,located] at moved
    cases moved

theorem enabled_main {r : Replay} (above : (c.queued queue).mainStep = some r) : ∃ next, c.mainStep = some next := by
  cases located : c.main with
  | feeding rest =>
    cases rest with
    | nil => exact ⟨_,by simp only [mainStep,located]; rfl⟩
    | cons m rest =>
      have resting := holds.pushing (c.normalizer.shardOf m)
      rw [located] at resting
      obtain ⟨ring,pushed⟩ := push_enabled (c.normalizer.itemOf m) resting
      exact ⟨_,by simp only [mainStep,located]; exact Option.map_eq_some_iff.mpr ⟨_,pushed,rfl⟩⟩
  | pushing m rest =>
    have busy := holds.pushing (c.normalizer.shardOf m)
    simp only [located,RingMainPc.carries,if_pos] at busy
    have busy : (c.rings (c.normalizer.shardOf m)).producer.item ≠ none := by simp [busy]
    obtain ⟨outcome,pushed⟩ := producer_enabled busy
    exact ⟨_,by simp only [mainStep,located]; exact Option.map_eq_some_iff.mpr ⟨_,pushed,rfl⟩⟩
  | waiting j =>
    simp only [mainStep,located]
    split <;> exact ⟨_,rfl⟩
  | sizing j head => exact ⟨_,by simp only [mainStep,located]; rfl⟩
  | joining j =>
    simp only [Replay.mainStep,queued,located,RingMainPc.drain,Pool.drainStep] at above
    simp only [mainStep,located]
    split
    next inside =>
      cases there : c.workers j with
      | exited => exact ⟨_,rfl⟩
      | polling | popping | popped | foundEmpty => simp [inside,there,RingWorkerPc.plain] at above
    next => exact ⟨_,rfl⟩
  | returned => simp [Replay.mainStep,queued,located,RingMainPc.drain,Pool.drainStep] at above

theorem enabled (t : Replay.Thread) {r : Replay} (above : (c.queued queue).step t = some r) :
    ∃ next, c.step t = some next := by
  cases t with
  | worker s =>
    obtain ⟨pool,worked,_⟩ := Option.map_eq_some_iff.mp above
    exact enabled_worker holds worked
  | main => exact enabled_main holds above

/-- A thread that runs alone comes to the access that decides its call. -/
theorem step_lifted (t : Replay.Thread) {r : Replay} (above : (c.queued queue).step t = some r) :
    ∃ final queue', ReflTransGen Steps c final ∧ Holds final queue' ∧ final.queued queue' = r := by
  generalize bound : c.left t = left
  induction left using Nat.strong_induction_on generalizing c queue with
  | _ left ih =>
    obtain ⟨next,taken⟩ := enabled holds t above
    obtain ⟨queue',kept,shown⟩ := step_shown holds t taken
    cases shown with
    | within inCall nearer same =>
      rw [← same] at above
      obtain ⟨final,queue'',later,kept,shows⟩ := ih _ (bound ▸ nearer) kept above rfl
      exact ⟨final,queue'',ReflTransGen.head ⟨t,taken⟩ later,kept,shows⟩
    | decided ended stepped =>
      have same : next.queued queue' = r := Option.some.inj (stepped.symm.trans above)
      exact ⟨next,queue',ReflTransGen.single ⟨t,taken⟩,kept,same⟩

end Steps

/-- One state of the queues that a state of the rings stands for. -/
def Relates (c : RingReplay) (r : Replay) : Prop := ∃ queue, Holds c queue ∧ c.queued queue = r

theorem matches_replay : Simulation.Matches Steps Replay.Steps Relates := by
  intro c r next related step
  obtain ⟨queue,holds,rfl⟩ := related
  obtain ⟨t,taken⟩ := step
  obtain ⟨queue',kept,shown⟩ := step_shown holds t taken
  cases shown with
  | within inCall nearer same => exact ⟨_,Or.inl same,queue',kept,rfl⟩
  | decided ended stepped => exact ⟨_,Or.inr ⟨t,stepped⟩,queue',kept,rfl⟩

theorem lifts_replay : Simulation.Lifts Steps Replay.Steps Relates := by
  intro c r r' related step
  obtain ⟨queue,holds,rfl⟩ := related
  obtain ⟨t,above⟩ := step
  obtain ⟨final,queue',run,kept,shows⟩ := step_lifted holds t above
  exact ⟨final,run,queue',kept,shows⟩

variable (n : Nat) (reference : Nat → Int64) (buffer : UInt64 → QueueItem) (stream : List WireMsg)

theorem queued_blank (nz : Normalizer) (blank : ∀ s, (nz.shards s).queue = []) :
    queued { normalizer := nz, rings := fun _ => SpscRingBuffer.init buffer, main := .feeding stream } (fun _ => []) =
      { pool := { toNormalizer := nz }, rest := stream } := by
  obtain ⟨numShards,shards,toShard,toLocal⟩ := nz
  have same : (fun s => { shards s with queue := [] }) = shards := by
    funext s
    rw [← blank s]
  simp only [queued,same]
  rfl

theorem relates_init : Relates (init n reference buffer stream) (Replay.init n reference stream) := by
  have blank := fun s => ((Normalizer.priced_ready n reference).blank s).queue
  refine ⟨fun _ => [],⟨?_,?_,?_,?_⟩,queued_blank buffer stream _ blank⟩
  · exact fun s => ⟨0,represents_init ringCapacity_positive buffer⟩
  · simp [init,SpscRingBuffer.init]
  · simp [init,SpscRingBuffer.init,PushPc.item,RingMainPc.carries]
  · simp [init]

section Rings
variable {c next : RingReplay}

/-- Whatever thread steps, a ring stays or makes a step of its own. -/
theorem step_ring (t : Replay.Thread) (taken : c.step t = some next) (s : Nat) :
    next.rings s = c.rings s ∨
      ∃ action event, SpscRingBuffer.step ringCapacity (c.rings s) action = some (event,next.rings s) := by
  have replaced : ∀ k action event ring, SpscRingBuffer.step ringCapacity (c.rings k) action = some (event,ring) →
      next.rings = Function.update c.rings k ring → next.rings s = c.rings s ∨
        ∃ action event, SpscRingBuffer.step ringCapacity (c.rings s) action = some (event,next.rings s) := by
    intro k action event ring accessed after
    rw [after]
    rcases eq_or_ne s k with rfl | other
    · exact Or.inr ⟨action,event,by rw [Function.update_self]; exact accessed⟩
    · exact Or.inl (Function.update_of_ne other ..)
  cases t with
  | worker k =>
    simp only [step,workerStep] at taken
    split at taken
    next =>
      split at taken
      next =>
        obtain ⟨⟨event,ring⟩,accessed,rfl⟩ := Option.map_eq_some_iff.mp taken
        exact replaced k _ _ _ accessed rfl
      next =>
        obtain ⟨⟨event,ring⟩,accessed,rfl⟩ := Option.map_eq_some_iff.mp taken
        refine replaced k _ _ _ accessed ?_
        split <;> rfl
      next =>
        cases taken
        exact Or.inl (congrFun (Function.update_eq_self ..) s)
      next =>
        cases taken
        exact Or.inl (congrFun (Function.update_eq_self ..) s)
      next => cases taken
    next => cases taken
  | main =>
    simp only [step,mainStep] at taken
    split at taken
    next =>
      cases taken
      exact Or.inl rfl
    next =>
      obtain ⟨⟨event,ring⟩,accessed,rfl⟩ := Option.map_eq_some_iff.mp taken
      exact replaced _ _ _ _ accessed rfl
    next =>
      obtain ⟨⟨event,ring⟩,accessed,rfl⟩ := Option.map_eq_some_iff.mp taken
      refine replaced _ _ _ _ accessed ?_
      split <;> rfl
    next =>
      split at taken <;> cases taken <;> exact Or.inl rfl
    next =>
      cases taken
      exact Or.inl rfl
    next =>
      split at taken
      next =>
        split at taken <;> cases taken
        exact Or.inl rfl
      next =>
        cases taken
        exact Or.inl rfl
    next => cases taken

variable {n reference buffer stream}

theorem ring_runs (run : ReflTransGen Steps (init n reference buffer stream) c) (s : Nat) :
    ∃ events, Run ringCapacity buffer events (c.rings s) := by
  induction run with
  | refl => exact ⟨[],.start⟩
  | tail _ step ih =>
    obtain ⟨events,before⟩ := ih
    obtain ⟨t,taken⟩ := step
    rcases step_ring t taken s with same | ⟨action,event,accessed⟩
    · exact ⟨events,same ▸ before⟩
    · exact ⟨_,.step _ _ _ _ _ before accessed⟩

end Rings

/-- The accesses of the threads, in whatever order, show the steps over the queues, and show all
of them: each is none or one of these steps, and each of these steps is some of them. No thread
writes the slot another one reads. -/
theorem rings_refine_queues :
    Relates (init n reference buffer stream) (Replay.init n reference stream) ∧
    Simulation.Matches Steps Replay.Steps Relates ∧ Simulation.Lifts Steps Replay.Steps Relates ∧
    (∀ c, ReflTransGen Steps (init n reference buffer stream) c →
      (∃ queue, (∀ s, ∃ count, Represents ringCapacity (c.rings s) count (queue s)) ∧
        Replay.Reaches (Replay.init n reference stream) (c.queued queue)) ∧
      ∀ s written read, (c.rings s).producer.slot = some written → (c.rings s).consumer.slot = some read → written ≠ read) ∧
    ∀ r, Replay.Reaches (Replay.init n reference stream) r → ∃ c queue,
      ReflTransGen Steps (init n reference buffer stream) c ∧
      (∀ s, ∃ count, Represents ringCapacity (c.rings s) count (queue s)) ∧ c.queued queue = r := by
  have related := relates_init n reference buffer stream
  refine ⟨related,matches_replay,lifts_replay,?_,?_⟩
  · intro c run
    obtain ⟨_,reached,queue,holds,rfl⟩ := matches_replay.runs related run
    refine ⟨⟨queue,holds.rings,Replay.reaches_iff.mpr reached⟩,?_⟩
    intro s written read writing reading
    obtain ⟨events,ran⟩ := ring_runs run s
    exact (slots_apart ringCapacity_power ringCapacity_positive ran written read writing reading).1
  · intro r reached
    obtain ⟨c,run,queue,holds,shows⟩ := lifts_replay.runs related (Replay.reaches_iff.mp reached)
    exact ⟨c,queue,run,holds.rings,shows⟩

end RingReplay
end MarketFeed
