import MarketFeed.WeakReplay
import MarketFeed.WeakRingSteps
import MarketFeed.LaxReplay
import MarketFeed.RingSimulation

/-! What an old store can do to the replay: a call fails that would have gone on, and nothing else. -/
namespace MarketFeed
open SpscRingBuffer Relation

namespace WeakReplay

/-- Each ring stands for some queue and its histories are in order. -/
def Seen (c : WeakReplay) : Prop := ∀ s, ∃ count queue, WeakRing.Viewed ringCapacity (c.rings s) count queue

section Current
variable (c : WeakReplay) (s : Nat) (ring : WeakRing.State QueueItem) (shard : Shard) (pc : RingWorkerPc) (main : RingMainPc)

theorem current_update : (fun k => WeakRing.current (Function.update c.rings s ring k)) =
    Function.update c.current.rings s (WeakRing.current ring) := by
  funext k
  rcases eq_or_ne k s with rfl | other
  · simp
  · simp [other,current]

theorem current_move : (c.move s ring pc).current = c.current.move s (WeakRing.current ring) pc := by
  simp only [current,move,RingReplay.move,current_update]

theorem current_work : ((c.onShard s shard).move s ring pc).current =
    (c.current.onShard s shard).move s (WeakRing.current ring) pc := by
  rw [current_move]
  rfl

theorem current_feed : (c.feed s ring main).current = c.current.feed s (WeakRing.current ring) main := by
  simp only [current,feed,RingReplay.feed,current_update]

end Current

variable {c next : WeakReplay} (seen : Seen c)
include seen

theorem Seen.update {s : Nat} {ring : WeakRing.State QueueItem}
    (viewed : ∃ count queue, WeakRing.Viewed ringCapacity ring count queue) (k : Nat) :
    ∃ count queue, WeakRing.Viewed ringCapacity (Function.update c.rings s ring k) count queue := by
  rcases eq_or_ne k s with rfl | other
  · rwa [Function.update_self]
  · rw [Function.update_of_ne other]
    exact seen k

theorem ring_step (s : Nat) (action : Action QueueItem) {place : Nat} {event : Option (BoundedQueue.Event QueueItem)}
    {ring : WeakRing.State QueueItem}
    (taken : WeakRing.step ringCapacity (c.rings s) action place = some (event,ring)) :
    (∃ count queue, WeakRing.Viewed ringCapacity ring count queue) ∧
      WeakRing.Follows ringCapacity (c.rings s) action event ring := by
  obtain ⟨count,queue,viewed⟩ := seen s
  obtain ⟨⟨count',queue',kept,_⟩,follows⟩ :=
    WeakRing.step_viewed RingReplay.ringCapacity_power RingReplay.ringCapacity_positive viewed action place taken
  exact ⟨⟨count',queue',kept⟩,follows⟩

theorem worker_lax (s place : Nat) (taken : c.workerStep s place = some next) :
    Seen next ∧ RingReplay.Lax c.current next.current := by
  unfold workerStep at taken
  split at taken
  next inside =>
    have within : s < c.current.normalizer.numShards := inside
    have plain : ∀ r, c.current.workerStep s = some r → RingReplay.Lax c.current r :=
      fun r stepped => .step (.worker s) r stepped
    split at taken
    next located =>
      obtain ⟨⟨event,ring⟩,popped,rfl⟩ := Option.map_eq_some_iff.mp taken
      obtain ⟨kept,follows⟩ := ring_step seen s .pop popped
      have here : c.current.workers s = .polling := located
      refine ⟨Seen.update seen kept,?_⟩
      rw [current_move]
      rcases follows with stepped | ⟨_,_,stale⟩
      · refine plain _ ?_
        simp only [RingReplay.workerStep,if_pos within,here]
        exact Option.map_eq_some_iff.mpr ⟨_,stepped,rfl⟩
      · cases stale
    next located =>
      obtain ⟨⟨event,ring⟩,popped,rfl⟩ := Option.map_eq_some_iff.mp taken
      obtain ⟨kept,follows⟩ := ring_step seen s .consumer popped
      have here : c.current.workers s = .popping := located
      rcases follows with stepped | ⟨failure,rfl,stale⟩
      · refine ⟨?_,plain _ ?_⟩
        · rcases event with _ | (_ | _ | item | _) <;> exact seen.update kept
        · simp only [RingReplay.workerStep,if_pos within,here]
          refine Option.map_eq_some_iff.mpr ⟨_,stepped,?_⟩
          rcases event with _ | (_ | _ | item | _) <;> exact (current_move ..).symm
      · generalize viewed : WeakRing.current ring = view at stale
        have failed := stale
        cases failed with
        | empty tail waiting =>
          refine ⟨seen.update kept,?_⟩
          rw [current_move,viewed]
          exact .miss s _ here stale
    next item located =>
      cases taken
      refine ⟨seen.update (seen s),?_⟩
      rw [current_work]
      have here : c.current.workers s = .popped item := located
      refine plain _ ?_
      simp only [RingReplay.workerStep,if_pos within,here]
      rfl
    next located =>
      cases taken
      refine ⟨seen.update (seen s),?_⟩
      rw [current_move]
      have here : c.current.workers s = .foundEmpty := located
      split
      next stopped =>
        refine plain _ ?_
        have stopped : c.current.stop = true := (Bool.and_eq_true_iff.mp stopped).1
        simp only [RingReplay.workerStep,if_pos within,here,stopped]
        rfl
      next => exact .again s here
    next => cases taken
  next => cases taken

theorem main_lax (place : Nat) (holds : ∀ j head, c.main = .sizing j head → head = (c.current.rings j).head)
    (taken : c.mainStep place = some next) : Seen next ∧ RingReplay.Lax c.current next.current := by
  have plain : ∀ r, c.current.mainStep = some r → RingReplay.Lax c.current r :=
    fun r stepped => .step .main r stepped
  unfold mainStep at taken
  split at taken
  next located =>
    cases taken
    have here : c.current.main = .feeding [] := located
    exact ⟨seen,plain _ (by simp only [RingReplay.mainStep,here]; rfl)⟩
  next m rest located =>
    obtain ⟨⟨event,ring⟩,pushed,rfl⟩ := Option.map_eq_some_iff.mp taken
    obtain ⟨kept,follows⟩ := ring_step seen _ _ pushed
    have here : c.current.main = .feeding (m :: rest) := located
    refine ⟨seen.update kept,?_⟩
    rw [current_feed]
    rcases follows with stepped | ⟨_,_,stale⟩
    · refine plain _ ?_
      simp only [RingReplay.mainStep,here]
      exact Option.map_eq_some_iff.mpr ⟨_,stepped,rfl⟩
    · cases stale
  next m rest located =>
    obtain ⟨⟨event,ring⟩,pushed,rfl⟩ := Option.map_eq_some_iff.mp taken
    obtain ⟨kept,follows⟩ := ring_step seen _ _ pushed
    have here : c.current.main = .pushing m rest := located
    rcases follows with stepped | ⟨failure,rfl,stale⟩
    · refine ⟨?_,plain _ ?_⟩
      · rcases event with _ | (_ | _ | item | _) <;> exact seen.update kept
      · simp only [RingReplay.mainStep,here]
        refine Option.map_eq_some_iff.mpr ⟨_,stepped,?_⟩
        rcases event with _ | (_ | _ | item | _)
        · exact (current_feed ..).symm
        · exact (current_feed ..).symm
        all_goals exact (current_feed (c.refuse _) ..).symm
    · generalize viewed : WeakRing.current ring = view at stale
      have failed := stale
      cases failed with
      | full item head waiting =>
        refine ⟨seen.update kept,?_⟩
        rw [current_feed,viewed]
        exact .refuse m rest item _ here stale
  next j located =>
    have here : c.current.main = .waiting j := located
    split at taken
    next inside =>
      cases taken
      refine ⟨seen,plain _ ?_⟩
      have within : j < c.current.normalizer.numShards := inside
      simp only [RingReplay.mainStep,here,if_pos within]
      rfl
    next last =>
      cases taken
      refine ⟨seen,plain _ ?_⟩
      have done : ¬j < c.current.normalizer.numShards := last
      simp only [RingReplay.mainStep,here,if_neg done]
      rfl
  next j head located =>
    obtain ⟨⟨tail,ring⟩,loaded,rfl⟩ := Option.map_eq_some_iff.mp taken
    have here : c.current.main = .sizing j head := located
    obtain ⟨count,queue,viewed⟩ := seen j
    obtain ⟨kept,unmoved,older,inside,tail_,size⟩ :=
      WeakRing.loadTail_viewed RingReplay.ringCapacity_power RingReplay.ringCapacity_positive viewed place loaded
    refine ⟨seen.update ⟨count,queue,kept⟩,?_⟩
    have rings : Function.update c.current.rings j (WeakRing.current ring) = c.current.rings := by
      rw [unmoved]
      exact Function.update_eq_self ..
    rw [current_feed,RingReplay.feed,rings]
    split
    next => exact .spin j head here
    next zero =>
      have none : (head - tail) &&& kMask ringCapacity = 0 := by simpa using zero
      have read : head = (WeakRing.current (c.rings j)).head := holds j head located
      rw [← read,none] at size
      have all : older = count := by
        have zero : (0 : UInt64).toNat = 0 := rfl
        omega
      have last : tail = (c.current.rings j).tail := by
        rw [tail_,all]
        exact (WeakRing.current_tail viewed).symm
      refine plain _ ?_
      simp only [RingReplay.mainStep,here,← last]
      rw [if_neg zero]
  next j located =>
    have here : c.current.main = .joining j := located
    split at taken
    next inside =>
      have within : j < c.current.normalizer.numShards := inside
      split at taken
      next gone =>
        cases taken
        have there : c.current.workers j = .exited := gone
        exact ⟨seen,plain _ (by simp only [RingReplay.mainStep,here,if_pos within,there]; rfl)⟩
      next => cases taken
    next last =>
      cases taken
      have done : ¬j < c.current.normalizer.numShards := last
      exact ⟨seen,plain _ (by simp only [RingReplay.mainStep,here,if_neg done]; rfl)⟩
  next => cases taken

end WeakReplay
namespace RingReplay

variable {c next : RingReplay} {queue : Nat → List QueueItem} (holds : Holds c queue)
include holds

/-- Over the queues, too, an old store makes a call fail or a look at the flag or the size vain. -/
theorem lax_shown (lax : Lax c next) : ∃ queue', Holds next queue' ∧
    (next.queued queue' = c.queued queue ∨ Replay.Lax (c.queued queue) (next.queued queue')) := by
  cases lax with
  | step t next taken =>
    obtain ⟨queue',kept,shown⟩ := step_shown holds t taken
    refine ⟨queue',kept,?_⟩
    cases shown with
    | within inCall nearer same => exact Or.inl same
    | decided ended stepped => exact Or.inr (.step t _ stepped)
  | miss s ring located stale =>
    obtain ⟨count,represents⟩ := holds.rings s
    cases stale with
    | empty tail waiting =>
      refine ⟨_,holds.move .foundEmpty (queue s) ⟨count,represents_consumer represents _ trivial⟩ (by simp) rfl rfl,
        Or.inr ?_⟩
      rw [queued_move]
      exact .miss s (by simp [queued,located,RingWorkerPc.plain])
  | refuse m rest item ring located stale =>
    obtain ⟨count,represents⟩ := holds.rings (c.normalizer.shardOf m)
    cases stale with
    | full item head waiting =>
      have others : ∀ k ≠ c.normalizer.shardOf m, none = c.main.carries c.normalizer k := by
        intro k other
        rw [located]
        exact (if_neg other).symm
      refine ⟨_,holds.feed _ (.feeding (m :: rest)) (queue (c.normalizer.shardOf m))
        ⟨count,represents_producer represents _ trivial⟩ rfl rfl others (by simp),Or.inr ?_⟩
      simp only [refuse,queued_feed]
      have running : (c.queued queue).pool.drain = .notCalled := by simp [queued,located,RingMainPc.drain]
      have left : (c.queued queue).rest = m :: rest := by simp [queued,located,RingMainPc.rest]
      have drain : (RingMainPc.feeding (m :: rest)).drain = (c.queued queue).pool.drain := running.symm
      have waits : (RingMainPc.feeding (m :: rest)).rest = (c.queued queue).rest := left.symm
      rw [drain,waits]
      exact .refuse m rest running left
  | again s located =>
    have idle : (c.rings s).consumer = .idle := (holds.popping s).mpr (by simp [located])
    refine ⟨_,holds.move .polling (queue s) (holds.rings s) (by simp [idle]) rfl rfl,Or.inr ?_⟩
    rw [queued_move]
    exact .again s (by simp [queued,located,RingWorkerPc.plain])
  | spin j head located =>
    refine ⟨queue,holds.main (.waiting j) (by simp [located,RingMainPc.carries]) (by simp [RingMainPc.carries]) (by simp)
      c.stop,Or.inl ?_⟩
    simp [queued,located,RingMainPc.drain,RingMainPc.rest]

end RingReplay

namespace WeakReplay

variable {n : Nat} {reference : Nat → Int64} {buffer : UInt64 → QueueItem} {stream : List WireMsg} {c : WeakReplay}

/-- What holds after any accesses. -/
structure Sound (n : Nat) (reference : Nat → Int64) (stream : List WireMsg) (c : WeakReplay) : Prop where
  seen : Seen c
  shown : ∃ queue accepted, RingReplay.Holds c.current queue ∧
    Replay.Consistent (Normalizer.ready n reference) stream (c.current.queued queue) accepted

theorem sound_init : Sound n reference stream (init n reference buffer stream) := by
  refine ⟨fun s => ⟨0,[],WeakRing.viewed_init RingReplay.ringCapacity_positive buffer⟩,?_⟩
  have related := RingReplay.relates_init n reference buffer stream
  obtain ⟨queue,holds,same⟩ := related
  have begun : Replay.Reaches (Replay.init n reference stream) (Replay.init n reference stream) := .start
  obtain ⟨accepted,consistent⟩ := Replay.consistent_reaches n reference begun
  exact ⟨queue,accepted,holds,same ▸ consistent⟩

theorem sound_step {next : WeakReplay} (sound : Sound n reference stream c) (step : Steps c next) :
    Sound n reference stream next := by
  obtain ⟨seen,queue,accepted,holds,consistent⟩ := sound
  obtain ⟨t,place,taken⟩ := step
  have moved : Seen next ∧ RingReplay.Lax c.current next.current := by
    cases t with
    | worker s => exact worker_lax seen s place taken
    | main => exact main_lax seen place (fun j head located => (holds.sizing j head located).2) taken
  obtain ⟨kept,lax⟩ := moved
  obtain ⟨queue',holds',shown⟩ := RingReplay.lax_shown holds lax
  refine ⟨kept,queue',?_⟩
  rcases shown with same | moved
  · exact ⟨accepted,holds',same ▸ consistent⟩
  · obtain ⟨accepted',consistent'⟩ := Replay.consistent_lax consistent moved
    exact ⟨accepted',holds',consistent'⟩

theorem sound_run (run : ReflTransGen Steps (init n reference buffer stream) c) : Sound n reference stream c := by
  induction run with
  | refl => exact sound_init
  | tail _ step ih => exact sound_step ih step

section Fresh

theorem worker_fresh (seen : Seen c) (s : Nat) {r : RingReplay} (taken : c.current.workerStep s = some r) :
    ∃ place next, c.workerStep s place = some next ∧ next.current = r := by
  obtain ⟨count,queue,viewed⟩ := seen s
  unfold RingReplay.workerStep at taken
  split at taken
  next inside =>
    have within : s < c.normalizer.numShards := inside
    split at taken
    next located =>
      obtain ⟨⟨event,view⟩,popped,rfl⟩ := Option.map_eq_some_iff.mp taken
      obtain ⟨place,ring,stepped,rfl⟩ := WeakRing.step_fresh viewed _ popped
      have here : c.workers s = .polling := located
      refine ⟨place,c.move s ring .popping,?_,current_move ..⟩
      simp only [workerStep,if_pos within,here,stepped,Option.map_some]
    next located =>
      obtain ⟨⟨event,view⟩,popped,rfl⟩ := Option.map_eq_some_iff.mp taken
      obtain ⟨place,ring,stepped,rfl⟩ := WeakRing.step_fresh viewed _ popped
      have here : c.workers s = .popping := located
      refine ⟨place,_,by simp only [workerStep,if_pos within,here,stepped,Option.map_some]; rfl,?_⟩
      rcases event with _ | (_ | _ | item | _) <;> exact current_move ..
    next item located =>
      cases taken
      have here : c.workers s = .popped item := located
      exact ⟨0,_,by simp only [workerStep,if_pos within,here]; rfl,current_work ..⟩
    next located =>
      cases taken
      have here : c.workers s = .foundEmpty := located
      refine ⟨1,c.move s (c.rings s) (if c.stop then .exited else .polling),?_,current_move ..⟩
      simp [workerStep,within,here]
    next => cases taken
  next => cases taken

theorem main_fresh (seen : Seen c) {r : RingReplay} (taken : c.current.mainStep = some r) :
    ∃ place next, c.mainStep place = some next ∧ next.current = r := by
  unfold RingReplay.mainStep at taken
  split at taken
  next located =>
    cases taken
    have here : c.main = .feeding [] := located
    exact ⟨0,{ c with main := .waiting 0 },by simp only [mainStep,here],rfl⟩
  next m rest located =>
    obtain ⟨⟨event,view⟩,pushed,rfl⟩ := Option.map_eq_some_iff.mp taken
    obtain ⟨count,queue,viewed⟩ := seen (c.normalizer.shardOf m)
    obtain ⟨place,ring,stepped,rfl⟩ := WeakRing.step_fresh viewed _ pushed
    have here : c.main = .feeding (m :: rest) := located
    refine ⟨place,c.feed _ ring (.pushing m rest),?_,current_feed ..⟩
    simp only [mainStep,here]
    exact Option.map_eq_some_iff.mpr ⟨_,stepped,rfl⟩
  next m rest located =>
    obtain ⟨⟨event,view⟩,pushed,rfl⟩ := Option.map_eq_some_iff.mp taken
    obtain ⟨count,queue,viewed⟩ := seen (c.normalizer.shardOf m)
    obtain ⟨place,ring,stepped,rfl⟩ := WeakRing.step_fresh viewed _ pushed
    have here : c.main = .pushing m rest := located
    refine ⟨place,_,by simp only [mainStep,here]; exact Option.map_eq_some_iff.mpr ⟨_,stepped,rfl⟩,?_⟩
    rcases event with _ | (_ | _ | item | _)
    · exact current_feed ..
    · exact current_feed ..
    all_goals exact current_feed (c.refuse _) ..
  next j located =>
    have here : c.main = .waiting j := located
    refine ⟨0,?_⟩
    split at taken
    next inside =>
      cases taken
      have within : j < c.normalizer.numShards := inside
      exact ⟨{ c with main := .sizing j (WeakRing.latest (c.rings j).heads) },by simp only [mainStep,here,if_pos within],rfl⟩
    next last =>
      cases taken
      have done : ¬j < c.normalizer.numShards := last
      exact ⟨{ c with stop := true, main := .joining 0 },by simp only [mainStep,here,if_neg done],rfl⟩
  next j head located =>
    cases taken
    have here : c.main = .sizing j head := located
    obtain ⟨count,queue,viewed⟩ := seen j
    obtain ⟨place,ring,loaded,unmoved⟩ := WeakRing.loadTail_fresh viewed
    refine ⟨place,_,by simp only [mainStep,here,loaded,Option.map_some]; rfl,?_⟩
    rw [current_feed,RingReplay.feed,unmoved]
    have rings : Function.update c.current.rings j (WeakRing.current (c.rings j)) = c.current.rings :=
      Function.update_eq_self ..
    rw [rings]
    rfl
  next j located =>
    have here : c.main = .joining j := located
    refine ⟨0,?_⟩
    split at taken
    next inside =>
      have within : j < c.normalizer.numShards := inside
      split at taken
      next gone =>
        cases taken
        have there : c.workers j = .exited := gone
        exact ⟨{ c with main := .joining (j + 1) },by simp only [mainStep,here,if_pos within,there],rfl⟩
      next => cases taken
    next last =>
      cases taken
      have done : ¬j < c.normalizer.numShards := last
      exact ⟨{ c with main := .returned },by simp only [mainStep,here,if_neg done],rfl⟩
  next => cases taken

/-- What the threads do with the latest stores they can do with their orders. -/
theorem lifts_rings : Simulation.Lifts Steps RingReplay.Steps fun c r => Sound n reference stream c ∧ c.current = r := by
  intro c r r' related step
  obtain ⟨sound,rfl⟩ := related
  obtain ⟨t,taken⟩ := step
  have found : ∃ place next, c.step t place = some next ∧ next.current = r' := by
    cases t with
    | worker s => exact worker_fresh sound.seen s taken
    | main => exact main_fresh sound.seen taken
  obtain ⟨place,next,stepped,shows⟩ := found
  exact ⟨next,ReflTransGen.single ⟨t,place,stepped⟩,sound_step sound ⟨t,place,stepped⟩,shows⟩

end Fresh

section Replayed
variable (positive : 1 ≤ n) (known : ∀ m ∈ stream, instrumentOf m < numInstruments) (sound : Sound n reference stream c)
include positive known sound

theorem sound_returned (owned : Replay.OneInstrument stream) (returned : c.main = .returned) :
    (∀ s < n, c.workers s = .exited) ∧
      ((List.range n).flatMap fun s => (c.normalizer.shards s).applied.map QueueItem.msg).Perm stream ∧
      (∀ s < n, (c.normalizer.shards s).processed = (c.normalizer.shards s).applied.length) ∧
      ∀ i < numInstruments, c.normalizer.bookForInstrument i = some (Replay.sequential reference stream i) := by
  obtain ⟨queue,accepted,holds,consistent⟩ := sound.shown
  have drained : (c.current.queued queue).pool.drain = .returned := by
    simp [RingReplay.queued,current,returned,RingMainPc.drain]
  obtain ⟨worked,joined⟩ := Replay.returned_sound consistent drained
  refine ⟨fun s inside => ?_,Replay.returned_once positive known consistent drained,fun s _ => (worked.worked s).processed,
    Replay.returned_book positive known consistent drained owned⟩
  have gone : (c.workers s).plain = .exited := joined s inside
  cases located : c.workers s <;> simp [located,RingWorkerPc.plain] at gone
  rfl

theorem sound_can_return : ∃ final, ReflTransGen Steps c final ∧ final.main = .returned := by
  have addressed := (Normalizer.priced_ready n reference).addressed
  obtain ⟨queue,accepted,holds,consistent⟩ := sound.shown
  have routed : ∀ m ∈ stream, (Normalizer.ready n reference).shardOf m < (Normalizer.ready n reference).numShards := by
    intro m member
    rw [addressed.numShards]
    exact addressed.shardOf_lt positive m (known m member)
  obtain ⟨r,finished,returned⟩ := Replay.can_finish routed .start consistent
  obtain ⟨middle,rings,queue',_,rfl⟩ := RingReplay.lifts_replay.runs ⟨queue,holds,rfl⟩ (Replay.reaches_iff.mp finished)
  obtain ⟨final,run,_,rfl⟩ := lifts_rings.runs ⟨sound,rfl⟩ rings
  refine ⟨final,run,?_⟩
  have returned : final.main.drain = .returned := returned
  cases located : final.main <;> simp [located,RingMainPc.drain] at returned
  rfl

end Replayed

/-- With the orders the source asks for, whatever old stores the loads return: no two accesses to a
slot race; once `drain_and_stop` has returned, every message has been applied once and every book is
the sequential one; and wherever the threads stand, it can still return. -/
theorem weak_replay (n : Nat) (reference : Nat → Int64) (buffer : UInt64 → QueueItem) (stream : List WireMsg)
    (positive : 1 ≤ n) (known : ∀ m ∈ stream, instrumentOf m < numInstruments) (owned : Replay.OneInstrument stream)
    (c : WeakReplay) (run : ReflTransGen Steps (init n reference buffer stream) c) :
    (∀ s, WeakRing.races (c.rings s) = false) ∧
    (c.main = .returned → (∀ s < n, c.workers s = .exited) ∧
      ((List.range n).flatMap fun s => (c.normalizer.shards s).applied.map QueueItem.msg).Perm stream ∧
      (∀ s < n, (c.normalizer.shards s).processed = (c.normalizer.shards s).applied.length) ∧
      ∀ i < numInstruments, c.normalizer.bookForInstrument i = some (Replay.sequential reference stream i)) ∧
    ∃ final, ReflTransGen Steps c final ∧ final.main = .returned := by
  have sound : Sound n reference stream c := sound_run run
  refine ⟨fun s => ?_,sound_returned positive known sound owned,sound_can_return positive known sound⟩
  obtain ⟨count,queue,viewed⟩ := sound.seen s
  exact WeakRing.races_free RingReplay.ringCapacity_positive viewed

theorem weak_replay_two : ∃ final,
    ReflTransGen Steps (init 2 (fun _ => 10000) (fun _ => ⟨.zero,0⟩) [.add ⟨⟨0,0⟩,1,.buy,9990,5⟩,.del ⟨⟨1,0⟩,2⟩]) final ∧
    final.normalizer.bookForInstrument 0 =
      some (Replay.sequential (fun _ => 10000) [.add ⟨⟨0,0⟩,1,.buy,9990,5⟩,.del ⟨⟨1,0⟩,2⟩] 0) := by
  have known : ∀ m ∈ [WireMsg.add ⟨⟨0,0⟩,1,.buy,9990,5⟩,.del ⟨⟨1,0⟩,2⟩], instrumentOf m < numInstruments := by
    simp [instrumentOf,WireMsg.header,numInstruments]
  have owned : Replay.OneInstrument [.add ⟨⟨0,0⟩,1,.buy,9990,5⟩,.del ⟨⟨1,0⟩,2⟩] := by
    simp [Replay.OneInstrument,WireMsg.orderIds]
  obtain ⟨_,_,final,run,returned⟩ := weak_replay 2 (fun _ => 10000) (fun _ => ⟨.zero,0⟩) _ (by omega) known owned _ .refl
  obtain ⟨_,ended,_⟩ := weak_replay 2 (fun _ => 10000) (fun _ => ⟨.zero,0⟩) _ (by omega) known owned final run
  obtain ⟨_,_,_,books⟩ := ended returned
  exact ⟨final,run,books 0 (by simp [numInstruments])⟩

end WeakReplay

end MarketFeed
