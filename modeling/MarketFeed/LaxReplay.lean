import MarketFeed.ShardedReplay

/-! The replay of a stream when a call of a queue may fail though it need not, and a worker may not
yet see that it is to stop. What is accepted, and what the books come to, stays the same. -/
namespace MarketFeed

namespace Pool.Sound

variable {start : Normalizer} {p : Pool} {accepted : List WireMsg} (sound : Sound start p accepted)
include sound

/-- A worker with nothing in its hands goes from one part of its loop to another. -/
theorem turn (s : Nat) (pc : WorkerPc) (idle : (p.workers s).inFlight = pc.inFlight)
    (before : p.workers s ≠ .exited) (after : pc ≠ .exited) : Sound start (p.move s (p.shards s) pc) accepted := by
  have shards : (p.move s (p.shards s) pc).shards = p.shards := Function.update_eq_self ..
  refine ⟨sound.numShards,sound.toShard,sound.toLocal,?_,?_,?_,sound.stop,?_,?_,?_⟩
  · rw [shards]
    exact sound.worked
  · intro k
    rw [shards,← sound.handed k]
    rcases eq_or_ne k s with rfl | other
    · simp [Pool.move,MarketFeed.handed,idle]
    · simp [Pool.move,other]
  · rw [shards]
    exact sound.bounded
  · rw [shards]
    exact sound.drained
  · intro k gone
    rcases eq_or_ne k s with rfl | other
    · exact absurd (by simpa [Pool.move] using gone) after
    · exact sound.left k (by simpa [Pool.move,other] using gone)
  · intro k inside
    have gone := sound.joined k inside
    rcases eq_or_ne k s with rfl | other
    · exact absurd gone before
    · simpa [Pool.move,other] using gone

theorem refuse (j : Nat) : Sound start { p with
    shards := Function.update p.shards j { p.shards j with droppedFull := (p.shards j).droppedFull + 1 } } accepted := by
  have kept : ∀ P : Shard → Prop, (∀ n shard, P shard → P { shard with droppedFull := n }) → ∀ s, P (p.shards s) →
      P (Function.update p.shards j { p.shards j with droppedFull := (p.shards j).droppedFull + 1 } s) := by
    intro P stays s holds
    rcases eq_or_ne s j with rfl | other
    · rw [Function.update_self]
      exact stays _ _ holds
    · rwa [Function.update_of_ne other]
  refine ⟨sound.numShards,sound.toShard,sound.toLocal,fun s => ?_,fun s => ?_,fun s => ?_,sound.stop,fun s inside => ?_,
    sound.left,sound.joined⟩
  · exact kept (Worked (start.shards s)) (fun _ _ worked => ⟨worked.books,worked.processed⟩) s (sound.worked s)
  · exact kept (fun shard => MarketFeed.handed shard (p.workers s) = share start accepted s) (fun _ _ same => same) s
      (sound.handed s)
  · exact kept (fun shard => shard.queue.length ≤ kQueueCapacity - 1) (fun _ _ bound => bound) s (sound.bounded s)
  · exact kept (fun shard => shard.queue = []) (fun _ _ empty => empty) s (sound.drained s inside)

end Pool.Sound

namespace Replay

/-- A step of the replay, or one that it need not make. -/
inductive Lax (r : Replay) : Replay → Prop
  | step (thread next) (taken : r.step thread = some next) : Lax r next
  | miss (s) (located : r.pool.workers s = .polling) :
      Lax r { r with pool := r.pool.move s (r.pool.shards s) .foundEmpty }
  | refuse (m rest) (running : r.pool.drain = .notCalled) (waiting : r.rest = m :: rest) :
      Lax r { r with pool := { r.pool with
        shards := Function.update r.pool.shards (r.pool.shardOf m) { r.pool.shards (r.pool.shardOf m) with
          droppedFull := (r.pool.shards (r.pool.shardOf m)).droppedFull + 1 } } }
  | again (s) (located : r.pool.workers s = .foundEmpty) :
      Lax r { r with pool := r.pool.move s (r.pool.shards s) .polling }

variable {start : Normalizer} {stream accepted : List WireMsg} {r next : Replay}

theorem consistent_lax (consistent : Consistent start stream r accepted) (lax : Lax r next) :
    ∃ accepted, Consistent start stream next accepted := by
  have sound := consistent.sound
  cases lax with
  | step thread next taken => exact consistent_step consistent thread taken
  | miss s located =>
    refine ⟨accepted,consistent.split,sound.turn s .foundEmpty ?_ ?_ ?_,consistent.closed⟩ <;>
      simp [located,WorkerPc.inFlight]
  | refuse m rest running waiting => exact ⟨accepted,consistent.split,sound.refuse _,consistent.closed⟩
  | again s located =>
    refine ⟨accepted,consistent.split,sound.turn s .polling ?_ ?_ ?_,consistent.closed⟩ <;>
      simp [located,WorkerPc.inFlight]

section Returned
variable {n : Nat} {reference : Nat → Int64} (positive : 1 ≤ n) (known : ∀ m ∈ stream, instrumentOf m < numInstruments)
  (consistent : Consistent (Normalizer.ready n reference) stream r accepted) (returned : r.pool.drain = .returned)
include positive consistent returned

omit positive in
theorem returned_sound : Pool.Sound (Normalizer.ready n reference) r.pool stream ∧ ∀ s < n, r.pool.workers s = .exited := by
  have numShards := (Normalizer.priced_ready n reference).addressed.numShards
  have sound := consistent.sound
  have split := consistent.split
  rw [consistent.closed (by simp [returned]),List.append_nil] at split
  refine ⟨split ▸ sound,fun s inside => sound.joined s ?_⟩
  rw [returned,sound.numShards,numShards]
  exact inside

theorem returned_applied (s : Nat) (inside : s < n) :
    (r.pool.shards s).applied = Pool.share (Normalizer.ready n reference) stream s := by
  have numShards := (Normalizer.priced_ready n reference).addressed.numShards
  obtain ⟨sound,gone⟩ := returned_sound consistent returned
  exact sound.finished (by rwa [sound.numShards,numShards]) (by rwa [numShards]) s (by rwa [numShards])

include known

theorem returned_once :
    ((List.range n).flatMap fun s => (r.pool.shards s).applied.map QueueItem.msg).Perm stream := by
  have addressed := (Normalizer.priced_ready n reference).addressed
  have routed : ∀ m ∈ stream, (Normalizer.ready n reference).shardOf m < n :=
    fun m member => addressed.shardOf_lt positive m (known m member)
  have each : ∀ s ∈ List.range n, (r.pool.shards s).applied.map QueueItem.msg =
      stream.filter fun m => (Normalizer.ready n reference).shardOf m = s := by
    intro s inside
    rw [returned_applied positive consistent returned s (List.mem_range.mp inside)]
    simp [Pool.share,Function.comp_def,Normalizer.itemOf]
  rw [List.flatMap_congr each]
  exact Routing.flatMap_filter_perm stream _ n routed

theorem returned_book (owned : OneInstrument stream) (i : Nat) (inside : i < numInstruments) :
    r.pool.bookForInstrument i = some (sequential reference stream i) := by
  have priced := Normalizer.priced_ready n reference
  have within : ((Normalizer.ready n reference).instrumentToShard i).toNat < n := by
    rw [priced.addressed.shard i inside]
    exact Nat.mod_lt _ positive
  exact shared_book priced (returned_sound consistent returned).1 known owned i inside
    (returned_applied positive consistent returned _ within)

end Returned

end Replay
end MarketFeed
