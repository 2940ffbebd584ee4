import MarketFeed.WeakRing
import MarketFeed.RingReplay

/-! The replay of a stream with the memory orders of the ring buffers and of `stop_`: the threads
interleave at every access, and a load may return an old store where its order allows that. -/
namespace MarketFeed
open SpscRingBuffer Relation

/-- The shards' `queue` is not used: `rings` are the queues. -/
structure WeakReplay where
  normalizer : Normalizer
  rings : Nat → WeakRing.State QueueItem
  workers : Nat → RingWorkerPc := fun _ => .polling
  stop : Bool := false
  main : RingMainPc

namespace WeakReplay

def init (numShards : Nat) (reference : Nat → Int64) (buffer : UInt64 → QueueItem) (stream : List WireMsg) :
    WeakReplay where
  normalizer := Normalizer.ready numShards reference
  rings _ := WeakRing.init buffer
  main := .feeding stream

def move (c : WeakReplay) (s : Nat) (ring : WeakRing.State QueueItem) (pc : RingWorkerPc) : WeakReplay :=
  { c with rings := Function.update c.rings s ring, workers := Function.update c.workers s pc }

def onShard (c : WeakReplay) (s : Nat) (shard : Shard) : WeakReplay :=
  { c with normalizer := { c.normalizer with shards := Function.update c.normalizer.shards s shard } }

/-- `seen` is the store that the load of this step returns. `stop_` is loaded relaxed: until a
worker has left, the initial store is still there for it to read. -/
def workerStep (c : WeakReplay) (s seen : Nat) : Option WeakReplay :=
  if s < c.normalizer.numShards then
    match c.workers s with
    | .polling => (WeakRing.step ringCapacity (c.rings s) .pop seen).map fun (_,ring) => c.move s ring .popping
    | .popping => (WeakRing.step ringCapacity (c.rings s) .consumer seen).map fun (event,ring) =>
      match event with
      | some (.popped item) => c.move s ring (.popped item)
      | some _ => c.move s ring .foundEmpty
      | none => c.move s ring .popping
    | .popped item => some ((c.onShard s ((c.normalizer.shards s).work item)).move s (c.rings s) .polling)
    | .foundEmpty => some (c.move s (c.rings s) (if c.stop && 0 < seen then .exited else .polling))
    | .exited => none
  else none

def feed (c : WeakReplay) (s : Nat) (ring : WeakRing.State QueueItem) (main : RingMainPc) : WeakReplay :=
  { c with rings := Function.update c.rings s ring, main := main }

def refuse (c : WeakReplay) (s : Nat) : WeakReplay :=
  c.onShard s { c.normalizer.shards s with droppedFull := (c.normalizer.shards s).droppedFull + 1 }

def mainStep (c : WeakReplay) (seen : Nat) : Option WeakReplay :=
  match c.main with
  | .feeding [] => some { c with main := .waiting 0 }
  | .feeding (m :: rest) =>
    let s := c.normalizer.shardOf m
    (WeakRing.step ringCapacity (c.rings s) (.push (c.normalizer.itemOf m)) seen).map fun (_,ring) =>
      c.feed s ring (.pushing m rest)
  | .pushing m rest =>
    let s := c.normalizer.shardOf m
    (WeakRing.step ringCapacity (c.rings s) .producer seen).map fun (event,ring) =>
      match event with
      | some (.pushed _) => c.feed s ring (.feeding rest)
      | some _ => (c.refuse s).feed s ring (.feeding (m :: rest))
      | none => c.feed s ring (.pushing m rest)
  | .waiting j =>
    if j < c.normalizer.numShards then some { c with main := .sizing j (WeakRing.latest (c.rings j).heads) }
    else some { c with stop := true, main := .joining 0 }
  | .sizing j head => (WeakRing.loadTail (c.rings j) seen).map fun (tail,ring) =>
    let size := (head - tail) &&& kMask ringCapacity
    c.feed j ring (if size > 0 then .waiting j else .waiting (j + 1))
  | .joining j =>
    if j < c.normalizer.numShards then
      match c.workers j with
      | .exited => some { c with main := .joining (j + 1) }
      | _ => none
    else some { c with main := .returned }
  | .returned => none

def step (c : WeakReplay) (t : Replay.Thread) (seen : Nat) : Option WeakReplay :=
  match t with
  | .worker s => c.workerStep s seen
  | .main => c.mainStep seen

def Steps (c next : WeakReplay) : Prop := ∃ t seen, c.step t seen = some next

/-- The replay when every load returns the latest store. -/
def current (c : WeakReplay) : RingReplay where
  normalizer := c.normalizer
  rings s := WeakRing.current (c.rings s)
  workers := c.workers
  stop := c.stop
  main := c.main

end WeakReplay

namespace RingReplay

/-- A step, or one that an old store makes of it. -/
inductive Lax (c : RingReplay) : RingReplay → Prop
  | step (t next) (taken : c.step t = some next) : Lax c next
  | miss (s ring) (located : c.workers s = .popping) (stale : WeakRing.Stale (c.rings s) .consumer .empty ring) :
      Lax c (c.move s ring .foundEmpty)
  | refuse (m rest item ring) (located : c.main = .pushing m rest)
      (stale : WeakRing.Stale (c.rings (c.normalizer.shardOf m)) .producer (.full item) ring) :
      Lax c ((c.refuse (c.normalizer.shardOf m)).feed (c.normalizer.shardOf m) ring (.feeding (m :: rest)))
  | again (s) (located : c.workers s = .foundEmpty) : Lax c (c.move s (c.rings s) .polling)
  | spin (j head) (located : c.main = .sizing j head) : Lax c { c with main := .waiting j }

end RingReplay
end MarketFeed
