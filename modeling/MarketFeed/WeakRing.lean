import MarketFeed.RingCalls

/-! The ring buffer with the memory orders it asks for. A load of the other thread's index returns
some store to it, none older than the thread has seen; loading a release store with acquire makes
known the slot accesses before it. The slots themselves are plain memory. -/
namespace MarketFeed.WeakRing
open SpscRingBuffer BoundedQueue

variable {T : Type*}

/-- A release store to an index, and how many slot accesses of its thread come before it. -/
structure Store where
  value : UInt64 := 0
  after : Nat := 0

/-- The stores to each index and the slots each thread has accessed, oldest first. -/
structure State (T : Type*) where
  heads : List Store := [{}]
  tails : List Store := [{}]
  buffer : UInt64 → T
  written : List UInt64 := []
  read : List UInt64 := []
  /-- The latest store to `tail_` that the producer has loaded, by its place in `tails`. -/
  tailSeen : Nat := 0
  headSeen : Nat := 0
  producer : PushPc T := .idle
  consumer : PopPc T := .idle

def init (buffer : UInt64 → T) : State T := { buffer := buffer }

/-- What a thread loads of the index it alone stores to. -/
def latest (stores : List Store) : UInt64 := (stores.getLast?.getD {}).value

/-- An acquire load that returns the store at place `seen`. -/
def load (stores : List Store) (least seen : Nat) : Option UInt64 :=
  if least ≤ seen then stores[seen]?.map Store.value else none

/-- An access of a thread; `seen` is the store its load of the other thread's index returns. -/
def step (capacity : UInt64) (s : State T) (action : Action T) (seen : Nat) : Option (Option (Event T) × State T) :=
  match action with
  | .push item =>
    match s.producer with
    | .idle => some (none,{ s with producer := .headLoaded item (latest s.heads) })
    | _ => none
  | .producer =>
    match s.producer with
    | .idle => none
    | .headLoaded item head => (load s.tails s.tailSeen seen).map fun tail =>
      let next := (head + 1) &&& kMask capacity
      if next = tail then (some (.full item),{ s with tailSeen := seen, producer := .idle })
      else (none,{ s with tailSeen := seen, producer := .tailLoaded item head next })
    | .tailLoaded item head next =>
      some (none,{ s with
        buffer := Function.update s.buffer head item
        written := s.written ++ [head]
        producer := .slotWritten item head next })
    | .slotWritten item _ next =>
      some (some (.pushed item),{ s with heads := s.heads ++ [⟨next,s.written.length⟩], producer := .idle })
  | .pop =>
    match s.consumer with
    | .idle => some (none,{ s with consumer := .tailLoaded (latest s.tails) })
    | _ => none
  | .consumer =>
    match s.consumer with
    | .idle => none
    | .tailLoaded tail => (load s.heads s.headSeen seen).map fun head =>
      if tail = head then (some .empty,{ s with headSeen := seen, consumer := .idle })
      else (none,{ s with headSeen := seen, consumer := .headLoaded tail })
    | .headLoaded tail =>
      some (none,{ s with read := s.read ++ [tail], consumer := .slotRead tail (s.buffer tail) })
    | .slotRead tail out =>
      let next := (tail + 1) &&& kMask capacity
      some (some (.popped out),{ s with tails := s.tails ++ [⟨next,s.read.length⟩], consumer := .idle })

/-- The second load of `size_approx`, which the producer's thread makes. -/
def loadTail (s : State T) (seen : Nat) : Option (UInt64 × State T) :=
  (load s.tails s.tailSeen seen).map fun tail => (tail,{ s with tailSeen := seen })

/-- The accesses of the other thread that come before the latest store a thread has loaded. -/
def known (stores : List Store) (seen : Nat) : Nat := (stores[seen]?.getD {}).after

/-- A thread is about to access a slot whose last access by the other thread it does not know of:
in the program, a data race. -/
def races (s : State T) : Bool :=
  (match s.producer with
    | .tailLoaded _ head _ => (s.read.drop (known s.tails s.tailSeen)).contains head
    | _ => false) ||
  (match s.consumer with
    | .headLoaded tail => (s.written.drop (known s.heads s.headSeen)).contains tail
    | _ => false)

/-- The ring when every load returns the latest store. -/
def current (s : State T) : SpscRingBuffer.State T where
  head := latest s.heads
  tail := latest s.tails
  buffer := s.buffer
  producer := s.producer
  consumer := s.consumer

def slot (capacity : UInt64) (n : Nat) : UInt64 := UInt64.ofNat (n % capacity.toNat)

/-- The first `n` stores after the initial one, each releasing one slot access more. -/
def stores (capacity : UInt64) (n : Nat) : List Store := (List.range (n + 1)).map fun k => ⟨slot capacity k,k⟩

/-- The slot is claimed: the loads that admit the call are behind it. -/
def claimed : PushPc T → Nat
  | .tailLoaded _ _ _ => 1
  | .slotWritten _ _ _ => 1
  | _ => 0

def writing : PushPc T → Nat
  | .slotWritten _ _ _ => 1
  | _ => 0

def taking : PopPc T → Nat
  | .headLoaded _ => 1
  | .slotRead _ _ => 1
  | _ => 0

def reading : PopPc T → Nat
  | .slotRead _ _ => 1
  | _ => 0

/-- The histories when `popped` elements have left and `pushed` have entered: every store and every
slot access has its number, and no thread acts on less room or fewer elements than it has seen. -/
structure Views (capacity : UInt64) (s : State T) (popped pushed : Nat) : Prop where
  heads : s.heads = stores capacity pushed
  tails : s.tails = stores capacity popped
  written : s.written = (List.range (pushed + writing s.producer)).map (slot capacity)
  read : s.read = (List.range (popped + reading s.consumer)).map (slot capacity)
  tailSeen : s.tailSeen ≤ popped
  headSeen : s.headSeen ≤ pushed
  room : pushed + claimed s.producer ≤ s.tailSeen + (capacity.toNat - 1)
  taken : popped + taking s.consumer ≤ s.headSeen

/-- A call that fails on an old load where the latest one would have let it go on. -/
inductive Stale (s : SpscRingBuffer.State T) : Action T → Event T → SpscRingBuffer.State T → Prop
  | full (item head) (located : s.producer = .headLoaded item head) :
      Stale s .producer (.full item) { s with producer := .idle }
  | empty (tail) (located : s.consumer = .tailLoaded tail) : Stale s .consumer .empty { s with consumer := .idle }

section Histories
variable {capacity : UInt64} (positive : 1 ≤ capacity)

include positive in
theorem slot_toNat (n : Nat) : (slot capacity n).toNat = n % capacity.toNat := by
  have bound := Nat.mod_lt n (UInt64.le_iff_toNat_le.mp positive)
  exact UInt64.toNat_ofNat_of_lt (Nat.lt_trans bound capacity.toNat_lt)

include positive in
theorem slot_eq_iff (n i j : Nat) (left : i < capacity.toNat) (right : j < capacity.toNat) :
    slot capacity (n + i) = slot capacity (n + j) ↔ i = j := by
  refine ⟨fun same => ?_,fun same => by rw [same]⟩
  have same := congrArg UInt64.toNat same
  rw [slot_toNat positive,slot_toNat positive] at same
  exact RingIndex.slot_inj n i j left right same

theorem slot_next (power : capacity &&& (capacity - 1) = 0) (positive : 1 ≤ capacity) (n : Nat) :
    (slot capacity n + 1) &&& kMask capacity = slot capacity (n + 1) := by
  rw [← UInt64.toNat_inj,slot_toNat positive]
  exact RingIndex.mask_next power positive _ _ (slot_toNat positive n)

theorem stores_succ (n : Nat) : stores capacity n ++ [⟨slot capacity (n + 1),n + 1⟩] = stores capacity (n + 1) := by
  simp [stores,List.range_succ]

theorem latest_stores (n : Nat) : latest (stores capacity n) = slot capacity n := by
  simp [latest,stores,List.range_succ]

theorem latest_concat (stores : List Store) (store : Store) : latest (stores ++ [store]) = store.value := by
  simp [latest]

theorem known_stores (n seen : Nat) (inside : seen ≤ n) : known (stores capacity n) seen = seen := by
  simp [known,stores,List.getElem?_range (Nat.lt_succ_of_le inside)]

theorem load_stores (n least seen : Nat) (value : UInt64) (loaded : load (stores capacity n) least seen = some value) :
    least ≤ seen ∧ seen ≤ n ∧ value = slot capacity seen := by
  unfold load stores at loaded
  split at loaded
  next older =>
    rcases Nat.lt_or_ge seen (n + 1) with inside | outside
    · simp only [List.getElem?_map,List.getElem?_range inside,Option.map_some,Option.some.injEq] at loaded
      exact ⟨older,by omega,loaded.symm⟩
    · have none : ((List.range (n + 1)).map fun k => (⟨slot capacity k,k⟩ : Store))[seen]? = none :=
        List.getElem?_eq_none (by simpa using outside)
      rw [none] at loaded
      cases loaded
  next => cases loaded

theorem load_latest (capacity : UInt64) (n least : Nat) (older : least ≤ n) : load (stores capacity n) least n = some (slot capacity n) := by
  simp [load,stores,older]

end Histories

def Viewed (capacity : UInt64) (s : State T) (count : Nat) (queue : List T) : Prop :=
  Represents capacity (current s) count queue ∧ Views capacity s count (count + queue.length)

/-- What an access does to the queue. -/
def Moves (capacity : UInt64) (queue : List T) (event : Option (Event T)) (queue' : List T) : Prop :=
  match event with
  | none => queue' = queue
  | some event => Loose (capacity.toNat - 1) queue event queue'

/-- With the latest stores the access would be the same, or the call fails for an old one. -/
def Follows (capacity : UInt64) (s : State T) (action : Action T) (event : Option (Event T)) (next : State T) : Prop :=
  SpscRingBuffer.step capacity (current s) action = some (event,current next) ∨
    ∃ failure, event = some failure ∧ Stale (current s) action failure (current next)

section Loads
variable {capacity : UInt64} (positive : 1 ≤ capacity) {s : State T} {count : Nat} {queue : List T}
  (viewed : Viewed capacity s count queue)
include viewed

theorem current_head : (current s).head = slot capacity (count + queue.length) := by
  rw [current,viewed.2.heads,latest_stores]

theorem current_tail : (current s).tail = slot capacity count := by
  rw [current,viewed.2.tails,latest_stores]

include positive

/-- No two slots meet between the oldest element held and the one being written. -/
theorem races_free : races s = false := by
  obtain ⟨represents,views⟩ := viewed
  have room := views.room
  have taken := views.taken
  have seen := views.tailSeen
  have met := views.headSeen
  have apart : ∀ n m, n < m → m < n + capacity.toNat → slot capacity m ≠ slot capacity n := by
    intro n m before near same
    have same : slot capacity (n + (m - n)) = slot capacity (n + 0) := by
      rwa [Nat.add_sub_cancel' (Nat.le_of_lt before),Nat.add_zero]
    have := (slot_eq_iff positive n _ 0 (by omega) (by omega)).mp same
    omega
  rw [races,Bool.or_eq_false_iff]
  refine ⟨?_,?_⟩
  · have sound := represents.producer
    simp only [ProducerSound,current] at sound
    cases located : s.producer with
    | idle | headLoaded | slotWritten => rfl
    | tailLoaded item head next =>
      simp only [located] at sound
      have here : head = slot capacity (count + queue.length) := by
        rw [sound.1,views.heads,latest_stores]
      simp only [located,claimed] at room
      rw [views.tails,known_stores _ _ seen,views.read,here]
      refine Bool.eq_false_iff.mpr fun held => ?_
      obtain ⟨k,inside,same⟩ := List.mem_iff_getElem.mp (List.contains_iff_mem.mp held)
      simp only [List.length_drop,List.length_map,List.length_range] at inside
      simp only [List.getElem_drop,List.getElem_map,List.getElem_range] at same
      have behind : s.tailSeen + k < count + queue.length := by
        cases caught : s.consumer <;> simp only [caught,reading,taking] at inside taken <;> omega
      exact apart _ _ behind (by omega) same.symm
  · have sound := represents.consumer
    simp only [ConsumerSound,current] at sound
    cases located : s.consumer with
    | idle | tailLoaded | slotRead => rfl
    | headLoaded tail =>
      simp only [located] at sound
      have here : tail = slot capacity count := by
        rw [sound.1,views.tails,latest_stores]
      simp only [located,taking] at taken
      rw [views.heads,known_stores _ _ met,views.written,here]
      refine Bool.eq_false_iff.mpr fun held => ?_
      obtain ⟨k,inside,same⟩ := List.mem_iff_getElem.mp (List.contains_iff_mem.mp held)
      simp only [List.length_drop,List.length_map,List.length_range] at inside
      simp only [List.getElem_drop,List.getElem_map,List.getElem_range] at same
      have within : count + queue.length + writing s.producer ≤ s.tailSeen + (capacity.toNat - 1) := by
        cases caught : s.producer <;> simp only [caught,claimed,writing] at room ⊢ <;> omega
      exact apart count (s.headSeen + k) (by omega) (by omega) same

end Loads

end MarketFeed.WeakRing
