import MarketFeed.Library.BoundedQueue
import MarketFeed.Library.RingIndex

/-! The lock-free ring buffer at the grain of its atomic accesses: one producer's `push`
and one consumer's `pop`, interleaved in any order, refine a bounded queue. -/
namespace MarketFeed.SpscRingBuffer
open BoundedQueue

variable {T : Type*}

/-- Where the producer stands in `push(item)`, with its locals; `head` stays live to the
end because the slot is the producer's until `head_` is published. -/
inductive PushPc (T : Type*) where
  | idle
  | headLoaded (item : T) (head : UInt64)
  | tailLoaded (item : T) (head next : UInt64)
  | slotWritten (item : T) (head next : UInt64)

inductive PopPc (T : Type*) where
  | idle
  | tailLoaded (tail : UInt64)
  | headLoaded (tail : UInt64)
  | slotRead (tail : UInt64) (out : T)

structure Memory (T : Type*) where
  head : UInt64 := 0
  tail : UInt64 := 0
  buffer : UInt64 → T

structure State (T : Type*) extends Memory T where
  producer : PushPc T := .idle
  consumer : PopPc T := .idle

def init (buffer : UInt64 → T) : State T := { buffer := buffer }

def kMask (capacity : UInt64) : UInt64 := capacity - 1

inductive Action (T : Type*) where
  | push (item : T)
  | producer
  | pop
  | consumer

/-- The step a thread takes next; an event marks the access that decides the call's result. -/
def step (capacity : UInt64) (s : State T) : Action T → Option (Option (Event T) × State T)
  | .push item =>
    match s.producer with
    | .idle => some (none,{ s with producer := .headLoaded item s.head })
    | _ => none
  | .producer =>
    match s.producer with
    | .idle => none
    | .headLoaded item head =>
      let next := (head + 1) &&& kMask capacity
      if next = s.tail then some (some (.full item),{ s with producer := .idle })
      else some (none,{ s with producer := .tailLoaded item head next })
    | .tailLoaded item head next =>
      let buffer := Function.update s.buffer head item
      some (none,{ s with buffer := buffer, producer := .slotWritten item head next })
    | .slotWritten item _ next =>
      some (some (.pushed item),{ s with head := next, producer := .idle })
  | .pop =>
    match s.consumer with
    | .idle => some (none,{ s with consumer := .tailLoaded s.tail })
    | _ => none
  | .consumer =>
    match s.consumer with
    | .idle => none
    | .tailLoaded tail =>
      if tail = s.head then some (some .empty,{ s with consumer := .idle })
      else some (none,{ s with consumer := .headLoaded tail })
    | .headLoaded tail => some (none,{ s with consumer := .slotRead tail (s.buffer tail) })
    | .slotRead tail out =>
      let next := (tail + 1) &&& kMask capacity
      some (some (.popped out),{ s with tail := next, consumer := .idle })

def sizeApprox (capacity : UInt64) (s : State T) : UInt64 := (s.head - s.tail) &&& kMask capacity

inductive Run (capacity : UInt64) (buffer : UInt64 → T) : List (Event T) → State T → Prop
  | start : Run capacity buffer [] (init buffer)
  | step (events s action event next) (before : Run capacity buffer events s)
      (taken : step capacity s action = some (event,next)) :
      Run capacity buffer (events ++ event.toList) next

/-- The slot a thread owns between the load that admits the call and the store that ends it. -/
def PushPc.slot : PushPc T → Option UInt64
  | .tailLoaded _ head _ => some head
  | .slotWritten _ head _ => some head
  | _ => none

def PopPc.slot : PopPc T → Option UInt64
  | .headLoaded tail => some tail
  | .slotRead tail _ => some tail
  | _ => none

def ProducerSound (capacity : UInt64) (s : State T) (queue : List T) : Prop :=
  match s.producer with
  | .idle => True
  | .headLoaded _ head => head = s.head
  | .tailLoaded _ head next =>
    head = s.head ∧ next = (head + 1) &&& kMask capacity ∧ queue.length + 1 < capacity.toNat
  | .slotWritten item head next =>
    head = s.head ∧ next = (head + 1) &&& kMask capacity ∧ queue.length + 1 < capacity.toNat ∧
      s.buffer head = item

def ConsumerSound (s : State T) (queue : List T) : Prop :=
  match s.consumer with
  | .idle => True
  | .tailLoaded tail => tail = s.tail
  | .headLoaded tail => tail = s.tail ∧ queue ≠ []
  | .slotRead tail out => tail = s.tail ∧ queue.head? = some out

/-- The buffer holds `queue`; `count` elements have left it. -/
structure Represents (capacity : UInt64) (s : State T) (count : Nat) (queue : List T) : Prop where
  head : s.head.toNat = (count + queue.length) % capacity.toNat
  tail : s.tail.toNat = count % capacity.toNat
  short : queue.length < capacity.toNat
  slots : ∀ i (inside : i < queue.length) (x : UInt64),
    x.toNat = (count + i) % capacity.toNat → s.buffer x = queue[i]
  producer : ProducerSound capacity s queue
  consumer : ConsumerSound s queue

section Steps
variable {capacity : UInt64} {s : State T} {count : Nat} {queue : List T}
  (represents : Represents capacity s count queue)
include represents

theorem empty_iff : s.tail = s.head ↔ queue = [] := by
  have short := represents.short
  rw [← UInt64.toNat_inj,represents.tail,represents.head,← List.length_eq_zero_iff]
  refine ⟨?_,?_⟩
  · intro same
    exact (RingIndex.slot_inj count 0 queue.length (by omega) short same).symm
  · intro empty
    rw [empty,Nat.add_zero]

theorem represents_producer (pc : PushPc T) (sound : ProducerSound capacity { s with producer := pc } queue) :
    Represents capacity { s with producer := pc } count queue :=
  ⟨represents.head,represents.tail,represents.short,represents.slots,sound,represents.consumer⟩

theorem represents_consumer (pc : PopPc T) (sound : ConsumerSound { s with consumer := pc } queue) :
    Represents capacity { s with consumer := pc } count queue :=
  ⟨represents.head,represents.tail,represents.short,represents.slots,represents.producer,sound⟩

/-- The slot at `head_` holds no element of the queue, so writing it disturbs none. -/
theorem represents_write (item : T) (head next : UInt64) (located : s.producer = .tailLoaded item head next) :
    Represents capacity { s with
      buffer := Function.update s.buffer head item, producer := .slotWritten item head next }
      count queue := by
  have sound := represents.producer
  simp only [ProducerSound,located] at sound
  obtain ⟨same,step,room⟩ := sound
  refine ⟨represents.head,represents.tail,represents.short,?_,?_,represents.consumer⟩
  · intro i inside x position
    have other : x ≠ head := by
      intro equal
      have equal : (count + i) % capacity.toNat = (count + queue.length) % capacity.toNat := by
        rw [← position,equal,same,represents.head]
      have := RingIndex.slot_inj count i queue.length (by omega) represents.short equal
      omega
    exact (Function.update_of_ne other _ _).trans (represents.slots i inside x position)
  · exact ⟨same,step,room,Function.update_self ..⟩

theorem represents_read (tail : UInt64) (located : s.consumer = .headLoaded tail) :
    Represents capacity { s with consumer := .slotRead tail (s.buffer tail) } count queue := by
  have sound := represents.consumer
  simp only [ConsumerSound,located] at sound
  obtain ⟨same,nonempty⟩ := sound
  refine represents_consumer represents _ ⟨same,?_⟩
  cases queue with
  | nil => contradiction
  | cons first rest =>
    have found := represents.slots 0 (by simp) tail (by rw [same]; exact represents.tail)
    simp [found]

section PowerOfTwo
variable (power : capacity &&& (capacity - 1) = 0) (positive : 1 ≤ capacity)
include power positive

/-- The full test compares positions, so it holds exactly when one slot is left. -/
theorem full_iff : (s.head + 1) &&& kMask capacity = s.tail ↔ queue.length + 1 = capacity.toNat := by
  have short := represents.short
  have next := RingIndex.mask_next power positive _ _ represents.head
  rw [← UInt64.toNat_inj,kMask,next,represents.tail]
  refine ⟨?_,?_⟩
  · intro same
    have same : (count + (queue.length + 1)) % capacity.toNat = (count + 0) % capacity.toNat := same
    by_contra other
    exact absurd (RingIndex.slot_inj count _ _ (by omega) (by omega) same) (by omega)
  · intro full
    rw [Nat.add_assoc,full,Nat.add_mod_right]

theorem represents_publish (item : T) (head next : UInt64)
    (located : s.producer = .slotWritten item head next) :
    Represents capacity { s with head := next, producer := .idle } count (queue ++ [item]) ∧
      queue.length < capacity.toNat - 1 := by
  have sound := represents.producer
  simp only [ProducerSound,located] at sound
  obtain ⟨same,step,room,written⟩ := sound
  refine ⟨⟨?_,represents.tail,?_,?_,trivial,?_⟩,by omega⟩
  · have next := RingIndex.mask_next power positive _ _ represents.head
    simpa [step,same,kMask,Nat.add_assoc] using next
  · simpa using room
  · intro i inside x position
    rcases Nat.lt_or_ge i queue.length with earlier | last
    · rw [List.getElem_append_left earlier]
      exact represents.slots i earlier x position
    · have final : i = queue.length := by simp at inside; omega
      have here : x = head := by
        rw [← UInt64.toNat_inj,position,same,represents.head,final]
      simp [final,here,written]
  · have sound := represents.consumer
    unfold ConsumerSound at sound ⊢
    cases located : s.consumer with
    | idle => trivial
    | tailLoaded tail => simpa [located] using sound
    | headLoaded tail => simp_all
    | slotRead tail out => simp_all

theorem represents_take (tail : UInt64) (out : T) (located : s.consumer = .slotRead tail out) :
    ∃ rest, queue = out :: rest ∧ Represents capacity
      { s with tail := (tail + 1) &&& kMask capacity, consumer := .idle } (count + 1) rest := by
  have sound := represents.consumer
  simp only [ConsumerSound,located] at sound
  obtain ⟨same,first⟩ := sound
  obtain ⟨rest,rfl⟩ := List.head?_eq_some_iff.mp first
  have short := represents.short
  refine ⟨rest,rfl,?_,?_,?_,?_,?_,trivial⟩
  · rw [represents.head,List.length_cons,Nat.add_assoc,Nat.add_comm 1]
  · rw [same]
    exact RingIndex.mask_next power positive _ _ represents.tail
  · exact Nat.lt_of_succ_lt short
  · intro i inside x position
    rw [Nat.add_assoc,Nat.add_comm 1] at position
    exact represents.slots (i + 1) (by simpa using inside) x position
  · have sound := represents.producer
    unfold ProducerSound at sound ⊢
    cases located : s.producer with
    | idle => trivial
    | headLoaded item head => simpa [located] using sound
    | tailLoaded item head next =>
      simp only [located,List.length_cons] at sound ⊢
      exact ⟨sound.1,sound.2.1,by omega⟩
    | slotWritten item head next =>
      simp only [located,List.length_cons] at sound ⊢
      exact ⟨sound.1,sound.2.1,by omega,sound.2.2.2⟩

/-- Every access is a step of the bounded queue when it decides a call, and none otherwise. -/
theorem represents_step (action : Action T) (event : Option (Event T)) (next : State T)
    (taken : step capacity s action = some (event,next)) :
    ∃ count' queue', Represents capacity next count' queue' ∧
      Runs (capacity.toNat - 1) queue event.toList queue' := by
  cases action with
  | push item =>
    simp only [step] at taken
    split at taken
    next located =>
      cases taken
      exact ⟨count,queue,represents_producer represents _ rfl,.nil _⟩
    next => cases taken
  | producer =>
    simp only [step] at taken
    split at taken
    next => cases taken
    next item head located =>
      have same : head = s.head := by simpa [ProducerSound,located] using represents.producer
      have full := full_iff represents power positive
      have short := represents.short
      rw [same] at taken
      split at taken
      next equal =>
        cases taken
        have atBound := full.mp equal
        refine ⟨count,queue,represents_producer represents _ trivial,?_⟩
        exact .snoc _ [] _ _ _ (.nil _) (.full _ _ (by omega))
      next differ =>
        cases taken
        have room : queue.length + 1 ≠ capacity.toNat := fun atBound => differ (full.mpr atBound)
        exact ⟨count,queue,represents_producer represents _ ⟨rfl,rfl,by omega⟩,.nil _⟩
    next item head after located =>
      cases taken
      exact ⟨count,queue,represents_write represents item head after located,.nil _⟩
    next item head after located =>
      cases taken
      obtain ⟨published,room⟩ := represents_publish represents power positive item head after located
      exact ⟨count,_,published,.snoc _ [] _ _ _ (.nil _) (.pushed _ _ room)⟩
  | pop =>
    simp only [step] at taken
    split at taken
    next located =>
      cases taken
      exact ⟨count,queue,represents_consumer represents _ rfl,.nil _⟩
    next => cases taken
  | consumer =>
    simp only [step] at taken
    split at taken
    next => cases taken
    next tail located =>
      have same : tail = s.tail := by simpa [ConsumerSound,located] using represents.consumer
      have empty := empty_iff represents
      rw [same] at taken
      split at taken
      next equal =>
        cases taken
        obtain rfl := empty.mp equal
        exact ⟨count,[],represents_consumer represents _ trivial,.snoc _ [] _ _ _ (.nil _) .empty⟩
      next differ =>
        cases taken
        have nonempty : queue ≠ [] := fun nil => differ (empty.mpr nil)
        exact ⟨count,queue,represents_consumer represents _ ⟨rfl,nonempty⟩,.nil _⟩
    next tail located =>
      cases taken
      exact ⟨count,queue,represents_read represents tail located,.nil _⟩
    next tail out located =>
      cases taken
      obtain ⟨rest,rfl,taken⟩ := represents_take represents power positive tail out located
      exact ⟨count + 1,rest,taken,.snoc _ [] _ _ _ (.nil _) (.popped _ _)⟩

end PowerOfTwo
end Steps

section PowerOfTwo
variable {capacity : UInt64} (power : capacity &&& (capacity - 1) = 0) (positive : 1 ≤ capacity)
  {buffer : UInt64 → T} {events : List (Event T)} {s : State T} (run : Run capacity buffer events s)

include positive in
theorem represents_init (buffer : UInt64 → T) : Represents capacity (init buffer) 0 [] where
  head := by simp [init]
  tail := by simp [init]
  short := UInt64.le_iff_toNat_le.mp positive
  slots := by simp
  producer := trivial
  consumer := trivial

include power positive run

theorem simulates : ∃ count queue, Represents capacity s count queue ∧
    Runs (capacity.toNat - 1) [] events queue := by
  induction run with
  | start => exact ⟨0,[],represents_init positive buffer,.nil _⟩
  | step events s action event next before taken ih =>
    obtain ⟨count,queue,represents,runs⟩ := ih
    obtain ⟨count',queue',represents',step⟩ := represents_step represents power positive action event next taken
    exact ⟨count',queue',represents',runs.append step⟩

/-- The slot being written holds no element, the slot being read holds the oldest one. -/
theorem slots_apart (written read : UInt64) (writing : s.producer.slot = some written)
    (reading : s.consumer.slot = some read) :
    written ≠ read ∧ written < capacity ∧ read < capacity := by
  obtain ⟨count,queue,represents,_⟩ := simulates power positive run
  have short := represents.short
  have owner : written = s.head := by
    have sound := represents.producer
    unfold ProducerSound at sound
    cases located : s.producer <;> simp_all [PushPc.slot]
  have taker : read = s.tail ∧ queue ≠ [] := by
    have sound := represents.consumer
    unfold ConsumerSound at sound
    cases located : s.consumer <;> simp_all [PopPc.slot]
    intro nil
    simp [nil] at sound
  obtain ⟨rfl,nonempty⟩ := taker
  subst owner
  refine ⟨?_,?_,?_⟩
  · intro same
    exact nonempty ((empty_iff represents).mp same.symm)
  · rw [UInt64.lt_iff_toNat_lt,represents.head]
    exact Nat.mod_lt _ (by omega)
  · rw [UInt64.lt_iff_toNat_lt,represents.tail]
    exact Nat.mod_lt _ (by omega)

theorem sizeApprox_outstanding :
    (sizeApprox capacity s).toNat + (returned events).length = (accepted events).length := by
  obtain ⟨count,queue,represents,runs⟩ := simulates power positive run
  have length := RingIndex.mask_distance power positive _ _ _ _ represents.short represents.head represents.tail
  rw [sizeApprox,kMask,length,runs.outstanding,Nat.add_comm]

end PowerOfTwo

section Failed
variable {capacity : UInt64} {s next : State T} {action : Action T} {item : T}

theorem failed_push (taken : step capacity s action = some (some (.full item),next)) :
    (∃ head, s.producer = .headLoaded item head) ∧ next.toMemory = s.toMemory := by
  cases action with
  | producer =>
    simp only [step] at taken
    split at taken
    next => cases taken
    next waiting head located =>
      split at taken
      · cases taken
        exact ⟨⟨head,located⟩,rfl⟩
      · cases taken
    all_goals cases taken
  | consumer =>
    simp only [step] at taken
    split at taken
    next => cases taken
    next => split at taken <;> cases taken
    all_goals cases taken
  | push | pop =>
    simp only [step] at taken
    split at taken <;> cases taken

theorem failed_pop (taken : step capacity s action = some (some .empty,next)) :
    (∃ tail, s.consumer = .tailLoaded tail) ∧ next.toMemory = s.toMemory := by
  cases action with
  | consumer =>
    simp only [step] at taken
    split at taken
    next => cases taken
    next tail located =>
      split at taken
      · cases taken
        exact ⟨⟨tail,located⟩,rfl⟩
      · cases taken
    all_goals cases taken
  | producer =>
    simp only [step] at taken
    split at taken
    next => cases taken
    next => split at taken <;> cases taken
    all_goals cases taken
  | push | pop =>
    simp only [step] at taken
    split at taken <;> cases taken

theorem started_memory (event : Option (Event T)) (start : action = .push item ∨ action = .pop)
    (taken : step capacity s action = some (event,next)) : next.toMemory = s.toMemory := by
  rcases start with rfl | rfl
  · simp only [step] at taken
    split at taken
    · cases taken
      rfl
    · cases taken
  · simp only [step] at taken
    split at taken
    · cases taken
      rfl
    · cases taken

end Failed

structure BoundedFifo (capacity : UInt64) (events : List (Event T)) (s : State T) : Prop where
  order : returned events <+: accepted events
  outstanding : (accepted events).length ≤ (returned events).length + (capacity.toNat - 1)
  full : ∀ done item rest, events = done ++ .full item :: rest →
    (accepted done).length = (returned done).length + (capacity.toNat - 1)
  empty : ∀ done rest, events = done ++ .empty :: rest →
    (accepted done).length = (returned done).length
  apart : ∀ written read, s.producer.slot = some written → s.consumer.slot = some read →
    written ≠ read ∧ written < capacity ∧ read < capacity
  /-- With no call in progress both loads of `size_approx` read this state. -/
  size : (sizeApprox capacity s).toNat + (returned events).length = (accepted events).length
  /-- A call that fails takes two steps, and neither touches the memory. -/
  started : ∀ action item event next, (action = .push item ∨ action = .pop) →
    step capacity s action = some (event,next) → next.toMemory = s.toMemory
  failedPush : ∀ action item next, step capacity s action = some (some (.full item),next) →
    (∃ head, s.producer = .headLoaded item head) ∧ next.toMemory = s.toMemory
  failedPop : ∀ action next, step capacity s action = some (some .empty,next) →
    (∃ tail, s.consumer = .tailLoaded tail) ∧ next.toMemory = s.toMemory

/-- `power` and `positive` are the `static_assert` on the capacity and its being nonzero. -/
theorem refines_bounded_fifo {capacity : UInt64} (power : capacity &&& (capacity - 1) = 0)
    (positive : 1 ≤ capacity) (buffer : UInt64 → T) (events : List (Event T)) (s : State T)
    (run : Run capacity buffer events s) : BoundedFifo capacity events s := by
  obtain ⟨count,queue,represents,runs⟩ := simulates power positive run
  have bound := runs.length_le (Nat.zero_le _)
  have outstanding := runs.outstanding
  refine ⟨runs.returned_prefix,by omega,?_,?_,slots_apart power positive run,
    sizeApprox_outstanding power positive run,?_,fun _ _ _ => failed_push,fun _ _ => failed_pop⟩
  · exact fun done item rest equal => runs.full_outstanding done rest item equal
  · exact fun done rest equal => runs.empty_outstanding done rest equal
  · exact fun action item event next start taken => started_memory event start taken

theorem refines_bounded_fifo_full : ∃ s, BoundedFifo 2 [.pushed 7,.full 8] (s : State Nat) := by
  have run : ∃ s, Run 2 (fun _ => 0) [.pushed 7,.full 8] s :=
    ⟨_,.step [.pushed 7] _ .producer (some (.full 8)) _
      (.step [.pushed 7] _ (.push 8) none _
        (.step [] _ .producer (some (.pushed 7)) _
          (.step [] _ .producer none _
            (.step [] _ .producer none _ (.step [] _ (.push 7) none _ .start rfl) rfl) rfl) rfl) rfl) rfl⟩
  obtain ⟨s,run⟩ := run
  exact ⟨s,refines_bounded_fifo (by decide) (by decide) (fun _ => 0) _ s run⟩

end MarketFeed.SpscRingBuffer
