import MarketFeed.RingBuffer

/-! The calls of the ring buffer as wholes: an access is silent, and brings its call nearer to
the end, or decides it. -/
namespace MarketFeed.SpscRingBuffer
open BoundedQueue

variable {T : Type*} {capacity : UInt64} {s next : State T} {event : Option (Event T)}

/-- The item of the `push` in progress. -/
def PushPc.item : PushPc T → Option T
  | .idle => none
  | .headLoaded item _ => some item
  | .tailLoaded item _ _ => some item
  | .slotWritten item _ _ => some item

/-- The accesses left before the one that decides the call, at most. -/
def PushPc.left : PushPc T → Nat
  | .idle => 0
  | .headLoaded _ _ => 3
  | .tailLoaded _ _ _ => 2
  | .slotWritten _ _ _ => 1

def PopPc.left : PopPc T → Nat
  | .idle => 0
  | .tailLoaded _ => 3
  | .headLoaded _ => 2
  | .slotRead _ _ => 1

theorem push_starts {item : T} (taken : step capacity s (.push item) = some (event,next)) :
    event = none ∧ next = { s with producer := .headLoaded item s.head } := by
  simp only [step] at taken
  split at taken <;> cases taken
  exact ⟨rfl,rfl⟩

theorem pop_starts (taken : step capacity s .pop = some (event,next)) :
    event = none ∧ next = { s with consumer := .tailLoaded s.tail } := by
  simp only [step] at taken
  split at taken <;> cases taken
  exact ⟨rfl,rfl⟩

/-- What an access of `push` does: none moves the consumer, and only the last moves `head_`. -/
inductive Pushing (s : State T) (item : T) : Option (Event T) → State T → Prop
  | silent (next : State T) (consumer : next.consumer = s.consumer) (carries : next.producer.item = some item)
      (nearer : next.producer.left < s.producer.left) : Pushing s item none next
  | pushed (next : State T) (consumer : next.consumer = s.consumer) (ended : next.producer = .idle) :
      Pushing s item (some (.pushed item)) next
  | full (next : State T) (consumer : next.consumer = s.consumer) (ended : next.producer = .idle) :
      Pushing s item (some (.full item)) next

theorem producer_pushing (taken : step capacity s .producer = some (event,next)) :
    ∃ item, s.producer.item = some item ∧ Pushing s item event next := by
  simp only [step] at taken
  split at taken
  next => cases taken
  next item head located =>
    refine ⟨item,by simp [located,PushPc.item],?_⟩
    split at taken <;> cases taken
    · exact .full _ rfl rfl
    · exact .silent _ rfl rfl (by simp [located,PushPc.left])
  next item head after located =>
    cases taken
    exact ⟨item,by simp [located,PushPc.item],.silent _ rfl rfl (by simp [located,PushPc.left])⟩
  next item head after located =>
    cases taken
    exact ⟨item,by simp [located,PushPc.item],.pushed _ rfl rfl⟩

/-- What an access of `pop` does: the producer's side stays as it is. -/
inductive Popping (s : State T) : Option (Event T) → State T → Prop
  | silent (next : State T) (producer : next.producer = s.producer) (head : next.head = s.head)
      (busy : next.consumer ≠ .idle) (nearer : next.consumer.left < s.consumer.left) : Popping s none next
  | popped (item : T) (next : State T) (producer : next.producer = s.producer) (head : next.head = s.head)
      (ended : next.consumer = .idle) : Popping s (some (.popped item)) next
  | empty (next : State T) (producer : next.producer = s.producer) (head : next.head = s.head)
      (ended : next.consumer = .idle) : Popping s (some .empty) next

theorem consumer_popping (taken : step capacity s .consumer = some (event,next)) : Popping s event next := by
  simp only [step] at taken
  split at taken
  next => cases taken
  next tail located =>
    split at taken <;> cases taken
    · exact .empty _ rfl rfl rfl
    · exact .silent _ rfl rfl (by simp) (by simp [located,PopPc.left])
  next tail located =>
    cases taken
    exact .silent _ rfl rfl (by simp) (by simp [located,PopPc.left])
  next tail out located =>
    cases taken
    exact .popped _ _ rfl rfl rfl

section Holding
variable {queue : List T}

/-- The ring stands for `queue`, however many elements have gone round. -/
def Holding (capacity : UInt64) (s : State T) (queue : List T) : Prop := ∃ count, Represents capacity s count queue

variable (power : capacity &&& (capacity - 1) = 0) (positive : 1 ≤ capacity) (holding : Holding capacity s queue)
include power positive holding

theorem holding_step (action : Action T) (taken : step capacity s action = some (event,next)) :
    ∃ queue', Holding capacity next queue' ∧ Runs (capacity.toNat - 1) queue event.toList queue' := by
  obtain ⟨count,represents⟩ := holding
  obtain ⟨count',queue',represents',runs⟩ := represents_step represents power positive action event next taken
  exact ⟨queue',⟨count',represents'⟩,runs⟩

theorem holding_silent (action : Action T) (taken : step capacity s action = some (none,next)) :
    Holding capacity next queue := by
  obtain ⟨queue',holding',runs⟩ := holding_step power positive holding action taken
  rwa [runs.silent] at holding'

theorem holding_event (action : Action T) (event : Event T) (taken : step capacity s action = some (some event,next)) :
    ∃ queue', Holding capacity next queue' ∧ Step (capacity.toNat - 1) queue event queue' := by
  obtain ⟨queue',holding',runs⟩ := holding_step power positive holding action taken
  exact ⟨queue',holding',runs.one⟩

/-- While the producer rests, the two loads of `size_approx` may stand apart: the second one
decides, as `head_` has not moved. -/
theorem holding_size : ((s.head - s.tail) &&& kMask capacity).toNat = queue.length := by
  obtain ⟨count,represents⟩ := holding
  exact RingIndex.mask_distance power positive _ _ _ _ represents.short represents.head represents.tail

end Holding

theorem push_enabled (item : T) (idle : s.producer.item = none) : ∃ next, step capacity s (.push item) = some (none,next) := by
  cases located : s.producer with
  | idle => exact ⟨_,by simp only [step,located]; rfl⟩
  | headLoaded | tailLoaded | slotWritten => simp [located,PushPc.item] at idle

theorem producer_enabled (busy : s.producer.item ≠ none) : ∃ outcome, step capacity s .producer = some outcome := by
  cases located : s.producer with
  | idle => simp [located,PushPc.item] at busy
  | headLoaded item head =>
    rcases eq_or_ne ((head + 1) &&& kMask capacity) s.tail with full | room
    · exact ⟨_,by simp only [step,located]; exact if_pos full⟩
    · exact ⟨_,by simp only [step,located]; exact if_neg room⟩
  | tailLoaded | slotWritten => exact ⟨_,by simp only [step,located]; rfl⟩

theorem pop_enabled (idle : s.consumer = .idle) : ∃ next, step capacity s .pop = some (none,next) :=
  ⟨_,by simp only [step,idle]; rfl⟩

theorem consumer_enabled (busy : s.consumer ≠ .idle) : ∃ outcome, step capacity s .consumer = some outcome := by
  cases located : s.consumer with
  | idle => exact absurd located busy
  | tailLoaded tail =>
    rcases eq_or_ne tail s.head with empty | nonempty
    · exact ⟨_,by simp only [step,located]; exact if_pos empty⟩
    · exact ⟨_,by simp only [step,located]; exact if_neg nonempty⟩
  | headLoaded | slotRead => exact ⟨_,by simp only [step,located]; rfl⟩

end MarketFeed.SpscRingBuffer
