import MarketFeed.WeakRing

/-! The accesses of the ring buffer with its memory orders, one by one and in runs: what each does to
the queue, and how far it can differ from the access that loads the latest stores. -/
namespace MarketFeed.WeakRing
open SpscRingBuffer BoundedQueue

variable {T : Type*}

section Steps
variable {capacity : UInt64} (power : capacity &&& (capacity - 1) = 0) (positive : 1 ≤ capacity)
  {s next : State T} {count : Nat} {queue : List T} (viewed : Viewed capacity s count queue)
include power positive viewed

theorem check_room {item : T} {head tail : UInt64} {seen : Nat} (located : s.producer = .headLoaded item head)
    (loaded : load s.tails s.tailSeen seen = some tail) :
    head = (current s).head ∧ (s.tailSeen ≤ seen ∧ seen ≤ count) ∧
      ((head + 1) &&& kMask capacity ≠ tail → count + queue.length + 1 ≤ seen + (capacity.toNat - 1) ∧
        (head + 1) &&& kMask capacity ≠ (current s).tail) := by
  obtain ⟨represents,views⟩ := viewed
  have room := views.room
  have sound := represents.producer
  simp only [ProducerSound,current,located] at sound
  rw [views.tails] at loaded
  obtain ⟨older,inside,rfl⟩ := load_stores _ _ _ _ loaded
  refine ⟨sound,⟨older,inside⟩,fun differ => ?_⟩
  have head : head = slot capacity (count + queue.length) := by rw [sound,views.heads,latest_stores]
  simp only [located,claimed] at room
  rw [head,slot_next power positive] at differ ⊢
  have nonzero : 1 ≤ capacity.toNat := UInt64.le_iff_toNat_le.mp positive
  have fits : count + queue.length + 1 ≤ seen + (capacity.toNat - 1) := by
    by_contra beyond
    refine differ ?_
    have full : count + queue.length + 1 = seen + capacity.toNat := by omega
    rw [← UInt64.toNat_inj,slot_toNat positive,slot_toNat positive,full,Nat.add_mod_right]
  refine ⟨fits,?_⟩
  rw [current_tail ⟨represents,views⟩]
  intro same
  have same : slot capacity (count + (queue.length + 1)) = slot capacity (count + 0) := same
  have := (slot_eq_iff positive count _ 0 (by omega) (by omega)).mp same
  omega

omit power in
theorem check_held {tail head : UInt64} {seen : Nat} (located : s.consumer = .tailLoaded tail)
    (loaded : load s.heads s.headSeen seen = some head) :
    tail = (current s).tail ∧ (s.headSeen ≤ seen ∧ seen ≤ count + queue.length) ∧
      (tail ≠ head → count + 1 ≤ seen ∧ tail ≠ (current s).head) := by
  obtain ⟨represents,views⟩ := viewed
  have taken := views.taken
  have short := represents.short
  have sound := represents.consumer
  simp only [ConsumerSound,current,located] at sound
  rw [views.heads] at loaded
  obtain ⟨older,inside,rfl⟩ := load_stores _ _ _ _ loaded
  refine ⟨sound,⟨older,inside⟩,fun differ => ?_⟩
  have tail : tail = slot capacity count := by rw [sound,views.tails,latest_stores]
  simp only [located,taking] at taken
  rw [tail] at differ ⊢
  have held : count + 1 ≤ seen := by
    by_contra fewer
    have empty : seen = count := by omega
    exact differ (by rw [empty])
  refine ⟨held,?_⟩
  rw [current_head ⟨represents,views⟩]
  intro same
  have same : slot capacity (count + 0) = slot capacity (count + queue.length) := same
  have := (slot_eq_iff positive count 0 _ (by omega) (by omega)).mp same
  omega

theorem producer_viewed (seen : Nat) {event : Option (Event T)} (taken : step capacity s .producer seen = some (event,next)) :
    (∃ queue', Viewed capacity next count queue' ∧ Moves capacity queue event queue') ∧
      Follows capacity s .producer event next := by
  obtain ⟨represents,views⟩ := viewed
  have room := views.room
  simp only [step] at taken
  split at taken
  next => cases taken
  next item head located =>
    obtain ⟨tail,loaded,taken⟩ := Option.map_eq_some_iff.mp taken
    obtain ⟨owned,⟨older,inside⟩,fits⟩ := check_room power positive ⟨represents,views⟩ located loaded
    split at taken
    next full =>
      cases taken
      refine ⟨⟨queue,⟨represents_producer represents _ trivial,?_⟩,.full ..⟩,?_⟩
      · exact ⟨views.heads,views.tails,by simpa [located,writing] using views.written,views.read,inside,views.headSeen,
          by simp only [claimed]; omega,views.taken⟩
      · rcases eq_or_ne ((head + 1) &&& kMask capacity) (current s).tail with exact_ | stale
        · refine Or.inl ?_
          have located : (current s).producer = .headLoaded item head := located
          simp only [SpscRingBuffer.step,located]
          exact if_pos exact_
        · exact Or.inr ⟨_,rfl,.full item head located⟩
    next differ =>
      cases taken
      obtain ⟨fits,fresh⟩ := fits differ
      refine ⟨⟨queue,⟨represents_producer represents _ ⟨owned,by rw [owned],by omega⟩,?_⟩,rfl⟩,Or.inl ?_⟩
      · exact ⟨views.heads,views.tails,by simpa [located,writing] using views.written,views.read,inside,views.headSeen,
          by simpa [claimed] using fits,views.taken⟩
      · have located : (current s).producer = .headLoaded item head := located
        simp only [SpscRingBuffer.step,located]
        exact if_neg fresh
  next item head after located =>
    cases taken
    have sound := represents.producer
    simp only [ProducerSound,current,located] at sound
    refine ⟨⟨queue,⟨represents_write represents item head after located,?_⟩,rfl⟩,Or.inl ?_⟩
    · refine ⟨views.heads,views.tails,?_,views.read,views.tailSeen,views.headSeen,
        by simpa [located,claimed] using room,views.taken⟩
      have here : head = slot capacity (count + queue.length) := by rw [sound.1,views.heads,latest_stores]
      simp [views.written,located,writing,here,List.range_succ]
    · have located : (current s).producer = .tailLoaded item head after := located
      simp only [SpscRingBuffer.step,located]
      rfl
  next item head after located =>
    cases taken
    have sound := represents.producer
    simp only [ProducerSound,current,located] at sound
    obtain ⟨published,short⟩ := represents_publish represents power positive item head after located
    have here : head = slot capacity (count + queue.length) := by rw [sound.1,views.heads,latest_stores]
    have longer : count + (queue ++ [item]).length = count + queue.length + 1 := by simp [Nat.add_assoc]
    have moved : latest (s.heads ++ [⟨after,s.written.length⟩]) = after := latest_concat ..
    simp only [located,claimed] at room
    refine ⟨⟨queue ++ [item],⟨?_,?_⟩,.pushed _ _ short⟩,Or.inl ?_⟩
    · simpa only [current,moved] using published
    · refine ⟨?_,views.tails,?_,views.read,views.tailSeen,?_,?_,views.taken⟩
      · have next : after = slot capacity (count + queue.length + 1) := by
          rw [sound.2.1,here,slot_next power positive]
        have accesses : s.written.length = count + queue.length + 1 := by simp [views.written,located,writing]
        rw [longer,views.heads,accesses,next,stores_succ]
      · simp [views.written,located,writing,Nat.add_assoc]
      · have := views.headSeen
        simp
        omega
      · simp [claimed]
        omega
    · have located : (current s).producer = .slotWritten item head after := located
      simp only [SpscRingBuffer.step,located]
      simp [current,moved]

theorem consumer_viewed (seen : Nat) {event : Option (Event T)} (taken : step capacity s .consumer seen = some (event,next)) :
    (∃ count' queue', Viewed capacity next count' queue' ∧ Moves capacity queue event queue') ∧
      Follows capacity s .consumer event next := by
  obtain ⟨represents,views⟩ := viewed
  have held := views.taken
  simp only [step] at taken
  split at taken
  next => cases taken
  next tail located =>
    obtain ⟨head,loaded,taken⟩ := Option.map_eq_some_iff.mp taken
    obtain ⟨owned,⟨older,inside⟩,fits⟩ := check_held positive ⟨represents,views⟩ located loaded
    split at taken
    next empty =>
      cases taken
      refine ⟨⟨count,queue,⟨represents_consumer represents _ trivial,?_⟩,.empty _⟩,?_⟩
      · exact ⟨views.heads,views.tails,views.written,by simpa [located,reading] using views.read,views.tailSeen,inside,
          views.room,by simp only [taking]; omega⟩
      · have located : (current s).consumer = .tailLoaded tail := located
        rcases eq_or_ne tail (current s).head with exact_ | stale
        · refine Or.inl ?_
          simp only [SpscRingBuffer.step,located]
          exact if_pos exact_
        · exact Or.inr ⟨_,rfl,.empty tail located⟩
    next differ =>
      cases taken
      obtain ⟨fits,fresh⟩ := fits differ
      have nonempty : queue ≠ [] := by
        rintro rfl
        simp at inside
        omega
      refine ⟨⟨count,queue,⟨represents_consumer represents _ ⟨owned,nonempty⟩,?_⟩,rfl⟩,Or.inl ?_⟩
      · exact ⟨views.heads,views.tails,views.written,by simpa [located,reading] using views.read,views.tailSeen,inside,
          views.room,by simpa [taking] using fits⟩
      · have located : (current s).consumer = .tailLoaded tail := located
        simp only [SpscRingBuffer.step,located]
        exact if_neg fresh
  next tail located =>
    cases taken
    have sound := represents.consumer
    simp only [ConsumerSound,current,located] at sound
    refine ⟨⟨count,queue,⟨represents_read represents tail located,?_⟩,rfl⟩,Or.inl ?_⟩
    · refine ⟨views.heads,views.tails,views.written,?_,views.tailSeen,views.headSeen,views.room,
        by simpa [located,taking] using held⟩
      have here : tail = slot capacity count := by rw [sound.1,views.tails,latest_stores]
      simp [views.read,located,reading,here,List.range_succ]
    · have located : (current s).consumer = .headLoaded tail := located
      simp only [SpscRingBuffer.step,located]
      rfl
  next tail out located =>
    cases taken
    have sound := represents.consumer
    simp only [ConsumerSound,current,located] at sound
    obtain ⟨rest,rfl,took⟩ := represents_take represents power positive tail out located
    have here : tail = slot capacity count := by rw [sound.1,views.tails,latest_stores]
    have next : (tail + 1) &&& kMask capacity = slot capacity (count + 1) := by rw [here,slot_next power positive]
    have moved : latest (s.tails ++ [⟨(tail + 1) &&& kMask capacity,s.read.length⟩]) = (tail + 1) &&& kMask capacity :=
      latest_concat ..
    have shorter : count + (out :: rest).length = count + 1 + rest.length := by
      rw [List.length_cons]
      omega
    simp only [located,taking] at held
    refine ⟨⟨count + 1,rest,⟨?_,?_⟩,.popped ..⟩,Or.inl ?_⟩
    · simpa only [current,moved] using took
    · rw [shorter] at views
      refine ⟨views.heads,?_,views.written,?_,Nat.le_succ_of_le views.tailSeen,views.headSeen,views.room,?_⟩
      · have accesses : s.read.length = count + 1 := by simp [views.read,located,reading]
        rw [views.tails,accesses,next,stores_succ]
      · simp [views.read,located,reading]
      · simpa [taking] using held
    · have located : (current s).consumer = .slotRead tail out := located
      simp only [SpscRingBuffer.step,located]
      simp [current,moved]

omit power positive

theorem push_viewed (item : T) (seen : Nat) {event : Option (Event T)}
    (taken : step capacity s (.push item) seen = some (event,next)) :
    event = none ∧ Viewed capacity next count queue ∧ Follows capacity s (.push item) event next := by
  obtain ⟨represents,views⟩ := viewed
  simp only [step] at taken
  split at taken
  next located =>
    cases taken
    refine ⟨rfl,⟨represents_producer represents _ rfl,?_⟩,Or.inl ?_⟩
    · exact ⟨views.heads,views.tails,by simpa [located,writing] using views.written,views.read,views.tailSeen,
        views.headSeen,by simpa [located,claimed] using views.room,views.taken⟩
    · have located : (current s).producer = .idle := located
      simp only [SpscRingBuffer.step,located]
      rfl
  next => cases taken

theorem pop_viewed (seen : Nat) {event : Option (Event T)} (taken : step capacity s .pop seen = some (event,next)) :
    event = none ∧ Viewed capacity next count queue ∧ Follows capacity s .pop event next := by
  obtain ⟨represents,views⟩ := viewed
  simp only [step] at taken
  split at taken
  next located =>
    cases taken
    refine ⟨rfl,⟨represents_consumer represents _ rfl,?_⟩,Or.inl ?_⟩
    · exact ⟨views.heads,views.tails,views.written,by simpa [located,reading] using views.read,views.tailSeen,
        views.headSeen,views.room,by simpa [located,taking] using views.taken⟩
    · have located : (current s).consumer = .idle := located
      simp only [SpscRingBuffer.step,located]
      rfl
  next => cases taken

include power positive

theorem step_viewed (action : Action T) (seen : Nat) {event : Option (Event T)}
    (taken : step capacity s action seen = some (event,next)) :
    (∃ count' queue', Viewed capacity next count' queue' ∧ Moves capacity queue event queue') ∧
      Follows capacity s action event next := by
  cases action with
  | push item =>
    obtain ⟨rfl,kept,follows⟩ := push_viewed viewed item seen taken
    exact ⟨⟨count,queue,kept,rfl⟩,follows⟩
  | producer =>
    obtain ⟨⟨queue',kept,moves⟩,follows⟩ := producer_viewed power positive viewed seen taken
    exact ⟨⟨count,queue',kept,moves⟩,follows⟩
  | pop =>
    obtain ⟨rfl,kept,follows⟩ := pop_viewed viewed seen taken
    exact ⟨⟨count,queue,kept,rfl⟩,follows⟩
  | consumer => exact consumer_viewed power positive viewed seen taken

/-- An old `tail_` makes the size too large, never too small. -/
theorem loadTail_viewed (seen : Nat) {tail : UInt64} (loaded : loadTail s seen = some (tail,next)) :
    Viewed capacity next count queue ∧ current next = current s ∧ ∃ older ≤ count, tail = slot capacity older ∧
      (((current s).head - tail) &&& kMask capacity).toNat = count + queue.length - older := by
  have head := current_head viewed
  obtain ⟨represents,views⟩ := viewed
  obtain ⟨_,found,same⟩ := Option.map_eq_some_iff.mp loaded
  cases same
  rw [views.tails] at found
  obtain ⟨older,inside,rfl⟩ := load_stores _ _ _ _ found
  have room := views.room
  refine ⟨⟨represents,?_⟩,rfl,seen,inside,rfl,?_⟩
  · exact ⟨views.heads,views.tails,views.written,views.read,inside,views.headSeen,
      Nat.le_trans room (Nat.add_le_add_right older _),views.taken⟩
  · have nonzero : 1 ≤ capacity.toNat := UInt64.le_iff_toNat_le.mp positive
    have ahead : (current s).head.toNat = (seen + (count + queue.length - seen)) % capacity.toNat := by
      rw [head,slot_toNat positive,Nat.add_sub_cancel' (by omega)]
    exact RingIndex.mask_distance power positive _ _ _ _ (by omega) ahead (slot_toNat positive seen)

end Steps

theorem viewed_init {capacity : UInt64} (positive : 1 ≤ capacity) (buffer : UInt64 → T) :
    Viewed capacity (init buffer) 0 [] := by
  have zero : slot capacity 0 = 0 := by simp [slot]
  refine ⟨represents_init positive buffer,?_⟩
  constructor <;> simp [init,stores,zero,writing,reading,claimed,taking]

section Fresh
variable {capacity : UInt64} {s : State T} {count : Nat} {queue : List T} (viewed : Viewed capacity s count queue)
include viewed

/-- Every access the ring makes with the latest stores is open to it. -/
theorem step_fresh (action : Action T) {event : Option (Event T)} {r : SpscRingBuffer.State T}
    (taken : SpscRingBuffer.step capacity (current s) action = some (event,r)) :
    ∃ seen next, step capacity s action seen = some (event,next) ∧ current next = r := by
  obtain ⟨represents,views⟩ := viewed
  cases action with
  | push item =>
    refine ⟨0,?_⟩
    simp only [SpscRingBuffer.step,current] at taken
    split at taken
    next located =>
      cases taken
      exact ⟨_,by simp only [step,located]; rfl,rfl⟩
    next => cases taken
  | producer =>
    refine ⟨count,?_⟩
    have loaded := load_latest capacity count s.tailSeen views.tailSeen
    rw [← views.tails] at loaded
    simp only [SpscRingBuffer.step,current,views.tails,latest_stores] at taken
    cases located : s.producer with
    | idle => simp [located] at taken
    | headLoaded item head =>
      simp only [located] at taken
      simp only [step,located,loaded,Option.map_some]
      split at taken
      next full =>
        cases taken
        rw [if_pos full]
        exact ⟨_,rfl,by simp [current,views.tails,latest_stores]⟩
      next room =>
        cases taken
        rw [if_neg room]
        exact ⟨_,rfl,by simp [current,views.tails,latest_stores]⟩
    | tailLoaded item head after =>
      simp only [located] at taken
      cases taken
      exact ⟨_,by simp only [step,located]; rfl,by simp [current,views.tails,latest_stores]⟩
    | slotWritten item head after =>
      simp only [located] at taken
      cases taken
      exact ⟨_,by simp only [step,located]; rfl,by simp [current,latest_concat,views.tails,latest_stores]⟩
  | pop =>
    refine ⟨0,?_⟩
    simp only [SpscRingBuffer.step,current] at taken
    split at taken
    next located =>
      cases taken
      exact ⟨_,by simp only [step,located]; rfl,rfl⟩
    next => cases taken
  | consumer =>
    refine ⟨count + queue.length,?_⟩
    have loaded := load_latest capacity (count + queue.length) s.headSeen views.headSeen
    rw [← views.heads] at loaded
    simp only [SpscRingBuffer.step,current,views.heads,latest_stores] at taken
    cases located : s.consumer with
    | idle => simp [located] at taken
    | tailLoaded tail =>
      simp only [located] at taken
      simp only [step,located,loaded,Option.map_some]
      split at taken
      next empty =>
        cases taken
        rw [if_pos empty]
        exact ⟨_,rfl,by simp [current,views.heads,latest_stores]⟩
      next held =>
        cases taken
        rw [if_neg held]
        exact ⟨_,rfl,by simp [current,views.heads,latest_stores]⟩
    | headLoaded tail =>
      simp only [located] at taken
      cases taken
      exact ⟨_,by simp only [step,located]; rfl,by simp [current,views.heads,latest_stores]⟩
    | slotRead tail out =>
      simp only [located] at taken
      cases taken
      exact ⟨_,by simp only [step,located]; rfl,by simp [current,latest_concat,views.heads,latest_stores]⟩

theorem loadTail_fresh : ∃ seen next, loadTail s seen = some ((current s).tail,next) ∧ current next = current s := by
  have last := current_tail viewed
  have views := viewed.2
  have loaded := load_latest capacity count s.tailSeen views.tailSeen
  rw [← views.tails] at loaded
  exact ⟨count,{ s with tailSeen := count },by simp only [loadTail,loaded,last,Option.map_some],rfl⟩

end Fresh

inductive Run (capacity : UInt64) (buffer : UInt64 → T) : List (Event T) → State T → Prop
  | start : Run capacity buffer [] (init buffer)
  | step (events s action seen event next) (before : Run capacity buffer events s)
      (taken : step capacity s action seen = some (event,next)) : Run capacity buffer (events ++ event.toList) next
  | size (events s seen tail next) (before : Run capacity buffer events s)
      (loaded : loadTail s seen = some (tail,next)) : Run capacity buffer events next

section Runs
variable {capacity : UInt64} (power : capacity &&& (capacity - 1) = 0) (positive : 1 ≤ capacity)
  {buffer : UInt64 → T} {events : List (Event T)} {s : State T} (run : Run capacity buffer events s)
include power positive run

theorem run_viewed : ∃ count queue, Viewed capacity s count queue ∧ accepted events = returned events ++ queue := by
  induction run with
  | start => exact ⟨0,[],viewed_init positive buffer,rfl⟩
  | step events s action seen event next before taken ih =>
    obtain ⟨count,queue,viewed,contents⟩ := ih
    obtain ⟨⟨count',queue',kept,moves⟩,_⟩ := step_viewed power positive viewed action seen taken
    refine ⟨count',queue',kept,?_⟩
    cases event with
    | none =>
      obtain rfl : queue' = queue := moves
      simpa using contents
    | some event =>
      have conserved := Loose.conservation moves
      simp [contents,conserved]
  | size events s seen tail next before loaded ih =>
    obtain ⟨count,queue,viewed,contents⟩ := ih
    exact ⟨count,queue,(loadTail_viewed power positive viewed seen loaded).1,contents⟩

end Runs

/-- What holds after any accesses, `events` being the calls decided so far. -/
structure WeakFifo (capacity : UInt64) (events : List (Event T)) (s : State T) : Prop where
  order : returned events <+: accepted events
  outstanding : (accepted events).length ≤ (returned events).length + (capacity.toNat - 1)
  raceFree : races s = false
  size : ∀ seen tail next, loadTail s seen = some (tail,next) →
    (accepted events).length ≤ (returned events).length + ((latest s.heads - tail) &&& kMask capacity).toNat

/-- Acquire and release suffice: whichever stores the loads return, no slot access races, elements
come out in the order they went in, and none is lost, invented or left out of the size. -/
theorem weak_fifo {capacity : UInt64} (power : capacity &&& (capacity - 1) = 0) (positive : 1 ≤ capacity)
    (buffer : UInt64 → T) (events : List (Event T)) (s : State T) (run : Run capacity buffer events s) :
    WeakFifo capacity events s := by
  obtain ⟨count,queue,viewed,contents⟩ := run_viewed power positive run
  have short := viewed.1.short
  have length : (accepted events).length = (returned events).length + queue.length := by
    rw [contents,List.length_append]
  refine ⟨?_,by omega,races_free positive viewed,?_⟩
  · rw [contents]
    exact List.prefix_append _ _
  · intro seen tail next loaded
    obtain ⟨_,_,older,inside,_,size⟩ := loadTail_viewed power positive viewed seen loaded
    have size : ((latest s.heads - tail) &&& kMask capacity).toNat = count + queue.length - older := size
    omega

/-- The producer pushes, the element leaves, and the producer still loads the old `tail_`. -/
theorem weak_fifo_stale : ∃ s, WeakFifo 2 [.pushed 7,.popped 7,.full 8] (s : State Nat) := by
  have run : ∃ s, Run 2 (fun _ => 0) [.pushed 7,.popped 7,.full 8] (s : State Nat) :=
    ⟨_,.step [.pushed 7,.popped 7] _ .producer 0 (some (.full 8)) _
      (.step [.pushed 7,.popped 7] _ (.push 8) 0 none _
        (.step [.pushed 7] _ .consumer 0 (some (.popped 7)) _
          (.step [.pushed 7] _ .consumer 0 none _
            (.step [.pushed 7] _ .consumer 1 none _
              (.step [.pushed 7] _ .pop 0 none _
                (.step [] _ .producer 0 (some (.pushed 7)) _
                  (.step [] _ .producer 0 none _
                    (.step [] _ .producer 0 none _
                      (.step [] _ (.push 7) 0 none _ .start rfl) rfl) rfl) rfl) rfl) rfl) rfl) rfl) rfl) rfl⟩
  obtain ⟨s,run⟩ := run
  exact ⟨s,weak_fifo (by decide) (by decide) (fun _ => 0) _ s run⟩

end MarketFeed.WeakRing
