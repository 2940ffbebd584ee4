import MarketFeed.LiveCalls

/-! A feed used again: any calls can be made one after the other, and what `wait` promises holds
at the return of each only as long as none but the first has anything to send. -/
namespace MarketFeed.LiveSession

/-- What the threads of a call may do until it has drained, and after. -/
def Permits (drained : Bool) (f : LiveFeed) (action : LiveFeed.Action) : Prop :=
  f.Settles action ∧ (action = .main → drained = false)

theorem permits_allows (drained : Bool) : LiveFeed.Allows (Permits drained) where
  publisher _ := ⟨fun contra => (by cases contra),fun contra => (by cases contra)⟩
  receiver _ awake := ⟨fun _ timedOut => absurd timedOut awake,fun contra => (by cases contra)⟩
  stops _ empty published := ⟨fun _ _ _ => ⟨empty,by simp [published]⟩,fun contra => (by cases contra)⟩

theorem permits_closable : LiveFeed.Closable (Permits false) where
  toAllows := permits_allows false
  worker _ _ := ⟨fun contra => (by cases contra),fun contra => (by cases contra)⟩
  main _ := ⟨fun contra => (by cases contra),fun _ => rfl⟩

def Reaches (s : LiveSession) (calls : List (List WireMsg)) (next : LiveSession) : Prop :=
  ∃ actions, starts actions = calls ∧ (∀ action ∈ actions, Lossless action) ∧ s.Along Stops actions ∧
    s.run actions = some next

theorem Reaches.refl (s : LiveSession) : Reaches s [] s := ⟨[],rfl,by simp,trivial,rfl⟩

theorem Reaches.head {s middle next : LiveSession} {calls : List (List WireMsg)} (action : Action)
    (lossless : Lossless action) (stops : Stops s action) (step : s.step action = some middle)
    (rest : Reaches middle calls next) : Reaches s ((startOf action).toList ++ calls) next := by
  obtain ⟨actions,rfl,others,along,ran⟩ := rest
  refine ⟨action :: actions,starts_cons action actions,?_,⟨stops,fun other taken => ?_⟩,by simp [run,step,ran]⟩
  · intro x member
    rcases List.mem_cons.mp member with rfl | later
    · exact lossless
    · exact others x later
  · obtain rfl := Option.some.inj (step.symm.trans taken)
    exact along

theorem Reaches.trans {s middle next : LiveSession} {first second : List (List WireMsg)}
    (before : Reaches s first middle) (after : Reaches middle second next) : Reaches s (first ++ second) next := by
  obtain ⟨actions,rfl,lossless,along,ran⟩ := before
  induction actions generalizing s with
  | nil =>
    cases ran
    exact after
  | cons action rest ih =>
    obtain ⟨mid,step,onward⟩ := Option.bind_eq_some_iff.mp ran
    rw [starts_cons,List.append_assoc]
    refine Reaches.head action (lossless action List.mem_cons_self) along.1 step ?_
    exact ih (fun x member => lossless x (List.mem_cons_of_mem _ member)) (along.2 mid step) onward

theorem reaches_feed {s : LiveSession} (running : s.running = true) {feed : LiveFeed}
    (leads : LiveFeed.LeadsAlong (Permits s.drained) s.feed feed) : Reaches s [] { s with feed := feed } := by
  obtain ⟨actions,lossless,along,ran⟩ := leads
  induction actions generalizing s with
  | nil =>
    cases ran
    exact .refl s
  | cons action rest ih =>
    obtain ⟨middle,step,onward⟩ := Option.bind_eq_some_iff.mp ran
    have permits := along.1
    have first := lossless action List.mem_cons_self
    have taken : s.step (.feed action) = some { s with feed := middle } := by
      cases action with
      | main =>
        have undrained := permits.2 rfl
        have open_ : s.feed.pool.drain ≠ .returned := by
          intro returned
          simp [LiveFeed.step,LiveFeed.mainStep,returned,Pool.drainStep] at step
        have stepped : s.feed.mainStep = some middle := step
        simp only [LiveSession.step,waitStep,running,undrained]
        split
        · contradiction
        · simp [stepped]
      | publisher | receiver | worker | network =>
        simp only [LiveSession.step]
        rw [step]
        rfl
    have later := ih (s := { s with feed := middle }) running (fun x member => lossless x (List.mem_cons_of_mem _ member))
      (along.2 middle step) onward
    exact Reaches.head (.feed action) first permits.1 taken later

theorem reaches_start {s : LiveSession} {messages : List WireMsg} (stopped : s.running = false)
    (few : messages.length ≤ s.expectedMsgs) : ∃ started, s.start messages = some started ∧
      started.running = true ∧ started.drained = s.drained ∧ started.expectedMsgs = s.expectedMsgs ∧
      started.feed = { s.feed with
        rest := messages
        locals := {}
        publisher := .looping
        buf := List.replicate recvBufferBytes 0
        receiver := .receiving } := by
  refine ⟨_,by simp only [LiveSession.start,stopped,Bool.false_eq_true,if_false,if_neg (Nat.not_lt.mpr few)]; rfl,?_⟩
  exact ⟨rfl,rfl,rfl,rfl⟩

theorem streams_run {s final : LiveSession} {calls calls' : List (List WireMsg)} (streams : Streams s calls)
    (typed : ∀ messages ∈ calls', ∀ m ∈ messages, m ≠ .zero) (reaches : Reaches s calls' final) :
    Streams final (calls ++ calls') := by
  obtain ⟨actions,rfl,lossless,along,ran⟩ := reaches
  induction actions generalizing s calls with
  | nil =>
    cases ran
    simpa [starts] using streams
  | cons action rest ih =>
    obtain ⟨next,step,onward⟩ := Option.bind_eq_some_iff.mp ran
    rw [starts_cons] at typed ⊢
    rw [← List.append_assoc]
    refine ih (streams_step streams action ?_ (lossless action List.mem_cons_self) along.1 step) ?_ ?_
      (along.2 next step) onward
    · exact fun messages called => typed messages (List.mem_append_left _ (by simp [called]))
    · exact fun messages member => typed messages (List.mem_append_right _ member)
    · exact fun x member => lossless x (List.mem_cons_of_mem _ member)

theorem waitStep_again {s : LiveSession} (running : s.running = true) (drained : s.drained = true)
    (publisher : s.feed.publisher = .ended) (receiver : s.feed.receiver = .ended) :
    s.waitStep = some { s with running := false } := by
  simp [waitStep,running,drained,publisher,receiver]

theorem waitStep_first {s : LiveSession} (running : s.running = true) (undrained : s.drained = false)
    (returned : s.feed.pool.drain = .returned) : s.waitStep = some { s with drained := true, running := false } := by
  simp [waitStep,running,undrained,returned]

theorem reaches_return {s next : LiveSession} (step : s.waitStep = some next) : Reaches s [] next :=
  Reaches.head (.feed .main) trivial (fun contra => (by cases contra)) step (.refl next)

/-- A further call can complete. -/
theorem reaches_again {s : LiveSession} {calls : List (List WireMsg)} (streams : Streams s calls)
    (stopped : s.running = false) (drained : s.drained = true) (messages : List WireMsg)
    (typed : ∀ m ∈ messages, m ≠ .zero) (few : messages.length ≤ s.expectedMsgs) :
    ∃ next, Reaches s [messages] next ∧ next.running = false ∧ next.drained = true ∧
      next.expectedMsgs = s.expectedMsgs := by
  obtain ⟨started,step,running,still,room,feed⟩ := reaches_start stopped few
  rw [drained] at still
  have streaming := streams_start streams messages typed step
  have allows := permits_allows started.drained
  obtain ⟨sent,published,ended,receiver,_⟩ := LiveFeed.leads_published allows messages started.feed
    (by rw [feed]) (by rw [feed])
  have flows := (streams_run streaming (by simp) (reaches_feed running published)).flows
  obtain ⟨groups,pending,accounted⟩ := flows.accounted
  obtain ⟨emptied,receives,empty⟩ := LiveFeed.leads_received allows groups sent
    (by rw [receiver,feed]) accounted.socket
  have done := receives.publisher.trans ended
  have leads := published.trans receives.leads
  have told := (streams_run streaming (by simp) (reaches_feed running leads)).flows.flagged done
  have flag := told.resolve_right (by simp [receives.receiving])
  have left := LiveFeed.leads_left allows emptied receives.receiving empty done flag
  have reached := reaches_feed running (leads.trans left)
  have returned := reached.trans (reaches_return (waitStep_again running still done rfl))
  have whole : Reaches s [messages] _ := Reaches.head (.start messages) trivial trivial step returned
  exact ⟨_,whole,rfl,still,room⟩

theorem reaches_first (n : Nat) (reference : Nat → Int64) (expectedMsgs : Nat) (messages : List WireMsg)
    (typed : ∀ m ∈ messages, m ≠ .zero) (few : messages.length ≤ expectedMsgs) :
    ∃ next, Reaches (construct n reference expectedMsgs) [messages] next ∧ next.running = false ∧
      next.drained = true ∧ next.expectedMsgs = expectedMsgs := by
  obtain ⟨started,step,running,still,room,feed⟩ := reaches_start (s := construct n reference expectedMsgs) rfl few
  have fresh : started.drained = false := still
  obtain ⟨final,leads,closed⟩ := LiveFeed.init_returns typed n reference permits_closable
  have opened : started.feed = LiveFeed.init messages n reference := feed
  rw [← opened,← fresh] at leads
  have returned := (reaches_feed running leads).trans (reaches_return (waitStep_first running fresh closed))
  have whole : Reaches (construct n reference expectedMsgs) [messages] _ :=
    Reaches.head (.start messages) trivial trivial step returned
  exact ⟨_,whole,rfl,rfl,room⟩

/-- Any calls whose sizes fit can be made one after the other, each to its return. -/
theorem reaches_calls (n : Nat) (reference : Nat → Int64) (expectedMsgs : Nat) (first : List WireMsg)
    (later : List (List WireMsg)) (typed : ∀ messages ∈ first :: later, ∀ m ∈ messages, m ≠ .zero)
    (few : ∀ messages ∈ first :: later, messages.length ≤ expectedMsgs) :
    ∃ next, Reaches (construct n reference expectedMsgs) (first :: later) next ∧ next.running = false := by
  obtain ⟨begun,reached,stopped,drained,room⟩ := reaches_first n reference expectedMsgs first
    (typed first List.mem_cons_self) (few first List.mem_cons_self)
  have streams := streams_run (session_construct n reference expectedMsgs).streams
    (by simpa using typed first List.mem_cons_self) reached
  suffices more : ∀ later : List (List WireMsg), ∀ calls s, Streams s calls → s.running = false → s.drained = true →
      s.expectedMsgs = expectedMsgs → (∀ messages ∈ later, ∀ m ∈ messages, m ≠ .zero) →
      (∀ messages ∈ later, messages.length ≤ expectedMsgs) →
      ∃ next, Reaches s later next ∧ next.running = false by
    obtain ⟨next,onward,ended⟩ := more later _ begun streams stopped drained room
      (fun messages member => typed messages (List.mem_cons_of_mem _ member))
      (fun messages member => few messages (List.mem_cons_of_mem _ member))
    exact ⟨next,reached.trans onward,ended⟩
  intro later
  induction later with
  | nil => exact fun _ s _ stopped _ _ _ _ => ⟨s,.refl s,stopped⟩
  | cons messages rest ih =>
    intro calls s streams stopped drained room typed few
    have own := typed messages List.mem_cons_self
    obtain ⟨middle,reached,stopped,drained,room'⟩ := reaches_again streams stopped drained messages own
      (by rw [room]; exact few messages List.mem_cons_self)
    have streaming := streams_run streams (by simpa using own) reached
    obtain ⟨next,onward,ended⟩ := ih _ middle streaming stopped drained (room'.trans room)
      (fun messages member => typed messages (List.mem_cons_of_mem _ member))
      (fun messages member => few messages (List.mem_cons_of_mem _ member))
    exact ⟨next,reached.trans onward,ended⟩

theorem fair_calls (n : Nat) (reference : Nat → Int64) (expectedMsgs : Nat) (first : List WireMsg)
    (later : List (List WireMsg)) (typed : ∀ messages ∈ first :: later, ∀ m ∈ messages, m ≠ .zero)
    (few : ∀ messages ∈ first :: later, messages.length ≤ expectedMsgs)
    (short : (first :: later).flatten.length < kQueueCapacity) :
    ∃ actions final, starts actions = first :: later ∧ (∀ action ∈ actions, Lossless action) ∧
      (construct n reference expectedMsgs).Along Fair actions ∧
      (construct n reference expectedMsgs).run actions = some final ∧ final.running = false := by
  obtain ⟨final,⟨actions,called,lossless,stops,ran⟩,stopped⟩ :=
    reaches_calls n reference expectedMsgs first later typed few
  have session := session_construct n reference expectedMsgs
  have within : (construct n reference expectedMsgs).feed.QueuesWithin := by
    intro k
    have empty : ((construct n reference expectedMsgs).feed.pool.shards k).queue = [] :=
      ((Normalizer.priced_ready n reference).blank k).queue
    simp [empty]
  refine ⟨actions,final,called,lossless,?_,ran,stopped⟩
  refine fair_run actions session.streams within (called ▸ typed) lossless stops ran ?_
  rwa [called]

/-- At every return of `wait`, what it promises holds exactly when no call but the first had
anything to send. -/
theorem wait_settles_iff (n : Nat) (positive : 1 ≤ n) (reference : Nat → Int64) (expectedMsgs : Nat)
    (actions : List Action) (final : LiveSession)
    (typed : ∀ messages ∈ starts actions, ∀ m ∈ messages, m ≠ .zero)
    (known : ∀ messages ∈ starts actions, ∀ m ∈ messages, instrumentOf m < numInstruments)
    (lossless : ∀ action ∈ actions, Lossless action)
    (fair : (construct n reference expectedMsgs).Along Fair actions)
    (ran : (construct n reference expectedMsgs).run actions = some final) (stopped : final.running = false) :
    Settled (Normalizer.ready n reference) final ↔ ∀ messages ∈ (starts actions).tail, messages = [] := by
  have session := session_run actions (session_construct n reference expectedMsgs) typed lossless fair ran
  exact settled_iff positive session known stopped

def oneAdd : List WireMsg := [.add ⟨⟨0,0⟩,1,.buy,10000,1⟩]

theorem oneAdd_typed : ∀ m ∈ oneAdd, m ≠ .zero ∧ instrumentOf m < numInstruments := by
  simp [oneAdd,instrumentOf,WireMsg.header,numInstruments]

/-- Two more calls, which send nothing. -/
theorem wait_settles_silent : ∃ actions final, starts actions = [LiveFeed.threeOrders,[],[]] ∧
    (construct 2 (fun _ => 10000) 3).run actions = some final ∧ final.running = false ∧
    Settled (Normalizer.ready 2 fun _ => 10000) final := by
  have typed : ∀ messages ∈ [LiveFeed.threeOrders,[],[]], ∀ m ∈ messages, m ≠ .zero ∧ instrumentOf m < numInstruments := by
    simpa using LiveFeed.threeOrders_typed
  obtain ⟨actions,final,called,lossless,fair,ran,stopped⟩ := fair_calls 2 (fun _ => 10000) 3 LiveFeed.threeOrders [[],[]]
    (fun messages member m inside => (typed messages member m inside).1) (by simp [LiveFeed.threeOrders])
    (by simp [LiveFeed.threeOrders,kQueueCapacity])
  refine ⟨actions,final,called,ran,stopped,?_⟩
  refine (wait_settles_iff 2 (by decide) _ 3 actions final ?_ ?_ lossless fair ran stopped).mpr ?_
  · rw [called]
    exact fun messages member m inside => (typed messages member m inside).1
  · rw [called]
    exact fun messages member m inside => (typed messages member m inside).2
  · simp [called]

/-- The second call's message stays in its queue. -/
theorem second_call_strands : ∃ actions final, starts actions = [oneAdd,oneAdd] ∧
    (∀ action ∈ actions, Lossless action) ∧ (construct 1 (fun _ => 10001) 1).Along Fair actions ∧
    (construct 1 (fun _ => 10001) 1).run actions = some final ∧ final.running = false ∧
    ¬Settled (Normalizer.ready 1 fun _ => 10001) final := by
  have typed : ∀ messages ∈ [oneAdd,oneAdd], ∀ m ∈ messages, m ≠ .zero := by
    simpa using fun m member => (oneAdd_typed m member).1
  obtain ⟨actions,final,called,lossless,fair,ran,stopped⟩ := fair_calls 1 (fun _ => 10001) 1 oneAdd [oneAdd]
    typed (by simp [oneAdd]) (by simp [oneAdd,kQueueCapacity])
  refine ⟨actions,final,called,lossless,fair,ran,stopped,fun settled => ?_⟩
  have session := session_run actions (session_construct 1 (fun _ => 10001) 1) (called ▸ typed) lossless fair ran
  rw [List.nil_append,called] at session
  have silent := (settled_iff (Nat.le_refl 1) session (by simpa using fun m member => (oneAdd_typed m member).2)
    stopped).mp settled
  simp [oneAdd] at silent

end MarketFeed.LiveSession
