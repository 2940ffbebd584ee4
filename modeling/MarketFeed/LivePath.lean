import MarketFeed.LiveFeed

/-! The path from the publisher to the receiver over a lossless socket: a message is lost
exactly when the receiver breaks out of its loop with datagrams waiting. -/
namespace MarketFeed.LiveFeed
open Packed

def upcoming (f : LiveFeed) : List WireMsg :=
  match f.receiver with
  | .decoding n left offset => decodeFrom f.buf n left offset
  | _ => []

/-- What a step of the publisher does: it moves messages out of `rest`, through the packet
under construction, into datagrams. -/
structure Publishes (f next : LiveFeed) (pending : List WireMsg) (groups : List (List WireMsg))
    (pending' : List WireMsg) : Prop where
  socket : next.socket = f.socket ++ groups.map datagram
  sentDatagrams : next.sentDatagrams = f.sentDatagrams ++ groups.map datagram
  fits : ∀ group ∈ groups, group ≠ [] ∧ Fits group
  holds : next.locals.Holds pending'
  flow : groups.flatten ++ pending' ++ next.rest = pending ++ f.rest
  shorter : next.rest <:+ f.rest
  sent : next.sent + next.rest.length = f.sent + f.rest.length
  ceased : next.publisher ≠ .looping → pending' = [] ∧ next.rest = []
  done : next.publisherDone = true ↔ next.publisher = .ended
  receiver : next.receiver = f.receiver ∧ next.buf = f.buf ∧ next.datagrams = f.datagrams ∧
    next.received = f.received ∧ next.decoded = f.decoded ∧ next.pool = f.pool

section Publisher
variable {f next : LiveFeed} {pending : List WireMsg} (holds : f.locals.Holds pending)
  (typed : ∀ m ∈ f.rest, m ≠ .zero) (ceased : f.publisher ≠ .looping → pending = [] ∧ f.rest = [])
  (done : f.publisherDone = true ↔ f.publisher = .ended)
include holds typed ceased done

theorem publisher_publishes (step : f.publisherStep = some next) :
    ∃ groups pending', Publishes f next pending groups pending' := by
  cases publisherStep_move step with
  | pack m rest looping waiting =>
    have typedFirst := typed m (by rw [waiting]; exact List.mem_cons_self ..)
    clear step
    rcases Publisher.pack_holds holds m typedFirst with ⟨kept,packed⟩ | ⟨nonempty,flushed,packed⟩
    · refine ⟨[],pending ++ [m],?_⟩
      constructor <;> simp_all [send]
      omega
    · refine ⟨[pending],[m],?_⟩
      have fits := holds.fits
      constructor <;> simp_all [send]
      omega
  | flush looping empty =>
    clear step
    rcases List.eq_nil_or_concat pending with rfl | ⟨most,last,rfl⟩
    · have nothing := Publisher.flush_empty holds
      refine ⟨[],[],?_⟩
      constructor <;> simp_all [send]
    · obtain ⟨flushed,cleared⟩ := Publisher.flush_pending holds (by simp)
      refine ⟨[most ++ [last]],[],?_⟩
      have fits := holds.fits
      constructor <;> simp_all [send]
  | finish flushed =>
    clear step
    obtain ⟨rfl,empty⟩ := ceased (by simp [flushed])
    refine ⟨[],[],?_⟩
    constructor <;> simp_all

end Publisher

/-- Where every message of the run is, the socket holding `groups` of them. -/
structure Accounted (messages : List WireMsg) (f : LiveFeed) (groups : List (List WireMsg))
    (pending : List WireMsg) : Prop where
  holds : f.locals.Holds pending
  typed : ∀ m ∈ f.rest, m ≠ .zero
  ceased : f.publisher ≠ .looping → pending = [] ∧ f.rest = []
  done : f.publisherDone = true ↔ f.publisher = .ended
  socket : f.socket = groups.map datagram
  fits : ∀ group ∈ groups, group ≠ [] ∧ Fits group
  whole : f.decoded ++ f.upcoming ++ (groups.flatten ++ (pending ++ f.rest)) = messages
  sent : f.sent + f.rest.length = messages.length
  received : f.received = f.decoded.length
  datagrams : f.sentDatagrams.length = f.datagrams + groups.length
  left : f.receiver = .ended → f.publisherDone = true

theorem accounted_init (messages : List WireMsg) (typed : ∀ m ∈ messages, m ≠ .zero) (n : Nat)
    (reference : Nat → Int64) : Accounted messages (init messages n reference) [] [] where
  holds := Publisher.holds_init
  typed := typed
  ceased looping := absurd rfl looping
  done := by simp [init]
  socket := rfl
  fits := by simp
  whole := by simp [init,upcoming]
  sent := by simp [init]
  received := rfl
  datagrams := rfl
  left := by simp [init]

section Steps
variable {messages : List WireMsg} {f next : LiveFeed} {groups : List (List WireMsg)}
  {pending : List WireMsg} (accounted : Accounted messages f groups pending)
include accounted

theorem accounted_publisher (step : f.publisherStep = some next) :
    ∃ groups pending, Accounted messages next groups pending := by
  obtain ⟨holds,typed,ceased,done,socket,fits,whole,sent,received,datagrams,left⟩ := accounted
  obtain ⟨more,pending',publishes⟩ := publisher_publishes holds typed ceased done step
  obtain ⟨sameReceiver,sameBuf,sameDatagrams,sameReceived,sameDecoded,_⟩ := publishes.receiver
  refine ⟨groups ++ more,pending',publishes.holds,?_,publishes.ceased,publishes.done,?_,?_,?_,?_,?_,?_,?_⟩
  · exact fun m member => typed m (publishes.shorter.subset member)
  · rw [publishes.socket,socket,List.map_append]
  · intro group member
    rcases List.mem_append.mp member with earlier | later
    · exact fits group earlier
    · exact publishes.fits group later
  · have upcoming : next.upcoming = f.upcoming := by simp only [upcoming,sameReceiver,sameBuf]
    have flow := publishes.flow
    rw [List.append_assoc] at flow
    rw [sameDecoded,upcoming,List.flatten_append,List.append_assoc groups.flatten,flow]
    exact whole
  · rw [publishes.sent]
    exact sent
  · rw [sameReceived,sameDecoded]
    exact received
  · rw [publishes.sentDatagrams,sameDatagrams]
    simp only [List.length_append,List.length_map,datagrams]
    omega
  · intro ended
    rw [sameReceiver] at ended
    have already := done.mp (left ended)
    simp [publisherStep,already] at step

theorem accounted_receiver (step : f.receiverStep = some next) :
    ∃ groups, Accounted messages next groups pending := by
  obtain ⟨holds,typed,ceased,done,socket,fits,whole,sent,received,datagrams,left⟩ := accounted
  have group_of_head (d : List UInt8) (rest : List (List UInt8)) (head : f.socket = d :: rest) :
      ∃ group others, groups = group :: others ∧ d = datagram group ∧ rest = others.map datagram := by
    rw [socket] at head
    obtain ⟨group,others,rfl,first,later⟩ := List.map_eq_cons_iff.mp head
    exact ⟨group,others,rfl,first.symm,later.symm⟩
  cases receiverStep_move step with
  | silence receiving empty =>
    simp only [upcoming,receiving] at whole
    exact ⟨groups,holds,typed,ceased,done,socket,fits,whole,sent,received,datagrams,by simp⟩
  | blank d rest receiving head void =>
    obtain ⟨group,others,rfl,rfl,rfl⟩ := group_of_head d rest head
    have filled := length_datagram_pos group
    simp [void] at filled
  | datagram d rest receiving head filled =>
    obtain ⟨group,others,rfl,rfl,rfl⟩ := group_of_head d rest head
    simp only [upcoming,receiving] at whole
    have decodes := decodePacket_datagram group (fits group (List.mem_cons_self ..)).2 f.buf
    refine ⟨others,holds,typed,ceased,done,rfl,?_,?_,sent,received,?_,by simp [take]⟩
    · exact fun group member => fits group (List.mem_cons_of_mem _ member)
    · simp only [upcoming,take]
      rw [decodePacket] at decodes
      rw [decodes]
      simpa using whole
    · simp only [take,datagrams,List.length_cons]
      omega
  | decode n left offset located inside =>
    simp only [upcoming,located] at whole
    refine ⟨groups,holds,typed,ceased,done,socket,fits,?_,sent,?_,datagrams,by simp [decodeOne]⟩
    · rw [decodeFrom,if_pos inside] at whole
      simpa [upcoming,decodeOne,messageAt] using whole
    · simp [decodeOne,received]
  | finish n left offset located finished =>
    simp only [upcoming,located] at whole
    refine ⟨groups,holds,typed,ceased,done,socket,fits,?_,sent,received,datagrams,by simp⟩
    simpa [upcoming,decodeFrom_finished f.buf finished] using whole
  | resume timedOut flag =>
    simp only [upcoming,timedOut] at whole
    exact ⟨groups,holds,typed,ceased,done,socket,fits,whole,sent,received,datagrams,by simp⟩
  | leave timedOut flag =>
    simp only [upcoming,timedOut] at whole
    exact ⟨groups,holds,typed,ceased,done,socket,fits,whole,sent,received,datagrams,fun _ => flag⟩

theorem accounted_pool (pool : Pool) : Accounted messages { f with pool := pool } groups pending := by
  obtain ⟨holds,typed,ceased,done,socket,fits,whole,sent,received,datagrams,left⟩ := accounted
  exact ⟨holds,typed,ceased,done,socket,fits,whole,sent,received,datagrams,left⟩

end Steps

def Lossless : Action → Prop
  | .network _ => False
  | _ => True

theorem mainStep_pool {f next : LiveFeed} (step : f.mainStep = some next) :
    ∃ pool, next = { f with pool := pool } := by
  unfold mainStep at step
  split at step
  next =>
    split at step
    · cases step
      exact ⟨_,rfl⟩
    · cases step
  next =>
    obtain ⟨pool,_,rfl⟩ := Option.map_eq_some_iff.mp step
    exact ⟨pool,rfl⟩

theorem accounted_step {messages : List WireMsg} {f next : LiveFeed} {groups : List (List WireMsg)}
    {pending : List WireMsg} (accounted : Accounted messages f groups pending) (action : Action)
    (lossless : Lossless action) (step : f.step action = some next) :
    ∃ groups pending, Accounted messages next groups pending := by
  cases action with
  | publisher => exact accounted_publisher accounted step
  | receiver =>
    obtain ⟨groups,kept⟩ := accounted_receiver accounted step
    exact ⟨groups,pending,kept⟩
  | worker s =>
    obtain ⟨pool,_,rfl⟩ := Option.map_eq_some_iff.mp step
    exact ⟨groups,pending,accounted_pool accounted pool⟩
  | main =>
    obtain ⟨pool,rfl⟩ := mainStep_pool step
    exact ⟨groups,pending,accounted_pool accounted pool⟩
  | network socket => exact absurd lossless not_false

/-- The receiver takes the publisher's word for the end only with an empty socket: its
load of `publisher_done_` after a timeout finds the flag unset or nothing waiting. -/
def QuietBreak (f : LiveFeed) (action : Action) : Prop :=
  action = .receiver → f.receiver = .timedOut → f.publisherDone = true → f.socket = []

theorem run_ended (actions : List Action) {f final : LiveFeed} (publisher : f.publisher = .ended)
    (receiver : f.receiver = .ended) (lossless : ∀ action ∈ actions, Lossless action)
    (ran : f.run actions = some final) : final.socket = f.socket ∧ f.Along QuietBreak actions := by
  induction actions generalizing f with
  | nil =>
    cases ran
    exact ⟨rfl,trivial⟩
  | cons action rest ih =>
    obtain ⟨next,step,ran⟩ := Option.bind_eq_some_iff.mp ran
    have frame : next.publisher = .ended ∧ next.receiver = .ended ∧ next.socket = f.socket := by
      cases action with
      | publisher => simp [LiveFeed.step,publisherStep,publisher] at step
      | receiver => simp [LiveFeed.step,receiverStep,receiver] at step
      | worker s =>
        obtain ⟨pool,_,rfl⟩ := Option.map_eq_some_iff.mp step
        exact ⟨publisher,receiver,rfl⟩
      | main =>
        obtain ⟨pool,rfl⟩ := mainStep_pool step
        exact ⟨publisher,receiver,rfl⟩
      | network socket => exact absurd (lossless _ (List.mem_cons_self ..)) not_false
    have more := fun x member => lossless x (List.mem_cons_of_mem _ member)
    obtain ⟨same,quiet⟩ := ih frame.1 frame.2.1 more ran
    refine ⟨same.trans frame.2.2,?_,?_⟩
    · intro _ timedOut
      simp [receiver] at timedOut
    · intro other taken
      cases step.symm.trans taken
      exact quiet

theorem step_break {f next : LiveFeed} (action : Action) (lossless : Lossless action)
    (step : f.step action = some next) (going : f.receiver ≠ .ended) (left : next.receiver = .ended) :
    action = .receiver ∧ f.receiver = .timedOut ∧ f.publisherDone = true ∧ next.socket = f.socket := by
  cases action with
  | publisher =>
    cases publisherStep_move step <;> exact absurd left going
  | receiver =>
    cases receiverStep_move step with
    | leave timedOut flag => exact ⟨rfl,timedOut,flag,rfl⟩
    | _ => cases left
  | worker s =>
    obtain ⟨pool,_,rfl⟩ := Option.map_eq_some_iff.mp step
    exact absurd left going
  | main =>
    obtain ⟨pool,rfl⟩ := mainStep_pool step
    exact absurd left going
  | network socket => exact absurd lossless not_false

theorem run_quiet (actions : List Action) {messages : List WireMsg} {f final : LiveFeed}
    {groups : List (List WireMsg)} {pending : List WireMsg}
    (accounted : Accounted messages f groups pending) (going : f.receiver ≠ .ended)
    (lossless : ∀ action ∈ actions, Lossless action) (ran : f.run actions = some final)
    (ended : final.receiver = .ended) : final.socket = [] ↔ f.Along QuietBreak actions := by
  induction actions generalizing f groups pending with
  | nil =>
    cases ran
    exact absurd ended going
  | cons action rest ih =>
    obtain ⟨next,step,onward⟩ := Option.bind_eq_some_iff.mp ran
    have first := lossless action (List.mem_cons_self ..)
    have more := fun x member => lossless x (List.mem_cons_of_mem _ member)
    obtain ⟨groups',pending',kept⟩ := accounted_step accounted action first step
    have unfolded : f.Along QuietBreak (action :: rest) ↔ QuietBreak f action ∧ next.Along QuietBreak rest := by
      simp [Along,step]
    rw [unfolded]
    rcases eq_or_ne next.receiver .ended with left | stays
    · -- this step is the break
      obtain ⟨rfl,timedOut,flag,same⟩ := step_break action first step going left
      have publisher := kept.done.mp (kept.left left)
      obtain ⟨still,quiet⟩ := run_ended rest publisher left more onward
      rw [still,same]
      exact ⟨fun empty => ⟨fun _ _ _ => empty,quiet⟩,fun both => both.1 rfl timedOut flag⟩
    · rw [ih kept stays more onward]
      have silent : QuietBreak f action := by
        rintro rfl timedOut flag
        simp [LiveFeed.step,receiverStep,timedOut,flag] at step
        simp [← step] at stays
      exact ⟨fun quiet => ⟨silent,quiet⟩,fun both => both.2⟩

theorem accounted_run (actions : List Action) {messages : List WireMsg} {f final : LiveFeed}
    {groups : List (List WireMsg)} {pending : List WireMsg}
    (accounted : Accounted messages f groups pending)
    (lossless : ∀ action ∈ actions, Lossless action) (ran : f.run actions = some final) :
    ∃ groups pending, Accounted messages final groups pending := by
  induction actions generalizing f groups pending with
  | nil =>
    cases ran
    exact ⟨groups,pending,accounted⟩
  | cons action rest ih =>
    obtain ⟨next,step,onward⟩ := Option.bind_eq_some_iff.mp ran
    obtain ⟨groups,pending,kept⟩ := accounted_step accounted action (lossless action (List.mem_cons_self ..)) step
    exact ih kept (fun x member => lossless x (List.mem_cons_of_mem _ member)) onward

/-- No step of the publisher that sends a datagram. -/
def Unsent (f : LiveFeed) (action : Action) : Prop :=
  action = .publisher → ∀ next, f.publisherStep = some next → next.socket = f.socket

theorem along_at (ok : LiveFeed → Action → Prop) (actions : List Action) {f : LiveFeed} : f.Along ok actions ↔
    ∀ before action after g, actions = before ++ action :: after → f.run before = some g → ok g action := by
  induction actions generalizing f with
  | nil => simp [Along]
  | cons action rest ih =>
    refine ⟨fun along before chosen after g split ran => ?_,fun each => ⟨each [] action rest f rfl rfl,fun next step => ?_⟩⟩
    · cases before with
      | nil =>
        cases ran
        obtain ⟨rfl,_⟩ := List.cons.inj split
        exact along.1
      | cons first before =>
        obtain ⟨rfl,later⟩ := List.cons.inj split
        obtain ⟨next,step,onward⟩ := Option.bind_eq_some_iff.mp ran
        exact ih.mp (along.2 next step) before chosen after g later onward
    · refine ih.mpr fun before chosen after g split ran => each (action :: before) chosen after g (by rw [split]; rfl) ?_
      rw [run,step]
      exact ran

theorem other_receiver {f next : LiveFeed} (action : Action) (other : action ≠ .receiver)
    (step : f.step action = some next) : next.receiver = f.receiver := by
  cases action with
  | publisher => cases publisherStep_move step <;> rfl
  | receiver => exact absurd rfl other
  | worker s =>
    obtain ⟨pool,_,rfl⟩ := Option.map_eq_some_iff.mp step
    rfl
  | main =>
    obtain ⟨pool,rfl⟩ := mainStep_pool step
    rfl
  | network socket =>
    simp only [LiveFeed.step] at step
    split at step <;> cases step
    rfl

/-- While the receiver does not move, the socket grows by what the publisher sends. -/
theorem window_step {f next : LiveFeed} (action : Action) (other : action ≠ .receiver) (lossless : Lossless action)
    (step : f.step action = some next) :
    ∃ more, next.socket = f.socket ++ more ∧ (more = [] ↔ Unsent f action) := by
  cases action with
  | publisher =>
    obtain ⟨more,grows⟩ : ∃ more, next.socket = f.socket ++ more := by
      cases publisherStep_move step with
      | pack | flush => exact ⟨_,rfl⟩
      | finish => exact ⟨[],(List.append_nil _).symm⟩
    refine ⟨more,grows,?_,?_⟩
    · rintro rfl _ other taken
      cases (show f.publisherStep = some next from step).symm.trans taken
      rw [grows,List.append_nil]
    · intro unsent
      have same := unsent rfl next step
      rwa [grows,List.append_right_eq_self] at same
  | receiver => exact absurd rfl other
  | worker s =>
    obtain ⟨pool,_,rfl⟩ := Option.map_eq_some_iff.mp step
    exact ⟨[],(List.append_nil _).symm,by simp [Unsent]⟩
  | main =>
    obtain ⟨pool,rfl⟩ := mainStep_pool step
    exact ⟨[],(List.append_nil _).symm,by simp [Unsent]⟩
  | network socket => exact absurd lossless not_false

theorem window_socket (window : List Action) {f g : LiveFeed} (waits : .receiver ∉ window)
    (lossless : ∀ action ∈ window, Lossless action) (ran : f.run window = some g) :
    g.receiver = f.receiver ∧ ∃ more, g.socket = f.socket ++ more ∧ (more = [] ↔ f.Along Unsent window) := by
  induction window generalizing f with
  | nil =>
    cases ran
    exact ⟨rfl,[],(List.append_nil _).symm,by simp [Along]⟩
  | cons action rest ih =>
    obtain ⟨next,step,onward⟩ := Option.bind_eq_some_iff.mp ran
    have other : action ≠ .receiver := fun contra => waits (contra ▸ List.mem_cons_self ..)
    obtain ⟨same,later,after,sends⟩ := ih (fun member => waits (List.mem_cons_of_mem _ member))
      (fun x member => lossless x (List.mem_cons_of_mem _ member)) onward
    obtain ⟨now,here,sent⟩ := window_step action other (lossless _ (List.mem_cons_self ..)) step
    refine ⟨same.trans (other_receiver action other step),now ++ later,by rw [after,here,List.append_assoc],?_⟩
    rw [List.append_eq_nil_iff,sent,sends]
    simp [Along,step]

/-- A receiver that stands after a timeout has not moved since. -/
theorem last_timeout (actions : List Action) {f h : LiveFeed} (awake : f.receiver ≠ .timedOut)
    (ran : f.run actions = some h) (timedOut : h.receiver = .timedOut) :
    ∃ before window g, actions = before ++ .receiver :: window ∧ .receiver ∉ window ∧
      f.run (before ++ [.receiver]) = some g ∧ g.receiver = .timedOut ∧ g.run window = some h := by
  induction actions using List.reverseRecOn generalizing h with
  | nil =>
    cases ran
    exact absurd timedOut awake
  | append_singleton actions action ih =>
    have whole := ran
    rw [run_append] at ran
    obtain ⟨middle,before,last⟩ := Option.bind_eq_some_iff.mp ran
    obtain ⟨_,step,rfl⟩ : ∃ next, middle.step action = some next ∧ next = h := by simpa [run] using last
    rcases eq_or_ne action .receiver with rfl | other
    · exact ⟨actions,[],_,by simp,by simp,whole,timedOut,rfl⟩
    · obtain ⟨start,window,g,rfl,waits,first,stands,onward⟩ := ih before ((other_receiver action other step).symm.trans timedOut)
      refine ⟨start,window ++ [action],g,by simp,?_,first,stands,?_⟩
      · simpa [waits] using other.symm
      · rw [run_append,onward]
        exact last

theorem timeout_empty {messages : List WireMsg} {f next : LiveFeed} {groups : List (List WireMsg)}
    {pending : List WireMsg} (accounted : Accounted messages f groups pending) (step : f.step .receiver = some next)
    (timedOut : next.receiver = .timedOut) : next.socket = [] := by
  cases receiverStep_move step with
  | silence receiving empty => exact empty
  | blank d rest receiving head void =>
    rw [accounted.socket] at head
    obtain ⟨group,_,rfl⟩ := List.mem_map.mp (head ▸ List.mem_cons_self (a := d) (l := rest))
    have filled := length_datagram_pos group
    simp [void] at filled
  | _ => cases timedOut

/-- Between a timeout of the receiver and a load of `publisher_done_` after it that finds the
flag set, the publisher sends nothing. -/
def QuietWindows (f : LiveFeed) (actions : List Action) : Prop :=
  ∀ before window after g h, actions = before ++ .receiver :: window ++ .receiver :: after → .receiver ∉ window →
    f.run (before ++ [.receiver]) = some g → g.receiver = .timedOut → g.run window = some h →
    h.publisherDone = true → g.Along Unsent window

/-- Every break is quiet exactly if the window before it is. -/
theorem quiet_windows (actions : List Action) {messages : List WireMsg} {f : LiveFeed}
    {groups : List (List WireMsg)} {pending : List WireMsg} (accounted : Accounted messages f groups pending)
    (awake : f.receiver ≠ .timedOut) (lossless : ∀ action ∈ actions, Lossless action) :
    f.Along QuietBreak actions ↔ f.QuietWindows actions := by
  have opened {before : List Action} {g : LiveFeed} (own : ∀ action ∈ before, Lossless action)
      (ran : f.run (before ++ [.receiver]) = some g) (timedOut : g.receiver = .timedOut) : g.socket = [] := by
    rw [run_append] at ran
    obtain ⟨middle,started,last⟩ := Option.bind_eq_some_iff.mp ran
    obtain ⟨_,step,rfl⟩ : ∃ next, middle.step .receiver = some next ∧ next = g := by simpa [run] using last
    obtain ⟨_,_,kept⟩ := accounted_run before accounted own started
    exact timeout_empty kept step timedOut
  rw [along_at]
  refine ⟨?_,?_⟩
  · rintro quiet before window after g h rfl waits ran timedOut onward flag
    obtain ⟨same,more,grown,unsent⟩ := window_socket window waits (fun x member => lossless x (by simp [member])) onward
    have through : f.run (before ++ .receiver :: window) = some h := by
      rw [List.append_cons,run_append,ran]
      exact onward
    have empty := quiet _ _ after h rfl through rfl (same.trans timedOut) flag
    rw [empty,opened (fun x member => lossless x (by simp [member])) ran timedOut] at grown
    exact unsent.mp grown.symm
  · rintro unsent before _ after h rfl ran rfl timedOut flag
    obtain ⟨start,window,g,rfl,waits,first,stands,onward⟩ := last_timeout before awake ran timedOut
    have sends := unsent start window after g h rfl waits first stands onward flag
    obtain ⟨_,more,grown,none_⟩ := window_socket window waits (fun x member => lossless x (by simp [member])) onward
    rw [grown,none_.mpr sends,opened (fun x member => lossless x (by simp [member])) first stands]
    rfl

theorem received_iff_quiet (messages : List WireMsg) (typed : ∀ m ∈ messages, m ≠ .zero) (n : Nat)
    (reference : Nat → Int64) (actions : List Action) (lossless : ∀ action ∈ actions, Lossless action)
    (final : LiveFeed) (ran : (init messages n reference).run actions = some final)
    (published : final.publisher = .ended) (left : final.receiver = .ended) :
    (final.received = final.sent ∧ final.datagrams = final.sentDatagrams.length ∧
      final.decoded = messages) ↔ (init messages n reference).Along QuietBreak actions := by
  have start := accounted_init messages typed n reference
  rw [← run_quiet actions start (by simp [init]) lossless ran left]
  obtain ⟨groups,pending,accounted⟩ := accounted_run actions start lossless ran
  obtain ⟨rfl,rest⟩ := accounted.ceased (by simp [published])
  have whole := accounted.whole
  simp only [upcoming,left,rest,List.append_nil] at whole
  have sent := accounted.sent
  rw [rest,List.length_nil,← whole,List.length_append] at sent
  refine ⟨?_,?_⟩
  · intro kept
    have none_ := accounted.datagrams
    rw [kept.2.1] at none_
    rw [accounted.socket,List.length_eq_zero_iff.mp (by omega : groups.length = 0)]
    rfl
  · intro empty
    have none_ : groups = [] := by simpa [accounted.socket] using empty
    subst none_
    refine ⟨?_,?_,by simpa using whole⟩
    · rw [accounted.received]
      simpa using sent.symm
    · simp [accounted.datagrams]

/-- When both loops have ended, nothing was lost if and only if every window of the run was
quiet, that is, if and only if every break was. -/
theorem nothing_lost_iff (messages : List WireMsg) (typed : ∀ m ∈ messages, m ≠ .zero) (n : Nat)
    (reference : Nat → Int64) (actions : List Action) (lossless : ∀ action ∈ actions, Lossless action)
    (final : LiveFeed) (ran : (init messages n reference).run actions = some final)
    (published : final.publisher = .ended) (left : final.receiver = .ended) :
    ((final.received = final.sent ∧ final.datagrams = final.sentDatagrams.length ∧
      final.decoded = messages) ↔ (init messages n reference).QuietWindows actions) ∧
    ((init messages n reference).Along QuietBreak actions ↔ (init messages n reference).QuietWindows actions) := by
  have windows := quiet_windows actions (accounted_init messages typed n reference) (by simp [init]) lossless
  rw [received_iff_quiet messages typed n reference actions lossless final ran published left]
  exact ⟨windows,windows⟩

def threeOrders : List WireMsg :=
  [.add ⟨⟨0,0⟩,1,.buy,10000,5⟩,.add ⟨⟨1,0⟩,2,.sell,10001,7⟩,.exec ⟨⟨0,0⟩,1,2⟩]

theorem threeOrders_typed : ∀ m ∈ threeOrders, m ≠ .zero ∧ instrumentOf m < numInstruments := by
  simp [threeOrders,instrumentOf,WireMsg.header,numInstruments]

/-- The receiver times out twice while the publisher packs, and decodes while it ends. -/
def interleaved : List Action :=
  [.receiver,.publisher,.receiver,.publisher,.receiver,.publisher,.receiver,.publisher,.receiver,.receiver,.publisher,
    .receiver,.receiver,.receiver]

theorem nothing_lost_interleaved : ∃ final : LiveFeed,
    (init threeOrders 2 fun _ => 10000).run (interleaved ++ [.receiver,.receiver]) = some final ∧ final.received = 3 ∧
      (init threeOrders 2 fun _ => 10000).QuietWindows (interleaved ++ [.receiver,.receiver]) ∧
      (init threeOrders 2 fun _ => 10000).Along QuietBreak (interleaved ++ [.receiver,.receiver]) := by
  have ended : ((init threeOrders 2 fun _ => 10000).run (interleaved ++ [.receiver,.receiver])).map (fun f =>
      (f.publisher,f.receiver,f.received,f.sent,f.datagrams)) = some (.ended,.ended,3,3,1) := by
    decide +kernel
  have carried : ((init threeOrders 2 fun _ => 10000).run (interleaved ++ [.receiver,.receiver])).map (fun f =>
      (f.sentDatagrams.length,f.decoded)) = some (1,threeOrders) := by
    decide +kernel
  obtain ⟨final,ran,ended⟩ := Option.map_eq_some_iff.mp ended
  rw [ran,Option.map_some,Option.some.injEq] at carried
  simp only [Prod.mk.injEq] at ended carried
  obtain ⟨published,left,received,sent,datagrams⟩ := ended
  obtain ⟨kept,same⟩ := nothing_lost_iff threeOrders (fun m member => (threeOrders_typed m member).1) 2 _ _
    (by simp [interleaved,Lossless]) final ran published left
  have windows := kept.mp ⟨received.trans sent.symm,datagrams.trans carried.1.symm,carried.2⟩
  exact ⟨final,ran,received,windows,same.mpr windows⟩

/-- The timeout falls before the only flush and the load after it. -/
theorem break_loses_datagram : ∃ final : LiveFeed,
    (init [.add ⟨⟨0,0⟩,1,.buy,10000,1⟩] 1 (fun _ => 0)).run
      [.receiver,.publisher,.publisher,.publisher,.receiver] = some final ∧
    final.publisher = .ended ∧ final.receiver = .ended ∧ final.sent = 1 ∧ final.received = 0 :=
  ⟨_,rfl,rfl,rfl,rfl,rfl⟩

end MarketFeed.LiveFeed
