import MarketFeed.LiveLedger

/-! The feed with `++received_` apart from the `dispatch` before it: a worker may apply a message
that is not counted yet. The session's own count moves with `dispatch`. -/
namespace MarketFeed

/-- `received_` beside the session; `uncounted` says that the receiver stands between `dispatch`
and `++received_`. -/
structure CountingFeed where
  session : LiveSession
  received : Nat := 0
  uncounted : Bool := false

namespace CountingFeed

def construct (numShards : Nat) (reference : Nat → Int64) (expectedMsgs : Nat) : CountingFeed where
  session := LiveSession.construct numShards reference expectedMsgs

/-- The receiver's next step dispatches a message. -/
def dispatches (f : LiveFeed) : Bool :=
  match f.receiver with
  | .decoding n left offset => decide (0 < left ∧ offset < n)
  | _ => false

def step (t : CountingFeed) (action : LiveSession.Action) : Option CountingFeed :=
  match action with
  | .feed .receiver =>
    if t.uncounted then some { t with received := t.received + 1, uncounted := false }
    else (t.session.step (.feed .receiver)).map fun next =>
      { t with session := next, uncounted := dispatches t.session.feed }
  | action => (t.session.step action).map fun next => { t with session := next }

def run (t : CountingFeed) : List LiveSession.Action → Option CountingFeed
  | [] => some t
  | action :: rest => (t.step action).bind fun next => next.run rest

/-- What a step can be: the receiver's count, or a step of the session. -/
inductive Move (t : CountingFeed) : LiveSession.Action → CountingFeed → Prop
  | count (owing : t.uncounted = true) :
      Move t (.feed .receiver) { t with received := t.received + 1, uncounted := false }
  | receive (next) (even : t.uncounted = false) (stepped : t.session.step (.feed .receiver) = some next) :
      Move t (.feed .receiver) { t with session := next, uncounted := dispatches t.session.feed }
  | other (action next) (apart : action ≠ .feed .receiver) (stepped : t.session.step action = some next) :
      Move t action { t with session := next }

theorem step_move {t next : CountingFeed} {action : LiveSession.Action} (step : t.step action = some next) :
    Move t action next := by
  unfold CountingFeed.step at step
  split at step
  next =>
    split at step
    next owing =>
      cases step
      exact .count owing
    next even =>
      obtain ⟨session,stepped,rfl⟩ := Option.map_eq_some_iff.mp step
      exact .receive session (by simpa using even) stepped
  next apart =>
    obtain ⟨session,stepped,rfl⟩ := Option.map_eq_some_iff.mp step
    exact .other action session (by simpa using apart) stepped

/-- The session has counted the message that the receiver has not. -/
structure Owed (t : CountingFeed) : Prop where
  joins : LiveSession.Joins t.session
  counted : t.session.feed.received = t.received + t.uncounted.toNat
  decoding : t.uncounted = true → ∃ n left offset, t.session.feed.receiver = .decoding n left offset

theorem owed_construct (numShards : Nat) (reference : Nat → Int64) (expectedMsgs : Nat) :
    Owed (construct numShards reference expectedMsgs) :=
  ⟨(LiveSession.session_construct numShards reference expectedMsgs).streams.joins,rfl,by simp [construct]⟩

/-- A receiver that has returned has counted all that it dispatched. -/
theorem Owed.even {t : CountingFeed} (owed : Owed t) (ended : t.session.feed.receiver = .ended) :
    t.uncounted = false := by
  by_contra owing
  obtain ⟨n,left,offset,located⟩ := owed.decoding (by simpa using owing)
  simp [ended] at located

theorem receiver_dispatches {f next : LiveFeed} (step : f.receiverStep = some next) :
    next.received = f.received + (dispatches f).toNat ∧
      (dispatches f = true → ∃ n left offset, next.receiver = .decoding n left offset) := by
  cases LiveFeed.receiverStep_move step with
  | decode n left offset located inside =>
    have dispatching : dispatches f = true := by simp [dispatches,located,inside]
    exact ⟨by simp [LiveFeed.decodeOne,dispatching],fun _ => ⟨_,_,_,rfl⟩⟩
  | finish n left offset located finished =>
    have through : dispatches f = false := by simpa [dispatches,located] using finished
    simp [through]
  | silence idle | blank _ _ idle | datagram _ _ idle | resume idle | leave idle =>
    simp [dispatches,idle,LiveFeed.take]

section Steps
variable {t next : CountingFeed} (owed : Owed t)
include owed

theorem owed_other {session : LiveSession} (action : LiveSession.Action) (apart : action ≠ .feed .receiver)
    (stepped : t.session.step action = some session) : Owed { t with session := session } := by
  have joins := LiveSession.joins_step owed.joins action stepped
  cases action with
  | start messages =>
    obtain ⟨stopped,_,rfl⟩ := LiveSession.start_started stepped
    have even := owed.even (owed.joins.idle stopped).2
    exact ⟨joins,owed.counted,by simp [even]⟩
  | feed action =>
    rcases LiveSession.step_feed action stepped with ⟨rfl,waits⟩ | ⟨_,feed,fed,rfl⟩
    · cases (LiveSession.waitStep_waits waits).2 <;> exact ⟨joins,owed.counted,owed.decoding⟩
    · have other : action ≠ .receiver := fun same => apart (by rw [same])
      have received := (LiveFeed.other_counts action other fed).1
      have receiver := LiveFeed.other_receiver action other fed
      exact ⟨joins,received.trans owed.counted,fun owing => by rw [receiver]; exact owed.decoding owing⟩

theorem owed_step (action : LiveSession.Action) (step : t.step action = some next) : Owed next := by
  cases step_move step with
  | count owing =>
    have counted := owed.counted
    rw [owing] at counted
    exact ⟨owed.joins,counted,by simp⟩
  | receive session even stepped =>
    have joins := LiveSession.joins_step owed.joins _ stepped
    obtain ⟨feed,fed,rfl⟩ := Option.map_eq_some_iff.mp stepped
    obtain ⟨received,decoding⟩ := receiver_dispatches fed
    have counted := owed.counted
    rw [even] at counted
    exact ⟨joins,received.trans (by rw [counted]; rfl),decoding⟩
  | other action session apart stepped => exact owed_other owed action apart stepped

end Steps

/-- The counting steps left out, a run is one of the session with the same calls. -/
theorem run_session (actions : List LiveSession.Action) {t final : CountingFeed} (owed : Owed t)
    (ran : t.run actions = some final) : Owed final ∧ ∃ steps,
      LiveSession.starts steps = LiveSession.starts actions ∧ t.session.run steps = some final.session := by
  induction actions generalizing t with
  | nil =>
    cases ran
    exact ⟨owed,[],rfl,rfl⟩
  | cons action rest ih =>
    obtain ⟨next,step,onward⟩ := Option.bind_eq_some_iff.mp ran
    obtain ⟨reached,steps,called,followed⟩ := ih (owed_step owed action step) onward
    refine ⟨reached,?_⟩
    cases step_move step with
    | count => exact ⟨steps,by simp [LiveSession.starts_cons,LiveSession.startOf,called],followed⟩
    | receive session even stepped =>
      refine ⟨.feed .receiver :: steps,by simp [LiveSession.starts_cons,called],?_⟩
      rw [LiveSession.run,stepped]
      exact followed
    | other action session apart stepped =>
      refine ⟨action :: steps,by simp [LiveSession.starts_cons,called],?_⟩
      rw [LiveSession.run,stepped]
      exact followed

/-- Each run of a session is one here, in which the receiver counts at once what it dispatches. -/
theorem session_run (steps : List LiveSession.Action) {t : CountingFeed} {final : LiveSession}
    (even : t.uncounted = false) (ran : t.session.run steps = some final) : ∃ actions reached,
      LiveSession.starts actions = LiveSession.starts steps ∧ t.run actions = some reached ∧
      reached.session = final ∧ reached.uncounted = false := by
  induction steps generalizing t with
  | nil =>
    cases ran
    exact ⟨[],t,rfl,rfl,rfl,even⟩
  | cons action rest ih =>
    obtain ⟨session,stepped,onward⟩ := Option.bind_eq_some_iff.mp ran
    by_cases receives : action = .feed .receiver
    · subst receives
      have taken : t.step (.feed .receiver) = some ⟨session,t.received,dispatches t.session.feed⟩ := by
        simp [step,even,stepped]
      cases dispatching : dispatches t.session.feed with
      | false =>
        obtain ⟨actions,reached,called,followed,same,counted⟩ := @ih ⟨session,t.received,false⟩ rfl onward
        refine ⟨.feed .receiver :: actions,reached,by simp [LiveSession.starts_cons,called],?_,same,counted⟩
        rw [run,taken,dispatching]
        exact followed
      | true =>
        obtain ⟨actions,reached,called,followed,same,counted⟩ := @ih ⟨session,t.received + 1,false⟩ rfl onward
        refine ⟨.feed .receiver :: .feed .receiver :: actions,reached,?_,?_,same,counted⟩
        · simp [LiveSession.starts_cons,LiveSession.startOf,called]
        · rw [run,taken,dispatching]
          exact followed
    · have taken : t.step action = some { t with session := session } := by
        simp [step,stepped]
      obtain ⟨actions,reached,called,followed,same,counted⟩ := @ih { t with session := session } even onward
      refine ⟨action :: actions,reached,by simp [LiveSession.starts_cons,called],?_,same,counted⟩
      rw [run,taken]
      exact followed

section Runs
variable {n : Nat} (positive : 1 ≤ n) {reference : Nat → Int64} {expectedMsgs : Nat} {actions : List LiveSession.Action}
  (sends : ∀ messages ∈ LiveSession.starts actions, ∀ m ∈ messages, m ≠ .zero ∧ instrumentOf m < numInstruments)
  {final : CountingFeed} (ran : (construct n reference expectedMsgs).run actions = some final)
include positive sends ran

/-- Whatever the network and the schedule do, each message counted, and the one the receiver is
about to count, is at any moment applied, in a worker's hands, queued, or dropped; once the wait of
a first call is over, applied or dropped. -/
theorem received_accounted :
    final.received + final.uncounted.toNat = ((List.range n).map fun k => (final.session.feed.pool.shards k).processed +
      (final.session.feed.pool.workers k).inFlight.length + (final.session.feed.pool.shards k).queue.length +
      (final.session.feed.pool.shards k).droppedFull).sum ∧
    ((LiveSession.starts actions).length ≤ 1 → final.session.drained = true → final.received =
      ((List.range n).map fun k => (final.session.feed.pool.shards k).processed +
        (final.session.feed.pool.shards k).droppedFull).sum) := by
  obtain ⟨owed,steps,called,followed⟩ := run_session actions (owed_construct n reference expectedMsgs) ran
  rw [← called] at sends ⊢
  obtain ⟨held,applied⟩ := LiveSession.dispatched_accounted positive sends followed
  refine ⟨owed.counted.symm.trans held,fun few drained => ?_⟩
  obtain ⟨stopped,total⟩ := applied few drained
  have counted := owed.counted
  rw [owed.even (owed.joins.idle stopped).2] at counted
  exact counted.symm.trans total

end Runs

/-- A call whose receiver has just dispatched the second of three messages. -/
def dispatchedTwo : List LiveSession.Action :=
  [.start LiveFeed.threeOrders,.feed .publisher,.feed .publisher,.feed .publisher,.feed .publisher,.feed .receiver,
    .feed .receiver,.feed .receiver,.feed .receiver]

theorem received_accounted_three : ∃ dispatching after final,
    (construct 2 (fun _ => 10000) 3).run dispatchedTwo = some dispatching ∧ dispatching.received = 1 ∧
    ((List.range 2).map fun k => (dispatching.session.feed.pool.shards k).processed +
      (dispatching.session.feed.pool.workers k).inFlight.length + (dispatching.session.feed.pool.shards k).queue.length +
      (dispatching.session.feed.pool.shards k).droppedFull).sum = 2 ∧
    LiveSession.starts after = [LiveFeed.threeOrders] ∧ (construct 2 (fun _ => 10000) 3).run after = some final ∧
    final.session.running = false ∧
    final.received = ((List.range 2).map fun k => (final.session.feed.pool.shards k).processed +
      (final.session.feed.pool.shards k).droppedFull).sum := by
  have typed := LiveFeed.threeOrders_typed
  have positive : 1 ≤ 2 := by decide
  have owing : ((construct 2 (fun _ => 10000) 3).run dispatchedTwo).map (fun t => (t.received,t.uncounted)) =
      some (1,true) := by decide +kernel
  obtain ⟨dispatching,ran,owing⟩ := Option.map_eq_some_iff.mp owing
  rw [Prod.mk.injEq] at owing
  obtain ⟨received,uncounted⟩ := owing
  have held := (received_accounted positive (by simpa [dispatchedTwo,LiveSession.starts,LiveSession.startOf] using typed)
    ran).1
  rw [received,uncounted] at held
  obtain ⟨session,⟨steps,called,_,_,followed⟩,stopped,drained,_⟩ := LiveSession.reaches_first 2 (fun _ => 10000) 3
    LiveFeed.threeOrders (fun m member => (typed m member).1) (by decide)
  obtain ⟨after,final,same,onward,rfl,_⟩ := session_run (t := construct 2 (fun _ => 10000) 3) steps rfl followed
  rw [called] at same
  have applied := (received_accounted positive (by rw [same]; simpa using typed) onward).2 (by simp [same]) drained
  exact ⟨dispatching,after,final,ran,received,held.symm,same,onward,stopped,applied⟩

end CountingFeed
end MarketFeed
