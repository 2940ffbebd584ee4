import MarketFeed.LiveArrivals
import MarketFeed.LiveReuse
import MarketFeed.Library.GrowableArray

/-! `latency_ns_` of one `LiveFeed`: the constructor reserves room for `expected_msgs_` samples,
`start` checks the messages of one call against it, and `receive_loop` pushes a sample for each
message of every call. -/
namespace MarketFeed

namespace LiveFeed

/-- The message that the receiver's next step decodes. -/
def decodes (f : LiveFeed) : Option WireMsg :=
  match f.receiver with
  | .decoding n left offset => if 0 < left ∧ offset < n then some (f.messageAt offset) else none
  | _ => none

theorem receiver_received {f next : LiveFeed} (step : f.receiverStep = some next) :
    next.received = f.received + f.decodes.toList.length := by
  cases receiverStep_move step with
  | silence receiving | blank d rest receiving | datagram d rest receiving => simp [decodes,receiving,take]
  | decode n left offset located inside => simp [decodes,located,inside,decodeOne,messageAt]
  | finish n left offset located finished => simp [decodes,located,finished]
  | resume timedOut | leave timedOut => simp [decodes,timedOut]

end LiveFeed

/-- A feed with its clock: `recvNs` is `recv_ns` of the datagram in the receiver's buffer. -/
structure LatencyFeed where
  session : LiveSession
  latencyNs : GrowableArray UInt64
  recvNs : UInt64 := 0

namespace LatencyFeed

def construct (numShards : Nat) (reference : Nat → Int64) (expectedMsgs : Nat) : LatencyFeed where
  session := LiveSession.construct numShards reference expectedMsgs
  latencyNs := GrowableArray.empty.reserve expectedMsgs

/-- A step of the object and what `steady_clock::now()` is in it. -/
structure Tick where
  action : LiveSession.Action
  now : UInt64

def actions (ticks : List Tick) : List LiveSession.Action := ticks.map Tick.action

section Growth
variable (growth : Growth)

/-- The receiver's step: a datagram is stamped on arrival, a message sampled before it is dispatched. -/
def receive (t : LatencyFeed) (now : UInt64) (next : LiveSession) : LatencyFeed where
  session := next
  latencyNs := match t.session.feed.decodes with
    | some m => t.latencyNs.push growth (t.recvNs - m.header.timestampNs)
    | none => t.latencyNs
  recvNs := if t.session.feed.arrival.isSome then now else t.recvNs

def step (t : LatencyFeed) (tick : Tick) : Option LatencyFeed :=
  (t.session.step tick.action).map fun next =>
    match tick.action with
    | .feed .receiver => t.receive growth tick.now next
    | _ => { t with session := next }

def run (t : LatencyFeed) : List Tick → Option LatencyFeed
  | [] => some t
  | tick :: rest => (t.step growth tick).bind fun next => next.run rest

/-- No more samples than were reserved for, in the storage that the constructor reserved. -/
def InReserve (expectedMsgs : Nat) (t : LatencyFeed) : Prop :=
  t.latencyNs.items.length ≤ expectedMsgs ∧
    t.latencyNs.storage = (GrowableArray.empty.reserve expectedMsgs : GrowableArray UInt64).storage

/-- In every state that the run goes through. -/
def NeverOutgrown (expectedMsgs : Nat) (t : LatencyFeed) (ticks : List Tick) : Prop :=
  ∀ before, before <+: ticks → ∀ reached, t.run growth before = some reached → reached.InReserve expectedMsgs

variable {growth}

theorem session_step {t next : LatencyFeed} {tick : Tick} (step : t.step growth tick = some next) :
    t.session.step tick.action = some next.session := by
  obtain ⟨session,stepped,rfl⟩ := Option.map_eq_some_iff.mp step
  rw [stepped]
  split <;> rfl

theorem session_run {t final : LatencyFeed} (ticks : List Tick) (ran : t.run growth ticks = some final) :
    t.session.run (actions ticks) = some final.session := by
  induction ticks generalizing t with
  | nil =>
    cases ran
    rfl
  | cons tick rest ih =>
    obtain ⟨next,step,onward⟩ := Option.bind_eq_some_iff.mp ran
    exact Option.bind_eq_some_iff.mpr ⟨next.session,session_step step,ih onward⟩

/-- Taking samples stops no run. -/
theorem run_of_session {t : LatencyFeed} {last : LiveSession} (ticks : List Tick)
    (ran : t.session.run (actions ticks) = some last) :
    ∃ final, t.run growth ticks = some final ∧ final.session = last := by
  induction ticks generalizing t with
  | nil =>
    cases ran
    exact ⟨t,rfl,rfl⟩
  | cons tick rest ih =>
    obtain ⟨session,stepped,onward⟩ := Option.bind_eq_some_iff.mp ran
    obtain ⟨next,step⟩ : ∃ next, t.step growth tick = some next := ⟨_,by rw [LatencyFeed.step,stepped]; rfl⟩
    have same := (session_step step).symm.trans stepped
    cases same
    obtain ⟨final,run,reached⟩ := ih onward
    exact ⟨final,Option.bind_eq_some_iff.mpr ⟨next,step,run⟩,reached⟩

/-- One sample for each message received, each pushed on what the constructor reserved. -/
def Sampled (growth : Growth) (reserved : GrowableArray UInt64) (t : LatencyFeed) : Prop :=
  ∃ samples : List UInt64, t.latencyNs = samples.foldl (GrowableArray.push growth) reserved ∧
    samples.length = t.session.feed.received

theorem sampled_step {reserved : GrowableArray UInt64} {t next : LatencyFeed} (sampled : Sampled growth reserved t)
    (tick : Tick) (step : t.step growth tick = some next) : Sampled growth reserved next := by
  obtain ⟨samples,pushed,counted⟩ := sampled
  obtain ⟨session,stepped,rfl⟩ := Option.map_eq_some_iff.mp step
  obtain ⟨action,now⟩ := tick
  cases action with
  | start messages =>
    obtain ⟨_,_,rfl⟩ := LiveSession.start_started stepped
    exact ⟨samples,pushed,counted⟩
  | feed action =>
    rcases LiveSession.step_feed action stepped with ⟨rfl,waits⟩ | ⟨_,feed,fed,rfl⟩
    · have same : session.feed.received = t.session.feed.received := by
        cases (LiveSession.waitStep_waits waits).2 <;> rfl
      exact ⟨samples,pushed,counted.trans same.symm⟩
    · by_cases receives : action = .receiver
      · subst receives
        have received := LiveFeed.receiver_received fed
        simp only [Sampled,receive]
        cases decoded : t.session.feed.decodes with
        | none =>
          rw [decoded] at received
          exact ⟨samples,pushed,counted.trans received.symm⟩
        | some m =>
          rw [decoded] at received
          refine ⟨samples ++ [t.recvNs - m.header.timestampNs],by simp [pushed],?_⟩
          simpa [counted] using received.symm
      · have same := (LiveFeed.other_counts action receives fed).1
        cases action with
        | receiver => exact absurd rfl receives
        | publisher | worker | main | network => exact ⟨samples,pushed,counted.trans same.symm⟩

theorem sampled_run {reserved : GrowableArray UInt64} (ticks : List Tick) {t final : LatencyFeed}
    (sampled : Sampled growth reserved t) (ran : t.run growth ticks = some final) : Sampled growth reserved final := by
  induction ticks generalizing t with
  | nil =>
    cases ran
    exact sampled
  | cons tick rest ih =>
    obtain ⟨next,step,onward⟩ := Option.bind_eq_some_iff.mp ran
    exact ih (sampled_step sampled tick step) onward

theorem inReserve_received {expectedMsgs : Nat} {t : LatencyFeed}
    (sampled : Sampled growth (GrowableArray.empty.reserve expectedMsgs) t) :
    t.InReserve expectedMsgs ↔ t.session.feed.received ≤ expectedMsgs := by
  obtain ⟨samples,pushed,counted⟩ := sampled
  have items := GrowableArray.items_pushes growth samples (GrowableArray.empty.reserve expectedMsgs)
  have stays := GrowableArray.storage_pushes_iff growth samples (GrowableArray.empty.reserve expectedMsgs)
  have capacity : (GrowableArray.empty.reserve expectedMsgs : GrowableArray UInt64).capacity = expectedMsgs := by
    rw [GrowableArray.capacity_reserve]
    exact Nat.zero_max expectedMsgs
  rw [GrowableArray.items_reserve] at items stays
  simp only [GrowableArray.empty,List.nil_append,List.length_nil,Nat.zero_add] at items stays capacity
  rw [capacity] at stays
  rw [InReserve,pushed,← counted]
  simp only [GrowableArray.empty,items,stays,and_self]

end Growth

section Runs
variable {growth : Growth} {n : Nat} {reference : Nat → Int64} {expectedMsgs : Nat} {ticks : List Tick}
  {final : LatencyFeed} (ran : (construct n reference expectedMsgs).run growth ticks = some final)
include ran

theorem construct_sampled : Sampled growth (GrowableArray.empty.reserve expectedMsgs) final :=
  sampled_run ticks ⟨[],rfl,rfl⟩ ran

theorem construct_counts (typed : ∀ messages ∈ LiveSession.starts (actions ticks), ∀ m ∈ messages, m ≠ .zero) :
    final.session.feed.received + final.session.feed.upcoming.length =
      (construct n reference expectedMsgs).session.announced (actions ticks) := by
  have counts := LiveSession.counts_run (actions ticks) (LiveSession.counts_construct n reference expectedMsgs)
    typed (session_run ticks ran)
  rw [counts.counted,Nat.zero_add]
  rfl

end Runs

/-- The receiver is not among the messages of a datagram. -/
def Between (t : LatencyFeed) : Prop := ∀ n left offset, t.session.feed.receiver ≠ .decoding n left offset

theorem Between.upcoming {t : LatencyFeed} (between : t.Between) : t.session.feed.upcoming = [] := by
  unfold LiveFeed.upcoming
  split
  next n left offset located => exact absurd located (between n left offset)
  next => rfl

/-- Over any calls and any datagrams the samples stay in the storage reserved for them if the
datagrams announce no more than `expected_msgs_` messages in all, and once the receiver is through
with them only then. -/
theorem never_outgrown_iff (growth : Growth) (n : Nat) (reference : Nat → Int64) (expectedMsgs : Nat)
    (ticks : List Tick) (typed : ∀ messages ∈ LiveSession.starts (actions ticks), ∀ m ∈ messages, m ≠ .zero)
    (final : LatencyFeed) (ran : (construct n reference expectedMsgs).run growth ticks = some final) :
    ((construct n reference expectedMsgs).session.announced (actions ticks) ≤ expectedMsgs →
      NeverOutgrown growth expectedMsgs (construct n reference expectedMsgs) ticks) ∧
    (final.Between → (NeverOutgrown growth expectedMsgs (construct n reference expectedMsgs) ticks ↔
      (construct n reference expectedMsgs).session.announced (actions ticks) ≤ expectedMsgs)) := by
  have enough (few : (construct n reference expectedMsgs).session.announced (actions ticks) ≤ expectedMsgs) :
      NeverOutgrown growth expectedMsgs (construct n reference expectedMsgs) ticks := by
    rintro before ⟨after,rfl⟩ reached partway
    have split : actions (before ++ after) = actions before ++ actions after := List.map_append
    rw [split,LiveSession.announced_append _ _ (session_run before partway)] at few
    have counted := construct_counts partway fun messages called => typed messages (by
      rw [split,LiveSession.starts,List.filterMap_append]
      exact List.mem_append_left _ called)
    exact (inReserve_received (construct_sampled partway)).mpr (by omega)
  refine ⟨enough,fun between => ⟨fun never => ?_,enough⟩⟩
  have kept := (inReserve_received (construct_sampled ran)).mp (never ticks List.prefix_rfl final ran)
  have counted := construct_counts ran typed
  rw [between.upcoming,List.length_nil] at counted
  omega

section Calls
variable {growth : Growth} {n : Nat} {reference : Nat → Int64} {expectedMsgs : Nat} {ticks : List Tick}
  (typed : ∀ messages ∈ LiveSession.starts (actions ticks), ∀ m ∈ messages, m ≠ .zero)
  (lossless : ∀ action ∈ actions ticks, LiveSession.Lossless action) {final : LatencyFeed}
  (stops : (construct n reference expectedMsgs).session.Along LiveSession.Stops (actions ticks))
  (ran : (construct n reference expectedMsgs).run growth ticks = some final) (stopped : final.session.running = false)
include typed lossless stops ran stopped

/-- At the return of the last of some lossless calls the messages of all are received. -/
theorem calls_received : final.session.feed.receiver = .ended ∧
    final.session.feed.received = (LiveSession.starts (actions ticks)).flatten.length := by
  have session := session_run ticks ran
  have streams := LiveSession.streams_run (LiveSession.session_construct n reference expectedMsgs).streams typed
    ⟨actions ticks,rfl,lossless,stops,session⟩
  obtain ⟨publisher,receiver⟩ := streams.idle stopped
  obtain ⟨_,_,received,_⟩ := LiveFeed.flows_complete streams.flows publisher receiver
  exact ⟨receiver,received⟩

/-- And there is a sample for each. -/
theorem calls_sampled :
    final.latencyNs.items.length = (LiveSession.starts (actions ticks)).flatten.length := by
  obtain ⟨_,received⟩ := calls_received typed lossless stops ran stopped
  obtain ⟨samples,pushed,counted⟩ := construct_sampled ran
  rw [pushed,GrowableArray.items_pushes,GrowableArray.items_reserve]
  exact counted.trans received

/-- The headers of the datagrams count each message once. -/
theorem calls_announced : (construct n reference expectedMsgs).session.announced (actions ticks) =
    (LiveSession.starts (actions ticks)).flatten.length := by
  obtain ⟨receiver,received⟩ := calls_received typed lossless stops ran stopped
  have counted := construct_counts ran typed
  have nothing : final.session.feed.upcoming = [] := by simp [LiveFeed.upcoming,receiver]
  rw [nothing,List.length_nil,Nat.add_zero] at counted
  exact counted.symm.trans received

/-- Without loss or repetition what counts is the sum over the calls, of which `start` checks each alone. -/
theorem calls_inReserve_iff :
    final.InReserve expectedMsgs ↔ (LiveSession.starts (actions ticks)).flatten.length ≤ expectedMsgs := by
  have sampled := construct_sampled ran
  rw [inReserve_received sampled,← calls_sampled typed lossless stops ran stopped]
  obtain ⟨samples,pushed,counted⟩ := sampled
  rw [pushed,GrowableArray.items_pushes,GrowableArray.items_reserve,← counted]
  exact Iff.rfl

end Calls

theorem exists_ticks (acts : List LiveSession.Action) : ∃ ticks : List Tick, actions ticks = acts :=
  ⟨acts.map fun action => ⟨action,7⟩,by simp [actions,Function.comp_def]⟩

/-- Calls of three messages, of one and of none on a feed for four. -/
theorem never_outgrown_calls : ∃ ticks final,
    LiveSession.starts (actions ticks) = [LiveFeed.threeOrders,LiveSession.oneAdd,[]] ∧
    (construct 2 (fun _ => 10000) 4).run .doubling ticks = some final ∧ final.session.running = false ∧
    NeverOutgrown .doubling 4 (construct 2 (fun _ => 10000) 4) ticks := by
  have typed : ∀ messages ∈ [LiveFeed.threeOrders,LiveSession.oneAdd,[]], ∀ m ∈ messages, m ≠ .zero := by
    simpa using ⟨fun m member => (LiveFeed.threeOrders_typed m member).1,fun m member => (LiveSession.oneAdd_typed m member).1⟩
  obtain ⟨last,⟨acts,called,lossless,stops,session⟩,stopped⟩ := LiveSession.reaches_calls 2 (fun _ => 10000) 4
    LiveFeed.threeOrders [LiveSession.oneAdd,[]] typed (by simp [LiveFeed.threeOrders,LiveSession.oneAdd])
  obtain ⟨ticks,rfl⟩ := exists_ticks acts
  obtain ⟨final,ran,rfl⟩ : ∃ final, (construct 2 (fun _ => 10000) 4).run .doubling ticks = some final ∧
      final.session = last := run_of_session ticks session
  rw [← called] at typed
  refine ⟨ticks,final,called,ran,stopped,(never_outgrown_iff .doubling 2 _ 4 ticks typed final ran).1 ?_⟩
  rw [calls_announced typed lossless stops ran stopped,called]
  simp [LiveFeed.threeOrders,LiveSession.oneAdd]

/-- Two calls of one message each pass the check of a feed for one message. -/
theorem second_call_outgrows : ∃ ticks final,
    LiveSession.starts (actions ticks) = [LiveSession.oneAdd,LiveSession.oneAdd] ∧
    (∀ action ∈ actions ticks, LiveSession.Lossless action) ∧
    (construct 1 (fun _ => 10001) 1).run .doubling ticks = some final ∧ final.session.running = false ∧
    ¬final.InReserve 1 := by
  have typed : ∀ messages ∈ [LiveSession.oneAdd,LiveSession.oneAdd], ∀ m ∈ messages, m ≠ .zero := by
    simpa using fun m member => (LiveSession.oneAdd_typed m member).1
  obtain ⟨last,⟨acts,called,lossless,stops,session⟩,stopped⟩ := LiveSession.reaches_calls 1 (fun _ => 10001) 1
    LiveSession.oneAdd [LiveSession.oneAdd] typed (by simp [LiveSession.oneAdd])
  obtain ⟨ticks,rfl⟩ := exists_ticks acts
  obtain ⟨final,ran,rfl⟩ : ∃ final, (construct 1 (fun _ => 10001) 1).run .doubling ticks = some final ∧
      final.session = last := run_of_session ticks session
  refine ⟨ticks,final,called,lossless,ran,stopped,?_⟩
  rw [calls_inReserve_iff (by rwa [called]) lossless stops ran stopped,called]
  simp [LiveSession.oneAdd]

end LatencyFeed
end MarketFeed
