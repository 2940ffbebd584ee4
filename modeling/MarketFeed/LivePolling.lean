import MarketFeed.LatencyBuffer

/-! The count that may be polled while a feed runs. The relaxed load of `received_snapshot_` is taken
to see the last store. -/
namespace MarketFeed

/-- `received_snapshot_` beside the session: `receive_loop` stores the count when it is through
with a datagram, and `received_so_far` loads it. -/
structure PolledFeed where
  session : LiveSession
  receivedSnapshot : Nat := 0

namespace PolledFeed

def construct (numShards : Nat) (reference : Nat → Int64) (expectedMsgs : Nat) : PolledFeed where
  session := LiveSession.construct numShards reference expectedMsgs

/-- The receiver's next step leaves the loop over a datagram. -/
def stores (f : LiveFeed) : Bool :=
  match f.receiver with
  | .decoding n left offset => !decide (0 < left ∧ offset < n)
  | _ => false

def step (t : PolledFeed) (action : LiveSession.Action) : Option PolledFeed :=
  (t.session.step action).map fun next =>
    match action with
    | .feed .receiver =>
      { session := next
        receivedSnapshot := if stores t.session.feed then t.session.feed.received else t.receivedSnapshot }
    | _ => { t with session := next }

def run (t : PolledFeed) : List LiveSession.Action → Option PolledFeed
  | [] => some t
  | action :: rest => (t.step action).bind fun next => next.run rest

theorem session_step {t next : PolledFeed} {action : LiveSession.Action} (step : t.step action = some next) :
    t.session.step action = some next.session := by
  obtain ⟨session,stepped,rfl⟩ := Option.map_eq_some_iff.mp step
  rw [stepped]
  split <;> rfl

def Idle (f : LiveFeed) : Prop := ∀ n left offset, f.receiver ≠ .decoding n left offset

theorem Idle.upcoming {f : LiveFeed} (idle : Idle f) : f.upcoming = [] := by
  unfold LiveFeed.upcoming
  split
  next n left offset located => exact absurd located (idle n left offset)
  next => rfl

/-- What the poller knows of the datagrams `arrived` so far: it counts whole ones, all but perhaps
the last. -/
structure Polls (t : PolledFeed) (arrived : List (List UInt8)) : Prop where
  most : t.receivedSnapshot ≤ t.session.feed.received
  between : Idle t.session.feed → t.receivedSnapshot = t.session.feed.received
  whole : ∃ finished, finished <+: arrived ∧ arrived.length ≤ finished.length + 1 ∧
    t.receivedSnapshot = (finished.map LiveFeed.numMessages).sum

theorem polls_all {session : LiveSession} {snapshot : Nat} {arrived : List (List UInt8)}
    (equal : snapshot = session.feed.received)
    (total : session.feed.received = (arrived.map LiveFeed.numMessages).sum) : Polls ⟨session,snapshot⟩ arrived :=
  ⟨equal.le,fun _ => equal,arrived,List.prefix_rfl,Nat.le_succ _,equal.trans total⟩

section Step
variable {t : PolledFeed} {session : LiveSession} {arrived : List (List UInt8)} (polls : Polls t arrived)
include polls

/-- Nothing counted, and the receiver no more idle than it was. -/
theorem polls_still (received : session.feed.received = t.session.feed.received)
    (idle : Idle session.feed → Idle t.session.feed) : Polls { t with session := session } arrived := by
  refine ⟨?_,?_,polls.whole⟩
  · rw [received]
    exact polls.most
  · rw [received]
    exact fun now => polls.between (idle now)

theorem polls_waiting (idle : Idle t.session.feed) (arrives : t.session.feed.arrival = none)
    (received : session.feed.received = t.session.feed.received) :
    Polls ⟨session,if stores t.session.feed then t.session.feed.received else t.receivedSnapshot⟩
      (arrived ++ t.session.feed.arrival.toList) := by
  have keeps : stores t.session.feed = false := by
    unfold stores
    split
    next n left offset located => exact absurd located (idle n left offset)
    next => rfl
  have still := polls_still polls received fun _ => idle
  simpa [keeps,arrives] using still

theorem polls_receiver (counts : LiveSession.Counts t.session (arrived.map LiveFeed.numMessages).sum) (feed : LiveFeed)
    (step : t.session.feed.receiverStep = some feed) :
    Polls ⟨{ t.session with feed := feed },if stores t.session.feed then t.session.feed.received else t.receivedSnapshot⟩
      (arrived ++ t.session.feed.arrival.toList) := by
  have counted := counts.counted
  have idles (idle : Idle t.session.feed) : t.session.feed.received = (arrived.map LiveFeed.numMessages).sum := by
    rw [idle.upcoming] at counted
    simpa using counted
  cases LiveFeed.receiverStep_move step with
  | silence receiving empty =>
    exact polls_waiting polls (by simp [Idle,receiving]) (by simp [LiveFeed.arrival,receiving,empty]) rfl
  | blank d rest receiving head void =>
    exact polls_waiting polls (by simp [Idle,receiving]) (by simp [LiveFeed.arrival,receiving,head,void]) rfl
  | datagram d rest receiving head filled =>
    have idle : Idle t.session.feed := by simp [Idle,receiving]
    have equal := polls.between idle
    simp only [stores,LiveFeed.arrival,receiving,head,if_pos filled]
    refine ⟨equal.le,fun now => absurd rfl (now _ _ _),arrived,List.prefix_append _ _,?_,equal.trans (idles idle)⟩
    simp
  | decode n left offset located inside =>
    have more : 0 < left + 1 ∧ offset < n := ⟨Nat.succ_pos _,inside⟩
    simp only [stores,LiveFeed.arrival,located]
    refine ⟨?_,fun now => absurd rfl (now _ _ _),?_⟩
    · simpa [more,LiveFeed.decodeOne] using Nat.le_succ_of_le polls.most
    · simpa [more] using polls.whole
  | finish n left offset located finished =>
    have empty : t.session.feed.upcoming = [] := by
      simp only [LiveFeed.upcoming,located]
      exact decodeFrom_finished _ finished
    rw [empty] at counted
    simp only [stores,LiveFeed.arrival,located]
    simpa [finished] using polls_all rfl (by simpa using counted)
  | resume timedOut | leave timedOut =>
    exact polls_waiting polls (by simp [Idle,timedOut]) (by simp [LiveFeed.arrival,timedOut]) rfl

end Step

theorem polls_step {t next : PolledFeed} {arrived : List (List UInt8)} (polls : Polls t arrived)
    (counts : LiveSession.Counts t.session (arrived.map LiveFeed.numMessages).sum) (action : LiveSession.Action)
    (step : t.step action = some next) : Polls next (arrived ++ t.session.arrivals [action]) := by
  obtain ⟨session,stepped,rfl⟩ := Option.map_eq_some_iff.mp step
  cases action with
  | start messages =>
    have nothing : t.session.arrivals [.start messages] = [] := by simp [LiveSession.arrivals,stepped]
    obtain ⟨stopped,_,rfl⟩ := LiveSession.start_started stepped
    rw [nothing,List.append_nil]
    refine polls_still polls rfl fun _ => ?_
    simp [Idle,(counts.joins.idle stopped).2]
  | feed action =>
    rcases LiveSession.step_feed action stepped with ⟨rfl,waits⟩ | ⟨_,feed,fed,rfl⟩
    · have nothing : t.session.arrivals [.feed .main] = [] := by simp [LiveSession.arrivals,stepped]
      rw [nothing,List.append_nil]
      cases (LiveSession.waitStep_waits waits).2 <;> exact polls_still polls rfl id
    · by_cases receives : action = .receiver
      · subst receives
        have arrives : t.session.arrivals [.feed .receiver] = t.session.feed.arrival.toList := by
          simp [LiveSession.arrivals,stepped]
        rw [arrives]
        exact polls_receiver polls counts feed fed
      · have nothing : t.session.arrivals [.feed action] = [] := by
          cases action with
          | receiver => exact absurd rfl receives
          | publisher | worker | main | network => simp [LiveSession.arrivals,stepped]
        have received := (LiveFeed.other_counts action receives fed).1
        have still := LiveFeed.other_receiver action receives fed
        rw [nothing,List.append_nil]
        cases action with
        | receiver => exact absurd rfl receives
        | publisher | worker | main | network => exact polls_still polls received (by simp [Idle,still])

/-- A count once polled is never taken back. -/
theorem polls_grow {t next : PolledFeed} {arrived : List (List UInt8)} (polls : Polls t arrived)
    (action : LiveSession.Action) (step : t.step action = some next) : t.receivedSnapshot ≤ next.receivedSnapshot := by
  obtain ⟨session,stepped,rfl⟩ := Option.map_eq_some_iff.mp step
  split
  next =>
    simp only
    split
    next => exact polls.most
    next => exact Nat.le_refl _
  next => exact Nat.le_refl _

theorem polls_run (actions : List LiveSession.Action) {t final : PolledFeed} {arrived : List (List UInt8)}
    (polls : Polls t arrived) (counts : LiveSession.Counts t.session (arrived.map LiveFeed.numMessages).sum)
    (typed : ∀ messages ∈ LiveSession.starts actions, ∀ m ∈ messages, m ≠ .zero) (ran : t.run actions = some final) :
    Polls final (arrived ++ t.session.arrivals actions) ∧
      LiveSession.Counts final.session ((arrived ++ t.session.arrivals actions).map LiveFeed.numMessages).sum ∧
      t.receivedSnapshot ≤ final.receivedSnapshot := by
  induction actions generalizing t arrived with
  | nil =>
    cases ran
    rw [LiveSession.arrivals,List.append_nil]
    exact ⟨polls,counts,Nat.le_refl _⟩
  | cons action rest ih =>
    obtain ⟨next,step,onward⟩ := Option.bind_eq_some_iff.mp ran
    rw [LiveSession.starts_cons] at typed
    have stepped := session_step step
    have split : t.session.arrivals (action :: rest) = t.session.arrivals [action] ++ next.session.arrivals rest := by
      simp [LiveSession.arrivals,stepped]
    have first := LiveSession.counts_step counts action (fun messages called => typed messages
      (List.mem_append_left _ (by simp [called]))) stepped
    have counted : LiveSession.Counts next.session
        ((arrived ++ t.session.arrivals [action]).map LiveFeed.numMessages).sum := by
      simpa [LiveSession.announced] using first
    obtain ⟨reached,announced,grown⟩ := ih (polls_step polls counts action step) counted
      (fun messages member => typed messages (List.mem_append_right _ member)) onward
    rw [split,← List.append_assoc]
    exact ⟨reached,announced,(polls_grow polls action step).trans grown⟩

/-- `received_so_far` never runs ahead of what is received and never goes back; it counts the
messages of whole datagrams, is at most one datagram behind, and is exact between two calls. -/
theorem received_so_far (n : Nat) (reference : Nat → Int64) (expectedMsgs : Nat) (before after : List LiveSession.Action)
    (typed : ∀ messages ∈ LiveSession.starts (before ++ after), ∀ m ∈ messages, m ≠ .zero) (polled final : PolledFeed)
    (ran : (construct n reference expectedMsgs).run before = some polled) (onward : polled.run after = some final) :
    polled.receivedSnapshot ≤ polled.session.feed.received ∧ polled.receivedSnapshot ≤ final.receivedSnapshot ∧
    (polled.session.running = false → polled.receivedSnapshot = polled.session.feed.received) ∧
    ∃ finished, finished <+: (LiveSession.construct n reference expectedMsgs).arrivals before ∧
      ((LiveSession.construct n reference expectedMsgs).arrivals before).length ≤ finished.length + 1 ∧
      polled.receivedSnapshot = (finished.map LiveFeed.numMessages).sum := by
  have split : LiveSession.starts (before ++ after) = LiveSession.starts before ++ LiveSession.starts after :=
    List.filterMap_append
  rw [split] at typed
  have begun : Polls (construct n reference expectedMsgs) [] := ⟨Nat.le_refl 0,fun _ => rfl,[],List.prefix_rfl,Nat.zero_le 1,rfl⟩
  obtain ⟨polls,counts,_⟩ := polls_run before begun (LiveSession.counts_construct n reference expectedMsgs)
    (fun messages member => typed messages (List.mem_append_left _ member)) ran
  obtain ⟨_,_,grown⟩ := polls_run after polls counts
    (fun messages member => typed messages (List.mem_append_right _ member)) onward
  refine ⟨polls.most,grown,fun stopped => polls.between ?_,polls.whole⟩
  simp [Idle,(counts.joins.idle stopped).2]

/-- Polled in the middle of the only datagram of a call, and again after it. -/
theorem received_so_far_once : ∃ polled final,
    (construct 1 (fun _ => 10001) 1).run [.start LiveSession.oneAdd,.feed .publisher,.feed .publisher,.feed .publisher,
      .feed .receiver,.feed .receiver] = some polled ∧
    polled.run [.feed .receiver,.feed .receiver] = some final ∧ polled.receivedSnapshot ≤ final.receivedSnapshot ∧
    final.receivedSnapshot = 1 := by
  have complete : ∃ polled final,
      (construct 1 (fun _ => 10001) 1).run [.start LiveSession.oneAdd,.feed .publisher,.feed .publisher,.feed .publisher,
        .feed .receiver,.feed .receiver] = some polled ∧
      polled.run [.feed .receiver,.feed .receiver] = some final ∧ final.receivedSnapshot = 1 := ⟨_,_,rfl,rfl,rfl⟩
  obtain ⟨polled,final,ran,onward,one⟩ := complete
  have polls := received_so_far 1 (fun _ => 10001) 1 _ _ (by simp [LiveSession.starts,LiveSession.startOf,
    LiveSession.oneAdd]) polled final ran onward
  exact ⟨polled,final,ran,onward,polls.2.1,one⟩

end PolledFeed
end MarketFeed
