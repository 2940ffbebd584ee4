import MarketFeed.LiveCalls

/-! What the receiver gets over any sequence of calls, through a socket that may lose, repeat and
reorder datagrams: as many messages as their headers announce. -/
namespace MarketFeed
open Packed

namespace LiveFeed

/-- The datagram that the receiver's next step gets out of `recv`. -/
def arrival (f : LiveFeed) : Option (List UInt8) :=
  match f.receiver,f.socket with
  | .receiving,d :: _ => if d.length > 0 then some d else none
  | _,_ => none

def numMessages (d : List UInt8) : Nat := (packetHeader.read d).toNat

/-- Whatever is lost or repeated on the way, each datagram in the socket is one that was sent. -/
structure Framed (f : LiveFeed) : Prop where
  holds : ∃ pending, f.locals.Holds pending
  typed : ∀ m ∈ f.rest, m ≠ .zero
  socket : ∀ d ∈ f.socket, d ∈ f.sentDatagrams
  sent : ∀ d ∈ f.sentDatagrams, ∃ group, Carries group d

section Framed
variable {f next : LiveFeed} (framed : f.Framed)
include framed

theorem framed_send {packet : Option (List UInt8)} {locals : Publisher} {rest : List WireMsg}
    (carries : ∀ d ∈ packet, ∃ group, Carries group d) (holds : ∃ pending, locals.Holds pending)
    (typed : ∀ m ∈ rest, m ≠ .zero) (sent : Nat) (publisher : PublisherPc) :
    Framed { f.send packet with rest := rest, locals := locals, sent := sent, publisher := publisher } := by
  refine ⟨holds,typed,fun d member => ?_,fun d member => ?_⟩
  · rcases List.mem_append.mp member with earlier | now
    · exact List.mem_append_left _ (framed.socket d earlier)
    · exact List.mem_append_right _ now
  · rcases List.mem_append.mp member with earlier | now
    · exact framed.sent d earlier
    · exact carries d (Option.mem_toList.mp now)

theorem framed_publisher (step : f.publisherStep = some next) : next.Framed := by
  obtain ⟨pending,holds⟩ := framed.holds
  cases publisherStep_move step with
  | pack m rest looping waiting =>
    have typed := framed.typed
    rw [waiting] at typed
    have others := fun x member => typed x (List.mem_cons_of_mem _ member)
    rcases Publisher.pack_holds holds m (typed m List.mem_cons_self) with ⟨kept,packed⟩ | ⟨nonempty,flushed,packed⟩
    · exact framed_send framed (by simp [kept]) ⟨_,packed⟩ others _ _
    · exact framed_send framed (by simpa [flushed] using ⟨pending,carries_datagram pending nonempty holds.fits⟩)
        ⟨_,packed⟩ others _ _
  | flush looping empty =>
    have typed : ∀ m ∈ f.rest, m ≠ .zero := framed.typed
    rcases eq_or_ne pending [] with rfl | nonempty
    · have nothing := Publisher.flush_empty holds
      exact framed_send framed (by simp [nothing]) ⟨[],by simpa [nothing] using holds⟩ typed _ _
    · obtain ⟨flushed,cleared⟩ := Publisher.flush_pending holds nonempty
      exact framed_send framed (by simpa [flushed] using ⟨pending,carries_datagram pending nonempty holds.fits⟩)
        ⟨_,cleared⟩ typed _ _
  | finish flushed => exact ⟨framed.holds,framed.typed,framed.socket,framed.sent⟩

/-- What is taken from the socket goes, and nothing else changes for the sender. -/
theorem framed_receiver (step : f.receiverStep = some next) : next.Framed := by
  obtain ⟨holds,typed,socket,sent⟩ := framed
  cases receiverStep_move step with
  | datagram d rest receiving head filled | blank d rest receiving head void =>
    exact ⟨holds,typed,fun x member => socket x (head ▸ List.mem_cons_of_mem _ member),sent⟩
  | silence | decode | finish | resume | leave => exact ⟨holds,typed,socket,sent⟩

theorem framed_step (action : Action) (step : f.step action = some next) : next.Framed := by
  cases action with
  | publisher => exact framed_publisher framed step
  | receiver => exact framed_receiver framed step
  | worker s =>
    obtain ⟨pool,_,rfl⟩ := Option.map_eq_some_iff.mp step
    exact ⟨framed.holds,framed.typed,framed.socket,framed.sent⟩
  | main =>
    obtain ⟨pool,rfl⟩ := mainStep_pool step
    exact ⟨framed.holds,framed.typed,framed.socket,framed.sent⟩
  | network socket =>
    simp only [LiveFeed.step] at step
    split at step
    next delivered =>
      cases step
      exact ⟨framed.holds,framed.typed,delivered,framed.sent⟩
    next => cases step

/-- A datagram brings the messages its header counts, and each step decodes one of them. -/
theorem receiver_counts (step : f.receiverStep = some next) :
    next.received + next.upcoming.length =
      f.received + f.upcoming.length + (f.arrival.toList.map numMessages).sum := by
  cases receiverStep_move step with
  | silence receiving empty => simp [upcoming,arrival,receiving,empty]
  | blank d rest receiving head void => simp [upcoming,arrival,receiving,head,void]
  | datagram d rest receiving head filled =>
    obtain ⟨group,carries⟩ := framed.sent d (framed.socket d (head ▸ List.mem_cons_self))
    have decoded := carries.decoded f.buf
    rw [decodePacket] at decoded
    simp only [upcoming,take,receiving,arrival,head,if_pos filled,decoded]
    simp [numMessages,carries.numMessages]
  | decode n left offset located inside =>
    simp [upcoming,decodeOne,arrival,located,decodeFrom,inside]
    omega
  | finish n left offset located finished =>
    simp [upcoming,arrival,located,decodeFrom_finished f.buf finished]
  | resume timedOut flag => simp [upcoming,arrival,timedOut]
  | leave timedOut flag => simp [upcoming,arrival,timedOut]

end Framed

/-- Only the receiver counts messages. -/
theorem other_counts {f next : LiveFeed} (action : Action) (other : action ≠ .receiver)
    (step : f.step action = some next) : next.received = f.received ∧ next.upcoming = f.upcoming := by
  cases action with
  | publisher => cases publisherStep_move step <;> exact ⟨rfl,rfl⟩
  | receiver => exact absurd rfl other
  | worker s =>
    obtain ⟨pool,_,rfl⟩ := Option.map_eq_some_iff.mp step
    exact ⟨rfl,rfl⟩
  | main =>
    obtain ⟨pool,rfl⟩ := mainStep_pool step
    exact ⟨rfl,rfl⟩
  | network socket =>
    simp only [LiveFeed.step] at step
    split at step <;> cases step
    exact ⟨rfl,rfl⟩

end LiveFeed

namespace LiveSession

/-- The datagrams that the receiver gets along a run. -/
def arrivals (s : LiveSession) : List Action → List (List UInt8)
  | [] => []
  | action :: rest =>
    let arrived := match action with
      | .feed .receiver => s.feed.arrival.toList
      | _ => []
    arrived ++ (s.step action).elim [] fun next => next.arrivals rest

/-- How many messages the headers of these datagrams count. -/
def announced (s : LiveSession) (actions : List Action) : Nat :=
  ((s.arrivals actions).map LiveFeed.numMessages).sum

theorem announced_cons {s next : LiveSession} {action : Action} (step : s.step action = some next)
    (rest : List Action) : s.announced (action :: rest) = s.announced [action] + next.announced rest := by
  simp [announced,arrivals,step]

theorem announced_append (first second : List Action) {s reached : LiveSession} (ran : s.run first = some reached) :
    s.announced (first ++ second) = s.announced first + reached.announced second := by
  induction first generalizing s with
  | nil =>
    cases ran
    simp [announced,arrivals]
  | cons action rest ih =>
    obtain ⟨next,step,onward⟩ := Option.bind_eq_some_iff.mp ran
    rw [List.cons_append,announced_cons step,announced_cons step rest,ih onward,Nat.add_assoc]

/-- Of the messages announced so far, those counted and those still in the receiver's buffer. -/
structure Counts (s : LiveSession) (total : Nat) : Prop where
  framed : s.feed.Framed
  joins : Joins s
  counted : s.feed.received + s.feed.upcoming.length = total

theorem counts_construct (numShards : Nat) (reference : Nat → Int64) (expectedMsgs : Nat) :
    Counts (construct numShards reference expectedMsgs) 0 := by
  have joins := (session_construct numShards reference expectedMsgs).streams.joins
  refine ⟨⟨⟨[],Publisher.holds_init⟩,?_,?_,?_⟩,joins,rfl⟩ <;> simp [construct,LiveFeed.init]

section Counts
variable {s next : LiveSession} {total : Nat} (counts : Counts s total)
include counts

theorem counts_start (messages : List WireMsg) (typed : ∀ m ∈ messages, m ≠ .zero)
    (step : s.start messages = some next) : Counts next total := by
  have joins := joins_start counts.joins messages step
  obtain ⟨stopped,_,rfl⟩ := start_started step
  have receiver := (counts.joins.idle stopped).2
  have counted := counts.counted
  simp only [LiveFeed.upcoming,receiver] at counted
  exact ⟨⟨⟨[],Publisher.holds_init⟩,typed,counts.framed.socket,counts.framed.sent⟩,joins,counted⟩

theorem counts_wait (step : s.waitStep = some next) : Counts next total := by
  have joins := joins_wait counts.joins step
  have framed := counts.framed
  cases (waitStep_waits step).2 with
  | again | first => exact ⟨framed,joins,counts.counted⟩
  | call | drain => exact ⟨⟨framed.holds,framed.typed,framed.socket,framed.sent⟩,joins,counts.counted⟩

theorem counts_step (action : Action) (typed : ∀ messages, startOf action = some messages → ∀ m ∈ messages, m ≠ .zero)
    (step : s.step action = some next) : Counts next (total + s.announced [action]) := by
  cases action with
  | start messages =>
    have nothing : s.announced [.start messages] = 0 := by simp [announced,arrivals,step]
    rw [nothing]
    exact counts_start counts messages (typed messages rfl) step
  | feed action =>
    have joins := joins_step counts.joins _ step
    rcases step_feed action step with ⟨rfl,waits⟩ | ⟨_,feed,stepped,rfl⟩
    · have nothing : s.announced [.feed .main] = 0 := by simp [announced,arrivals,step]
      rw [nothing]
      exact counts_wait counts waits
    · refine ⟨LiveFeed.framed_step counts.framed action stepped,joins,?_⟩
      rw [← counts.counted]
      by_cases receives : action = .receiver
      · subst receives
        have told := LiveFeed.receiver_counts counts.framed stepped
        simpa [announced,arrivals,step] using told
      · obtain ⟨received,upcoming⟩ := LiveFeed.other_counts action receives stepped
        have nothing : s.announced [.feed action] = 0 := by
          cases action with
          | receiver => exact absurd rfl receives
          | publisher | worker | main | network => simp [announced,arrivals,step]
        rw [nothing,received,upcoming]
        rfl

end Counts

theorem counts_run (actions : List Action) {s final : LiveSession} {total : Nat} (counts : Counts s total)
    (typed : ∀ messages ∈ starts actions, ∀ m ∈ messages, m ≠ .zero) (ran : s.run actions = some final) :
    Counts final (total + s.announced actions) := by
  induction actions generalizing s total with
  | nil =>
    cases ran
    exact counts
  | cons action rest ih =>
    obtain ⟨next,step,onward⟩ := Option.bind_eq_some_iff.mp ran
    rw [starts_cons] at typed
    have first := counts_step counts action (fun messages called => typed messages
      (List.mem_append_left _ (by simp [called]))) step
    rw [announced_cons step,← Nat.add_assoc]
    exact ih first (fun messages member => typed messages (List.mem_append_right _ member)) onward

end LiveSession
end MarketFeed
