import MarketFeed.LiveLedger

/-! The destructor of a `LiveFeed`: from any state that any calls over any network leave, it can
finish, and no thread is joinable when it has. -/
namespace MarketFeed
open Relation

namespace LiveSession

/-- `~LiveFeed`: `wait` if a call is running, `drain_and_stop` unless `drained_`. -/
def destroyStep (s : LiveSession) : Option LiveSession :=
  if s.running then s.waitStep
  else if s.drained then none
  else
    match s.feed.pool.drain with
    | .returned => some { s with drained := true }
    | _ => s.feed.mainStep.map fun feed => { s with feed := feed }

/-- A step while the destructor runs, its own or another thread's. -/
inductive Tears (s : LiveSession) : LiveSession → Prop
  | feed (action : LiveFeed.Action) (other : action ≠ .main) (feed : LiveFeed) (step : s.feed.step action = some feed) :
      Tears s { s with feed := feed }
  | destroy (next : LiveSession) (step : s.destroyStep = some next) : Tears s next

def Torn (s : LiveSession) : Prop := s.running = false ∧ s.drained = true

/-- Every thread of the object has returned. -/
structure NoThread (s : LiveSession) : Prop where
  publisher : s.feed.publisher = .ended
  receiver : s.feed.receiver = .ended
  workers : ∀ k < s.feed.pool.numShards, s.feed.pool.workers k = .exited

/-- The part of `Joins` that a drain by the destructor keeps. -/
structure Ends (s : LiveSession) : Prop where
  idle : s.running = false → s.feed.publisher = .ended ∧ s.feed.receiver = .ended
  joined : s.drained = false → s.feed.pool.drain ≠ .notCalled → s.feed.publisher = .ended ∧ s.feed.receiver = .ended

theorem Joins.ends {s : LiveSession} (joins : Joins s) : Ends s := ⟨joins.idle,joins.joined⟩

/-- What the end of the threads depends on. -/
structure Standing (start : Normalizer) (s : LiveSession) : Prop where
  numShards : s.feed.pool.numShards = start.numShards
  flagged : s.feed.publisher = .ended → s.feed.publisherDone = true ∨ s.feed.receiver = .ended
  sound : s.drained = false → ∃ accepted, Pool.Sound start s.feed.pool accepted
  exits : s.drained = true → ∀ k < start.numShards, s.feed.pool.workers k = .exited

theorem standing_construct (n : Nat) (reference : Nat → Int64) (expectedMsgs : Nat) :
    Standing (Normalizer.ready n reference) (construct n reference expectedMsgs) :=
  ⟨rfl,fun _ => Or.inr rfl,fun _ => ⟨[],Pool.Sound.init (Normalizer.priced_ready n reference).blank⟩,by simp [construct]⟩

/-- What no step but the main thread's undoes. -/
structure Keeps (f next : LiveFeed) : Prop where
  numShards : next.pool.numShards = f.pool.numShards
  publisher : f.publisher = .ended → next.publisher = .ended
  receiver : f.receiver = .ended → next.receiver = .ended
  flagged : next.publisher = .ended → next.publisherDone = true ∨ f.publisher = .ended
  done : f.publisherDone = true → next.publisherDone = true

theorem step_keeps {f next : LiveFeed} (action : LiveFeed.Action) (other : action ≠ .main)
    (step : f.step action = some next) : Keeps f next := by
  cases action with
  | publisher =>
    cases LiveFeed.publisherStep_move step with
    | pack m rest looping | flush looping => exact ⟨rfl,by simp [looping],id,by simp [LiveFeed.send,looping],id⟩
    | finish flushed => exact ⟨rfl,by simp,id,by simp,by simp⟩
  | receiver =>
    have idle {g : LiveFeed} (going : f.receiver ≠ .ended) (numShards : g.pool.numShards = f.pool.numShards)
        (publisher : g.publisher = f.publisher) (done : g.publisherDone = f.publisherDone) : Keeps f g :=
      ⟨numShards,fun ended => publisher.trans ended,fun ended => absurd ended going,
        fun ended => Or.inr (publisher.symm.trans ended),fun flag => done.trans flag⟩
    cases LiveFeed.receiverStep_move step with
    | silence receiving | blank _ _ receiving | datagram _ _ receiving => exact idle (by simp [receiving]) rfl rfl rfl
    | decode n left offset located =>
      exact idle (by simp [located]) (LiveFeed.dispatch_frame f.pool _).2.2.1 rfl rfl
    | finish n left offset located => exact idle (by simp [located]) rfl rfl rfl
    | resume timedOut | leave timedOut => exact idle (by simp [timedOut]) rfl rfl rfl
  | worker k =>
    obtain ⟨pool,worked,rfl⟩ := Option.map_eq_some_iff.mp step
    obtain ⟨_,shard,pc,rfl,_⟩ := Pool.workerStep_move worked
    exact ⟨rfl,id,id,Or.inr,id⟩
  | main => exact absurd rfl other
  | network socket =>
    simp only [LiveFeed.step] at step
    split at step <;> cases step
    exact ⟨rfl,id,id,Or.inr,id⟩

section Feed
variable {start : Normalizer} {s : LiveSession} (ends : Ends s) (standing : Standing start s) (action : LiveFeed.Action)
  (other : action ≠ .main) {feed : LiveFeed} (step : s.feed.step action = some feed)
include ends other step

theorem ends_feed : Ends { s with feed := feed } := by
  have keeps := step_keeps action other step
  have drain := (LiveFeed.step_feeding action other step).drain_eq
  have stays (both : s.feed.publisher = .ended ∧ s.feed.receiver = .ended) :
      feed.publisher = .ended ∧ feed.receiver = .ended := ⟨keeps.publisher both.1,keeps.receiver both.2⟩
  refine ⟨fun stopped => stays (ends.idle stopped),fun undrained called => stays (ends.joined undrained ?_)⟩
  rwa [← drain]

include standing

theorem standing_feed : Standing start { s with feed := feed } := by
  have keeps := step_keeps action other step
  have feeding := LiveFeed.step_feeding action other step
  refine ⟨keeps.numShards.trans standing.numShards,fun ended => ?_,fun undrained => ?_,fun drained k inside => ?_⟩
  · rcases keeps.flagged ended with done | before
    · exact Or.inl done
    · exact (standing.flagged before).imp keeps.done keeps.receiver
  · obtain ⟨accepted,sound⟩ := standing.sound undrained
    cases feeding with
    | quiet pool => exact ⟨accepted,pool ▸ sound⟩
    | work k worked => exact ⟨accepted,sound.worker worked⟩
    | dispatch m carried pool =>
      have running : s.feed.pool.drain = .notCalled := by
        by_contra called
        simp [LiveFeed.upcoming,(ends.joined undrained called).2] at carried
      have dispatched := sound.dispatch running m
      rw [← pool] at dispatched
      exact ⟨_,dispatched⟩
  · have gone := standing.exits drained k inside
    cases feeding with
    | quiet pool => exact (congrArg (fun p => p.workers k) pool).trans gone
    | work j worked =>
      obtain ⟨bound,shard,pc,_,move⟩ := Pool.workerStep_move worked
      rw [standing.exits drained j (by rwa [← standing.numShards])] at move
      cases move
    | dispatch m _ pool =>
      exact (congrArg (fun p => p.workers k) pool).trans ((congrFun (LiveFeed.dispatch_frame s.feed.pool m).1 k).trans gone)

end Feed

section Main
variable {start : Normalizer} {s next : LiveSession} (standing : Standing start s)
include standing

theorem standing_drained (undrained : s.drained = false) (returned : s.feed.pool.drain = .returned) (running : Bool) :
    Standing start { s with drained := true, running := running } := by
  obtain ⟨accepted,sound⟩ := standing.sound undrained
  refine ⟨standing.numShards,standing.flagged,by simp,fun _ k inside => sound.joined k ?_⟩
  rwa [returned,DrainPc.joined,sound.numShards]

theorem standing_pool (undrained : s.drained = false) (pool : Pool)
    (sound : ∀ accepted, Pool.Sound start s.feed.pool accepted → Pool.Sound start pool accepted) :
    Standing start { s with feed := { s.feed with pool := pool } } := by
  obtain ⟨accepted,before⟩ := standing.sound undrained
  have after := sound accepted before
  exact ⟨after.numShards,standing.flagged,fun _ => ⟨accepted,after⟩,fun drained => by simp [undrained] at drained⟩

theorem standing_wait (step : s.waitStep = some next) : Standing start next := by
  obtain ⟨running,waits⟩ := waitStep_waits step
  cases waits with
  | again => exact ⟨standing.numShards,standing.flagged,standing.sound,standing.exits⟩
  | first undrained returned => exact standing_drained standing undrained returned false
  | call undrained notCalled => exact standing_pool standing undrained _ fun _ sound => sound.callDrain notCalled
  | drain undrained pool stepped => exact standing_pool standing undrained pool fun _ sound => sound.drainStep stepped

theorem standing_start (messages : List WireMsg) (step : s.start messages = some next) : Standing start next := by
  obtain ⟨_,_,rfl⟩ := start_started step
  exact ⟨standing.numShards,by simp,standing.sound,standing.exits⟩

end Main

/-- What a step of the destructor does. -/
inductive Destroys (s : LiveSession) : LiveSession → Prop
  | wait (next) (step : s.waitStep = some next) : Destroys s next
  | last (stopped : s.running = false) (undrained : s.drained = false) (returned : s.feed.pool.drain = .returned) :
      Destroys s { s with drained := true }
  | call (stopped : s.running = false) (undrained : s.drained = false) (running : s.feed.pool.drain = .notCalled) :
      Destroys s { s with feed := { s.feed with pool := s.feed.pool.callDrain } }
  | drain (stopped : s.running = false) (undrained : s.drained = false) (pool)
      (drained : s.feed.pool.drainStep = some pool) : Destroys s { s with feed := { s.feed with pool := pool } }

theorem destroyStep_destroys {s next : LiveSession} (step : s.destroyStep = some next) : Destroys s next := by
  unfold destroyStep at step
  split at step
  next => exact .wait next step
  next stopped =>
    rw [Bool.not_eq_true] at stopped
    split at step
    next => cases step
    next undrained =>
      rw [Bool.not_eq_true] at undrained
      split at step
      next returned =>
        cases step
        exact .last stopped undrained returned
      next =>
        obtain ⟨feed,taken,rfl⟩ := Option.map_eq_some_iff.mp step
        unfold LiveFeed.mainStep at taken
        split at taken
        next notCalled =>
          split at taken <;> cases taken
          exact .call stopped undrained notCalled
        next =>
          obtain ⟨pool,drained,rfl⟩ := Option.map_eq_some_iff.mp taken
          exact .drain stopped undrained pool drained

/-- What every state of the destructor has. -/
structure Tearable (start : Normalizer) (s : LiveSession) : Prop where
  ends : Ends s
  standing : Standing start s

theorem tearable_run {start : Normalizer} (actions : List Action) {s final : LiveSession} (joins : Joins s)
    (standing : Standing start s) (ran : s.run actions = some final) : Tearable start final := by
  induction actions generalizing s with
  | nil =>
    cases ran
    exact ⟨joins.ends,standing⟩
  | cons action rest ih =>
    obtain ⟨middle,step,onward⟩ := Option.bind_eq_some_iff.mp ran
    refine ih (joins_step joins action step) ?_ onward
    cases action with
    | start messages => exact standing_start standing messages step
    | feed action =>
      rcases step_feed action step with ⟨rfl,waits⟩ | ⟨other,feed,stepped,rfl⟩
      · exact standing_wait standing waits
      · exact standing_feed joins.ends standing action other stepped

theorem ends_wait {s next : LiveSession} (ends : Ends s) (step : s.waitStep = some next) : Ends next := by
  obtain ⟨running,waits⟩ := waitStep_waits step
  have going (stopped : s.running = false) : False := by simp [running] at stopped
  cases waits with
  | again drained publisher receiver =>
    exact ⟨fun _ => ⟨publisher,receiver⟩,fun undrained => by simp [drained] at undrained⟩
  | first undrained returned =>
    exact ⟨fun _ => ends.joined undrained (by simp [returned]),by simp⟩
  | call undrained notCalled publisher receiver =>
    exact ⟨fun stopped => (going stopped).elim,fun _ _ => ⟨publisher,receiver⟩⟩
  | drain undrained pool stepped =>
    exact ⟨fun stopped => (going stopped).elim,fun undrained _ => ends.joined undrained (Pool.drainStep_called stepped).1⟩

theorem tearable_tears {start : Normalizer} {s next : LiveSession} (tearable : Tearable start s) (tears : Tears s next) :
    Tearable start next := by
  obtain ⟨ends,standing⟩ := tearable
  cases tears with
  | feed action other feed step => exact ⟨ends_feed ends action other step,standing_feed ends standing action other step⟩
  | destroy next step =>
    cases destroyStep_destroys step with
    | wait next step => exact ⟨ends_wait ends step,standing_wait standing step⟩
    | last stopped undrained returned =>
      exact ⟨⟨fun _ => ends.idle stopped,by simp⟩,standing_drained standing undrained returned s.running⟩
    | call stopped undrained running =>
      exact ⟨⟨fun _ => ends.idle stopped,fun _ _ => ends.idle stopped⟩,
        standing_pool standing undrained _ fun _ sound => sound.callDrain running⟩
    | drain stopped undrained pool drained =>
      exact ⟨⟨fun _ => ends.idle stopped,fun _ _ => ends.idle stopped⟩,
        standing_pool standing undrained pool fun _ sound => sound.drainStep drained⟩

theorem tearable_reaches {start : Normalizer} {s next : LiveSession} (tearable : Tearable start s)
    (reaches : ReflTransGen Tears s next) : Tearable start next := by
  induction reaches with
  | refl => exact tearable
  | tail _ step ih => exact tearable_tears ih step

/-- When the destructor is through, so is every thread. -/
theorem torn_noThread {start : Normalizer} {s : LiveSession} (tearable : Tearable start s) (torn : Torn s) : NoThread s := by
  obtain ⟨publisher,receiver⟩ := tearable.ends.idle torn.1
  refine ⟨publisher,receiver,fun k inside => tearable.standing.exits torn.2 k ?_⟩
  rwa [← tearable.standing.numShards]

/-! The threads can always be let run to their ends. -/

def Apart (_ : LiveFeed) (action : LiveFeed.Action) : Prop := action ≠ .main

theorem apart_allows : LiveFeed.Allows Apart where
  publisher _ := by simp [Apart]
  receiver _ _ := by simp [Apart]
  stops _ _ _ := by simp [Apart]

theorem tears_feed (s : LiveSession) {feed : LiveFeed} (leads : LiveFeed.LeadsAlong Apart s.feed feed) :
    ReflTransGen Tears s { s with feed := feed } := by
  obtain ⟨actions,lossless,apart,ran⟩ := leads
  clear lossless
  induction actions generalizing s with
  | nil =>
    cases ran
    exact .refl
  | cons action rest ih =>
    obtain ⟨middle,step,onward⟩ := Option.bind_eq_some_iff.mp ran
    exact .head (.feed action apart.1 middle step) (ih { s with feed := middle } (apart.2 middle step) onward)

theorem leads_published_all (f : LiveFeed) : ∃ next, LiveFeed.LeadsAlong Apart f next ∧ next.publisher = .ended := by
  cases located : f.publisher with
  | looping =>
    obtain ⟨next,leads,ended,_⟩ := LiveFeed.leads_published apart_allows f.rest f rfl located
    exact ⟨next,leads,ended⟩
  | flushed =>
    have stored : f.step .publisher = some { f with publisherDone := true, publisher := .ended } := by
      simp only [LiveFeed.step,LiveFeed.publisherStep,located]
    exact ⟨_,LiveFeed.leads_step .publisher trivial (by simp [Apart]) stored,rfl⟩
  | ended => exact ⟨f,.refl f,located⟩

theorem leads_keeps {f next : LiveFeed} (leads : LiveFeed.LeadsAlong Apart f next) : Keeps f next := by
  obtain ⟨actions,lossless,apart,ran⟩ := leads
  clear lossless
  induction actions generalizing f with
  | nil =>
    cases ran
    exact ⟨rfl,id,id,Or.inr,id⟩
  | cons action rest ih =>
    obtain ⟨middle,step,onward⟩ := Option.bind_eq_some_iff.mp ran
    have first := step_keeps action apart.1 step
    have later := ih (apart.2 middle step) onward
    refine ⟨later.numShards.trans first.numShards,later.publisher ∘ first.publisher,later.receiver ∘ first.receiver,
      fun ended => ?_,later.done ∘ first.done⟩
    rcases later.flagged ended with done | before
    · exact Or.inl done
    · exact (first.flagged before).imp later.done id

/-- A receiver that waits takes all that has arrived, whatever it is, and leaves. -/
theorem leads_silent (socket : List (List UInt8)) (f : LiveFeed) (held : f.socket = socket)
    (receiving : f.receiver = .receiving) (published : f.publisher = .ended) (done : f.publisherDone = true) :
    ∃ next, LiveFeed.LeadsAlong Apart f next ∧ next.receiver = .ended := by
  induction socket generalizing f with
  | nil => exact ⟨_,LiveFeed.leads_left apart_allows f receiving held published done,rfl⟩
  | cons d rest ih =>
    have apart : Apart f .receiver := by simp [Apart]
    by_cases filled : d.length > 0
    · have taken : f.step .receiver = some (f.take d rest) := by
        simp only [LiveFeed.step,LiveFeed.receiverStep,receiving,held,if_pos filled]
        rfl
      obtain ⟨middle,receives,same⟩ := LiveFeed.leads_decoded apart_allows _ _ _ (f.take d rest) rfl
      have leads := (LiveFeed.leads_step .receiver trivial apart taken).trans receives.leads
      have keeps := leads_keeps leads
      obtain ⟨next,onward,ended⟩ := ih middle same receives.receiving (keeps.publisher published) (keeps.done done)
      exact ⟨next,leads.trans onward,ended⟩
    · have taken : f.step .receiver = some { f with socket := rest, receiver := .timedOut } := by
        simp only [LiveFeed.step,LiveFeed.receiverStep,receiving,held,if_neg filled]
      have left : LiveFeed.step { f with socket := rest, receiver := .timedOut } .receiver =
          some { f with socket := rest, receiver := .ended } := by
        simp only [LiveFeed.step,LiveFeed.receiverStep,done,if_true]
      exact ⟨_,(LiveFeed.leads_step .receiver trivial apart taken).trans
        (LiveFeed.leads_step .receiver trivial (by simp [Apart]) left),rfl⟩

theorem leads_received_all (f : LiveFeed) (published : f.publisher = .ended)
    (done : f.publisherDone = true ∨ f.receiver = .ended) :
    ∃ next, LiveFeed.LeadsAlong Apart f next ∧ next.publisher = .ended ∧ next.receiver = .ended := by
  have over_ {next : LiveFeed} (leads : LiveFeed.LeadsAlong Apart f next) (ended : next.receiver = .ended) :
      ∃ next, LiveFeed.LeadsAlong Apart f next ∧ next.publisher = .ended ∧ next.receiver = .ended :=
    ⟨next,leads,(leads_keeps leads).publisher published,ended⟩
  cases located : f.receiver with
  | receiving =>
    obtain ⟨next,leads,ended⟩ := leads_silent _ f rfl located published (done.resolve_right (by simp [located]))
    exact over_ leads ended
  | decoding n left offset =>
    obtain ⟨middle,receives,_⟩ := LiveFeed.leads_decoded apart_allows n left offset f located
    have keeps := leads_keeps receives.leads
    obtain ⟨next,leads,ended⟩ := leads_silent _ middle rfl receives.receiving (keeps.publisher published)
      (keeps.done (done.resolve_right (by simp [located])))
    exact over_ (receives.leads.trans leads) ended
  | timedOut =>
    have left : f.step .receiver = some { f with receiver := .ended } := by
      simp only [LiveFeed.step,LiveFeed.receiverStep,located,done.resolve_right (by simp [located]),if_true]
    exact over_ (LiveFeed.leads_step .receiver trivial (by simp [Apart]) left) rfl
  | ended => exact over_ (.refl f) located

/-- Both loops can be let run to their ends. -/
theorem tears_ended {start : Normalizer} {s : LiveSession} (tearable : Tearable start s) :
    ∃ feed, ReflTransGen Tears s { s with feed := feed } ∧ feed.publisher = .ended ∧ feed.receiver = .ended := by
  obtain ⟨middle,published,ended⟩ := leads_published_all s.feed
  have tears := tears_feed s published
  obtain ⟨feed,leads,publisher,receiver⟩ :=
    leads_received_all middle ended ((tearable_reaches tearable tears).standing.flagged ended)
  exact ⟨feed,tears_feed s (published.trans leads),publisher,receiver⟩

section Drain
variable (s : LiveSession) (undrained : s.drained = false)
include undrained

theorem destroyStep_main {feed : LiveFeed} (step : s.feed.mainStep = some feed)
    (unreturned : s.feed.pool.drain ≠ .returned) : s.destroyStep = some { s with feed := feed } := by
  unfold destroyStep waitStep
  cases located : s.feed.pool.drain with
  | returned => exact absurd located unreturned
  | notCalled | waiting j | joining j => cases running : s.running <;> simp [undrained,step]

theorem destroyStep_returned (returned : s.feed.pool.drain = .returned) :
    s.destroyStep = some { s with drained := true, running := false } := by
  unfold destroyStep waitStep
  cases running : s.running <;> simp [undrained,returned,← running]

theorem tears_closes {pool : Pool} (closes : Pool.Closes s.feed.pool pool) :
    ReflTransGen Tears s { s with feed := { s.feed with pool := pool } } := by
  induction closes with
  | refl => exact .refl
  | tail _ step ih =>
    rename_i middle pool _
    refine ih.tail ?_
    rcases step with ⟨k,worked⟩ | drained
    · exact .feed (.worker k) (by simp) _ (by simp [LiveFeed.step,worked])
    · have called := (Pool.drainStep_called drained).1
      have unreturned : middle.drain ≠ .returned := fun returned => by simp [Pool.drainStep,returned] at drained
      refine .destroy _ ?_
      have step : LiveFeed.mainStep { s.feed with pool := middle } = some { s.feed with pool := pool } := by
        simp only [LiveFeed.mainStep,drained]
        cases located : middle.drain with
        | notCalled => exact absurd located called
        | waiting j | joining j | returned => rfl
      exact destroyStep_main { s with feed := { s.feed with pool := middle } } undrained step unreturned

theorem tears_drained {accepted : List WireMsg} {start : Normalizer} (sound : Pool.Sound start s.feed.pool accepted)
    (called : s.feed.pool.drain ≠ .notCalled) : ∃ final, ReflTransGen Tears s final ∧ Torn final := by
  obtain ⟨pool,closes,returned⟩ := Pool.closes_returned sound called
  have last := destroyStep_returned { s with feed := { s.feed with pool := pool } } undrained returned
  exact ⟨_,(tears_closes s undrained closes).tail (.destroy _ last),rfl,rfl⟩

end Drain

theorem tears_torn {start : Normalizer} {s : LiveSession} (tearable : Tearable start s) :
    ∃ final, ReflTransGen Tears s final ∧ Torn final := by
  obtain ⟨feed,tears,publisher,receiver⟩ := tears_ended tearable
  obtain ⟨ends,standing⟩ := tearable_reaches tearable tears
  cases drained : s.drained with
  | true =>
    cases running : s.running with
    | false => exact ⟨s,.refl,running,drained⟩
    | true =>
      have last : destroyStep { s with feed := feed } = some { s with feed := feed, running := false } := by
        simp [destroyStep,waitStep,running,drained,publisher,receiver]
      exact ⟨_,tears.tail (.destroy _ last),rfl,drained⟩
  | false =>
    obtain ⟨accepted,sound⟩ := standing.sound drained
    by_cases called : feed.pool.drain = .notCalled
    · have step : feed.mainStep = some { feed with pool := feed.pool.callDrain } := by
        simp only [LiveFeed.mainStep,called,publisher,receiver,and_self,if_true]
      have first := destroyStep_main { s with feed := feed } drained step (by simp [called])
      obtain ⟨final,closes,torn⟩ := tears_drained
        { s with feed := { feed with pool := feed.pool.callDrain } } drained (sound.callDrain called)
        (by simp [Pool.callDrain])
      exact ⟨final,(tears.tail (.destroy _ first)).trans closes,torn⟩
    · obtain ⟨final,closes,torn⟩ := tears_drained { s with feed := feed } drained sound called
      exact ⟨final,tears.trans closes,torn⟩

/-- Whatever calls were made, and whatever the network and the schedule did before and do while the
destructor runs: it can always go on to its end, and there no thread is left to be joined. -/
theorem teardown_joins (n : Nat) (reference : Nat → Int64) (expectedMsgs : Nat) (actions : List Action)
    (s : LiveSession) (ran : (construct n reference expectedMsgs).run actions = some s) (middle : LiveSession)
    (tearing : ReflTransGen Tears s middle) :
    (∃ final, ReflTransGen Tears middle final ∧ Torn final) ∧ (Torn middle → NoThread middle) := by
  have joins := (session_construct n reference expectedMsgs).streams.joins
  have tearable := tearable_reaches (tearable_run actions joins (standing_construct n reference expectedMsgs) ran) tearing
  exact ⟨tears_torn tearable,torn_noThread tearable⟩

/-- A feed destroyed while its publisher packs the second of three messages. -/
theorem teardown_joins_sending : ∃ s final,
    (construct 2 (fun _ => 10000) 3).run [.start LiveFeed.threeOrders,.feed .publisher,.feed .receiver,.feed .publisher] =
      some s ∧
    s.running = true ∧ s.feed.publisher = .looping ∧ ReflTransGen Tears s final ∧ Torn final ∧ NoThread final := by
  obtain ⟨s,ran,running,sending⟩ : ∃ s, (construct 2 (fun _ => 10000) 3).run
      [.start LiveFeed.threeOrders,.feed .publisher,.feed .receiver,.feed .publisher] = some s ∧ s.running = true ∧
      s.feed.publisher = .looping := ⟨_,rfl,rfl,rfl⟩
  obtain ⟨final,tears,torn⟩ := (teardown_joins 2 (fun _ => 10000) 3 _ s ran s .refl).1
  exact ⟨s,final,ran,running,sending,tears,torn,(teardown_joins 2 (fun _ => 10000) 3 _ s ran final tears).2 torn⟩

end LiveSession
end MarketFeed
