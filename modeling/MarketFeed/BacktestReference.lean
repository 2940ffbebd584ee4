import MarketFeed.BacktestResults
import MarketFeed.FillRule

/-! A backtest from scratch: where a pair is placed, and what becomes of it, read off the stream
alone, with no tracker, no list of active orders and no book carried along. The engine's results
are those. -/
namespace MarketFeed.BacktestEngine
open QueuePositionBook FastAheadTracker Lifetimes

section Reference
variable (reference : Int64) (messages : List WireMsg)

/-- The book and its order map after the first `t` messages. -/
def booksAt (t : Nat) : OrderBook × OrderMap := MarketFeed.replay (OrderBook.init {} reference,∅) (messages.take t)

def queueAt (t : Nat) : QueuePositionBook := ({} : QueuePositionBook).applyAll (messages.take t)

/-- Message `t` executes an order that rests at `key`. -/
def trades (key : LevelKey) (t : Nat) : Bool :=
  match messages[t]? with
  | some (.exec x) => ((queueAt messages t).find x.orderId).any fun found => found.1.level = key
  | _ => false

/-- And nothing that arrived before `ourSeq` is left at the level by then. -/
def tradesThrough (key : LevelKey) (ourSeq : UInt64) (t : Nat) : Bool :=
  decide ((queueAt messages t).qtyAheadOfSeq key ourSeq = 0) && trades messages key t

/-- From message `j` on, the first fill in an order's lifetime, else its end, else the end of the stream. -/
def resolutionFrom (fills : Nat → Bool) (placed lifetime ends j : Nat) : Outcome × Nat :=
  match (List.range' j (min (placed + lifetime + 1) ends - j)).find? fills with
  | some t => (.filled,t)
  | none => if placed + lifetime < ends then (.canceled,placed + lifetime) else (.resting,ends)

def resolution (fills : Nat → Bool) (placed lifetime ends : Nat) : Outcome × Nat :=
  resolutionFrom fills placed lifetime ends (placed + 1)

/-- The result of one order of the `pairId`-th pair, placed after message `i`. -/
def told (cfg : Config) (isNaive : Bool) (i : Nat) (pairId : UInt64) : SimOrderResult :=
  let book := (booksAt reference messages (i + 1)).1
  let queue := queueAt messages (i + 1)
  let key : LevelKey := ⟨0,.buy,book.bestBidTicks⟩
  let fills := if isNaive then trades messages key else tradesThrough messages key queue.currentSeq
  let (outcome,t) := resolution fills i (lifetime cfg) messages.length
  let closing := (booksAt reference messages (min (t + 1) messages.length)).1
  { id := if isNaive then 2 * pairId - 1 else 2 * pairId
    pairId := pairId
    isNaive := isNaive
    side := .buy
    priceTicks := book.bestBidTicks
    qty := cfg.orderQty
    placedMsgIdx := i
    resolvedMsgIdx := t
    outcome := outcome
    bidAtPlace := book.bestBidTicks
    askAtPlace := book.bestAskTicks
    bidAtFill := if closing.hasBid then closing.bestBidTicks else book.bestBidTicks
    askAtFill := if closing.hasAsk then closing.bestAskTicks else book.bestAskTicks
    aheadQtyAtPlace := (queue.levelTotalQty key).toUInt64 }

/-- A pair is placed after message `i`. -/
def placesAfter (cfg : Config) (i : Nat) : Bool :=
  let book := (booksAt reference messages (i + 1)).1
  i % cfg.placementInterval.toNat = 0 ∧ book.hasBid ∧ book.hasAsk

/-- The results of every pair, pair by pair. -/
def toldAll (cfg : Config) : List SimOrderResult :=
  (((List.range messages.length).filter (placesAfter reference messages cfg)).zipIdx 1).flatMap fun p =>
    [told reference messages cfg true p.1 (.ofNat p.2),told reference messages cfg false p.1 (.ofNat p.2)]

/-- What the engine makes of message `t`. -/
def tickAt (t : Nat) : Tick :=
  ⟨t,((queueAt messages t).apply (messages.getD t .zero)).1,(booksAt reference messages (t + 1)).1⟩

end Reference

section Stream
variable {messages : List WireMsg}

theorem take_next {t : Nat} {m : WireMsg} {rest : List WireMsg} (left : messages.drop t = m :: rest) :
    messages.take (t + 1) = messages.take t ++ [m] ∧ messages.drop (t + 1) = rest ∧ messages.getD t .zero = m ∧
      messages[t]? = some m ∧ t < messages.length := by
  have inside : t < messages.length := by
    have length := congrArg List.length left
    simp only [List.length_drop,List.length_cons] at length
    omega
  have split := List.drop_eq_getElem_cons inside
  rw [left] at split
  obtain ⟨here,after⟩ := List.cons.inj split
  have found : messages[t]? = some m := by rw [List.getElem?_eq_getElem inside,here]
  refine ⟨?_,after.symm,by simp [List.getD,found],found,inside⟩
  rw [List.take_add_one,found]
  rfl

theorem booksAt_next (reference : Int64) {t : Nat} {m : WireMsg} {rest : List WireMsg}
    (left : messages.drop t = m :: rest) : booksAt reference messages (t + 1) =
      applyToBook m (booksAt reference messages t).1 (booksAt reference messages t).2 := by
  rw [booksAt,(take_next left).1,replay_concat]
  rfl

theorem placementPoints_filter (reference : Int64) (cfg : Config) (rest : List WireMsg) {t : Nat}
    (left : messages.drop t = rest) : placementPoints cfg (booksAt reference messages t) t rest =
      (List.range' t rest.length).filter (placesAfter reference messages cfg) := by
  induction rest generalizing t with
  | nil => rfl
  | cons m rest ih =>
    have next := booksAt_next reference left
    rw [List.length_cons,List.range'_succ,List.filter_cons,← ih (take_next left).2.1]
    simp only [placementPoints,placesAfter,next,decide_eq_true_eq]

theorem queueAt_next {t : Nat} {m : WireMsg} {rest : List WireMsg} (left : messages.drop t = m :: rest) :
    queueAt messages (t + 1) = ((queueAt messages t).apply m).2 := by
  rw [queueAt,(take_next left).1,applyAll,List.foldl_append]
  rfl

theorem trades_iff (key : LevelKey) {t : Nat} {m : WireMsg} {rest : List WireMsg} (left : messages.drop t = m :: rest) :
    trades messages key t = true ↔ ∃ x e, m = .exec x ∧ (queueAt messages t).RestsAs key x.orderId e := by
  unfold trades
  rw [(take_next left).2.2.2.1]
  cases m with
  | exec x =>
    simp only [Option.any_eq_true,decide_eq_true_eq,RestsAs,WireMsg.exec.injEq]
    refine ⟨?_,?_⟩
    · rintro ⟨⟨loc,e⟩,found,level⟩
      exact ⟨x,e,rfl,loc,found,level⟩
    · rintro ⟨_,e,rfl,loc,found,level⟩
      exact ⟨⟨loc,e⟩,found,level⟩
  | zero | add | cancel | del | replace => simp

end Stream

/-- The engine has taken the first `t` messages. -/
structure At (reference : Int64) (messages : List WireMsg) (e : BacktestEngine) (t : Nat) : Prop where
  books : (e.book,e.bookOrders) = booksAt reference messages t
  queue : e.qbook = queueAt messages t

section At
variable {reference : Int64} {messages : List WireMsg} {e : BacktestEngine} {t : Nat} (standing : At reference messages e t)
include standing

theorem at_advance {m : WireMsg} {rest : List WireMsg} (left : messages.drop t = m :: rest) :
    At reference messages (e.advance m).2 (t + 1) ∧
      ⟨t,(e.advance m).1,(e.advance m).2.book⟩ = tickAt reference messages t := by
  have books : ((e.advance m).2.book,(e.advance m).2.bookOrders) = applyToBook m e.book e.bookOrders := rfl
  have queue : (e.advance m).2.qbook = (e.qbook.apply m).2 := rfl
  have effect : (e.advance m).1 = (e.qbook.apply m).1 := rfl
  have next := booksAt_next reference left
  rw [← standing.books] at next
  refine ⟨⟨books.trans next.symm,?_⟩,?_⟩
  · rw [queue,standing.queue,queueAt_next left]
  · rw [tickAt,(take_next left).2.2.1,effect,standing.queue,next]
    exact congrArg (Tick.mk t _) (congrArg Prod.fst books)

theorem script_ticks (rest : List WireMsg) (left : messages.drop t = rest) :
    (e.script t rest).map Prod.fst = (List.range' t rest.length).map (tickAt reference messages) := by
  induction rest generalizing e t with
  | nil => rfl
  | cons m rest ih =>
    obtain ⟨advanced,tick⟩ := at_advance standing left
    have after := (take_next left).2.1
    rw [List.length_cons,List.range'_succ,List.map_cons,← tick]
    simp only [script]
    split
    · have placed : At reference messages ((e.advance m).2.placePair t) (t + 1) := ⟨advanced.books,advanced.queue⟩
      exact congrArg (_ :: ·) (ih placed after)
    · exact congrArg (_ :: ·) (ih advanced after)

theorem placements_at (rest : List WireMsg) (left : messages.drop t = rest) :
    ∀ p ∈ e.placements t rest, At reference messages p.engine (p.msgIdx + 1) ∧
      p.later = (List.range' (p.msgIdx + 1) (messages.length - (p.msgIdx + 1))).map (tickAt reference messages) := by
  induction rest generalizing e t with
  | nil => simp [placements]
  | cons m rest ih =>
    obtain ⟨advanced,_⟩ := at_advance standing left
    have after := (take_next left).2.1
    have placed : At reference messages ((e.advance m).2.placePair t) (t + 1) := ⟨advanced.books,advanced.queue⟩
    intro p member
    simp only [placements] at member
    split at member
    next =>
      rcases List.mem_cons.mp member with rfl | later
      · have length := congrArg List.length after
        rw [List.length_drop] at length
        refine ⟨advanced,?_⟩
        simp only [script_ticks placed rest after,length]
      · exact ih placed after p later
    next => exact ih advanced after p member

theorem replay_at (rest : List WireMsg) (left : messages.drop t = rest) :
    At reference messages (e.replay t rest).2 messages.length := by
  induction rest generalizing e t with
  | nil =>
    have past := List.drop_eq_nil_iff.mp left
    have whole (xs : List WireMsg) (long : xs.length ≤ t) : xs.take t = xs.take xs.length := by
      rw [List.take_of_length_le long,List.take_length]
    refine ⟨standing.books.trans ?_,standing.queue.trans ?_⟩
    · rw [booksAt,whole _ past]
      rfl
    · rw [queueAt,whole _ past]
      rfl
  | cons m rest ih =>
    obtain ⟨advanced,_⟩ := at_advance standing left
    have after := (take_next left).2.1
    simp only [replay,onMessage]
    split
    · exact ih ⟨advanced.books,advanced.queue⟩ after
    · exact ih ⟨advanced.books,advanced.queue⟩ after

end At

section Fate
variable (cfg : Config) (reference : Int64) (messages : List WireMsg)

/-- An order meets what its fills say, whatever it carries along to recognise them. -/
theorem fate_resolution (size : messages.length = cfg.numMessages.toNat) (fills : Nat → Bool) (watch : Nat → ActiveOrder → Prop)
    (sees : ∀ t ao, t < messages.length → watch t ao →
      (observe (tickAt reference messages t).eff ao).1 = fills t ∧
        watch (t + 1) (observe (tickAt reference messages t).eff ao).2)
    (n j : Nat) (ao : ActiveOrder) (ends : j + n = messages.length) (placed : ao.placedMsgIdx < j)
    (young : j ≤ ao.placedMsgIdx + lifetime cfg) (watching : watch j ao) :
    let (outcome,t) := resolutionFrom fills ao.placedMsgIdx (lifetime cfg) messages.length j
    fateOf cfg (booksAt reference messages messages.length).1 ((List.range' j n).map (tickAt reference messages)) ao =
      finish (booksAt reference messages (min (t + 1) messages.length)).1 ao outcome t := by
  induction n generalizing j ao with
  | zero =>
    have none_ : min (ao.placedMsgIdx + lifetime cfg + 1) messages.length - j = 0 := by omega
    have late : ¬ao.placedMsgIdx + lifetime cfg < messages.length := by omega
    simp only [resolutionFrom,none_,List.range'_zero,List.find?_nil,if_neg late]
    rw [Nat.min_eq_right (Nat.le_succ _),size]
    rfl
  | succ n ih =>
    have inside : j < messages.length := by omega
    obtain ⟨fills_,next⟩ := sees j ao inside watching
    obtain ⟨k,window⟩ : ∃ k, min (ao.placedMsgIdx + lifetime cfg + 1) messages.length - j = k + 1 :=
      ⟨min (ao.placedMsgIdx + lifetime cfg + 1) messages.length - j - 1,by omega⟩
    have here : (tickAt reference messages j).msgIdx = j := rfl
    rw [List.range'_succ,List.map_cons]
    simp only [resolutionFrom,window,List.range'_succ,List.find?_cons]
    rcases fateOf_cons cfg (booksAt reference messages messages.length).1 (tickAt reference messages j)
      ((List.range' (j + 1) n).map (tickAt reference messages)) ao with ⟨fill,fate⟩ | ⟨unfilled,expired,fate⟩ |
      ⟨unfilled,kept,fate⟩
    · rw [fills_] at fill
      rw [fate,fill,here]
      simp only
      rw [Nat.min_eq_left inside]
      rfl
    · rw [fills_] at unfilled
      rw [here] at expired
      have last : j = ao.placedMsgIdx + lifetime cfg := by unfold lifetime at young ⊢; omega
      have empty : k = 0 := by omega
      rw [fate,unfilled,here,empty]
      simp only [List.range'_zero,List.find?_nil,← last,if_pos inside]
      rw [Nat.min_eq_left inside]
      rfl
    · rw [fills_] at unfilled
      rw [here] at kept
      obtain ⟨tracker,framed⟩ := observe_frame (tickAt reference messages j).eff ao
      have same : (observe (tickAt reference messages j).eff ao).2.placedMsgIdx = ao.placedMsgIdx := by rw [framed]
      have rest := ih (j + 1) (observe (tickAt reference messages j).eff ao).2 (by omega) (by omega)
        (by rw [same]; unfold lifetime; omega) next
      have shorter : min (ao.placedMsgIdx + lifetime cfg + 1) messages.length - (j + 1) = k := by omega
      rw [same] at rest
      simp only [resolutionFrom,shorter] at rest
      rw [fate,unfilled,rest,framed]
      rfl

end Fate

section Watches
variable {reference : Int64} {messages : List WireMsg} {key : LevelKey}

theorem naiveFill_trades {t : Nat} (inside : t < messages.length) :
    naiveFill (tickAt reference messages t).eff key = trades messages key t := by
  have left := List.drop_eq_getElem_cons inside
  have message := (take_next left).2.2.1
  rw [Bool.eq_iff_iff,trades_iff key left,← apply_executes,tickAt,message]
  unfold naiveFill
  cases ((queueAt messages t).apply messages[t]).1.reduction with
  | none => simp
  | some r => simp

/-- The tracker of an order placed after message `i`, when the first `t` messages have passed. -/
def trackedTo (messages : List WireMsg) (i : Nat) (key : LevelKey) (t : Nat) : FastAheadTracker :=
  (((messages.drop (i + 1)).take (t - (i + 1))).foldl feed (place (queueAt messages (i + 1)) key)).2

theorem trackedTo_start (i : Nat) : trackedTo messages i key (i + 1) = (place (queueAt messages (i + 1)) key).2 := by
  rw [trackedTo,Nat.sub_self,List.take_zero,List.foldl_nil]

theorem fed_to (messages : List WireMsg) (key : LevelKey) {i t : Nat} (after : i + 1 ≤ t) :
    ((messages.drop (i + 1)).take (t - (i + 1))).foldl feed (place (queueAt messages (i + 1)) key) =
      (queueAt messages t,trackedTo messages i key t) := by
  refine Prod.ext ?_ rfl
  have whole : messages.take (i + 1) ++ (messages.drop (i + 1)).take (t - (i + 1)) = messages.take t := by
    rw [← List.take_add,Nat.add_sub_cancel' after]
  have onward : queueAt messages t =
      (queueAt messages (i + 1)).applyAll ((messages.drop (i + 1)).take (t - (i + 1))) := by
    rw [queueAt,← whole,applyAll,List.foldl_append]
    rfl
  rw [feed_book]
  exact onward.symm

theorem since_placed {i t : Nat} (after : i + 1 ≤ t) (inside : t < messages.length) :
    (messages.drop (i + 1)).drop (t - (i + 1)) = messages[t] :: messages.drop (t + 1) := by
  rw [List.drop_drop,Nat.add_sub_cancel' after,List.drop_eq_getElem_cons inside]

theorem trackedTo_next {i t : Nat} (after : i + 1 ≤ t) (inside : t < messages.length) :
    trackedTo messages i key (t + 1) =
      ((trackedTo messages i key t).consume ((queueAt messages t).apply messages[t]).1).2 := by
  have step : t + 1 - (i + 1) = t - (i + 1) + 1 := by omega
  rw [trackedTo,step,(take_next (since_placed after inside)).1,List.foldl_append,fed_to messages key after]
  rfl

/-- It fills where it trades through. -/
theorem trackedTo_fills (few : messages.countP introduces < 2^64) {i t : Nat}
    (small : held ((queueAt messages (i + 1)).level key) < 2^32) (after : i + 1 ≤ t) (inside : t < messages.length) :
    ((trackedTo messages i key t).consume ((queueAt messages t).apply messages[t]).1).1 =
      tradesThrough messages key (queueAt messages (i + 1)).currentSeq t := by
  have split : messages.drop (i + 1) =
      (messages.drop (i + 1)).take (t - (i + 1)) ++ messages[t] :: messages.drop (t + 1) := by
    rw [← since_placed after inside,List.take_append_drop]
  have whole := few
  rw [← List.take_append_drop (i + 1) messages] at whole
  have fills := (placed_until whole rfl small split).fills messages[t]
  have standing := fed_to messages key after
  rw [queueAt] at standing
  rw [Bool.eq_iff_iff,tradesThrough,Bool.and_eq_true,decide_eq_true_eq,
    trades_iff key (List.drop_eq_getElem_cons inside)]
  rw [standing] at fills
  exact fills

/-- An order placed after message `i` with the tracker it has by now. -/
def Tracks (messages : List WireMsg) (i : Nat) (key : LevelKey) (t : Nat) (ao : ActiveOrder) : Prop :=
  ao.isNaive = false ∧ i + 1 ≤ t ∧ ao.tracker = some (trackedTo messages i key t)

theorem tracks_sees (few : messages.countP introduces < 2^64) {i : Nat}
    (small : held ((queueAt messages (i + 1)).level key) < 2^32) (t : Nat) (ao : ActiveOrder)
    (inside : t < messages.length) (tracks : Tracks messages i key t ao) :
    (observe (tickAt reference messages t).eff ao).1 =
        tradesThrough messages key (queueAt messages (i + 1)).currentSeq t ∧
      Tracks messages i key (t + 1) (observe (tickAt reference messages t).eff ao).2 := by
  obtain ⟨isTracked,after,own⟩ := tracks
  have message := (take_next (List.drop_eq_getElem_cons inside)).2.2.1
  have moves : observe (tickAt reference messages t).eff ao =
      (((trackedTo messages i key t).consume ((queueAt messages t).apply messages[t]).1).1,
        { ao with tracker := some ((trackedTo messages i key t).consume ((queueAt messages t).apply messages[t]).1).2 }) := by
    rw [tickAt,message]
    simp [observe,isTracked,own]
  rw [moves]
  exact ⟨trackedTo_fills few small after inside,isTracked,Nat.le_succ_of_le after,
    congrArg some (trackedTo_next after inside).symm⟩

end Watches

section Run
variable (cfg : Config) (reference : Int64) (message : Nat → WireMsg)

/-- Neither counter of the run's order numbers wraps, and no level an order is placed at holds 2^32. -/
structure Tracked (reference : Int64) (messages : List WireMsg) : Prop where
  few : messages.countP introduces < 2^64
  small : ∀ i < messages.length,
    held ((queueAt messages (i + 1)).level ⟨0,.buy,(booksAt reference messages (i + 1)).1.bestBidTicks⟩) < 2^32

theorem start_at (messages : List WireMsg) : At reference messages (start cfg reference) 0 := ⟨rfl,rfl⟩

/-- One order of a placement and what is told of it, given when it fills. -/
theorem order_told {messages : List WireMsg} (size : messages.length = cfg.numMessages.toNat) {p : Placement}
    (later : p.later = (List.range' (p.msgIdx + 1) (messages.length - (p.msgIdx + 1))).map (tickAt reference messages))
    (inside : p.msgIdx < messages.length) (ao : ActiveOrder) (placed : ao.placedMsgIdx = p.msgIdx)
    (fills : Nat → Bool) (watch : Nat → ActiveOrder → Prop) (watching : watch (p.msgIdx + 1) ao)
    (sees : ∀ t ao, t < messages.length → watch t ao →
      (observe (tickAt reference messages t).eff ao).1 = fills t ∧
        watch (t + 1) (observe (tickAt reference messages t).eff ao).2) :
    fateOf cfg (booksAt reference messages messages.length).1 p.later ao =
      finish (booksAt reference messages
        (min ((resolution fills p.msgIdx (lifetime cfg) messages.length).2 + 1) messages.length)).1 ao
        (resolution fills p.msgIdx (lifetime cfg) messages.length).1
        (resolution fills p.msgIdx (lifetime cfg) messages.length).2 := by
  have young : p.msgIdx + 1 ≤ ao.placedMsgIdx + lifetime cfg := by unfold lifetime; omega
  have fate := fate_resolution cfg reference messages size fills watch sees (messages.length - (p.msgIdx + 1))
    (p.msgIdx + 1) ao (by omega) (by omega) young watching
  rw [later,resolution,← placed]
  rw [placed] at fate ⊢
  exact fate

theorem results_told (tracked : Tracked reference (stream cfg message)) (p : Placement)
    (chosen : p ∈ (start cfg reference).placements 0 (stream cfg message)) :
    p.results cfg (booksAt reference (stream cfg message) (stream cfg message).length).1 =
      (told reference (stream cfg message) cfg true p.msgIdx p.engine.nextPairId,
        told reference (stream cfg message) cfg false p.msgIdx p.engine.nextPairId) := by
  have size : (stream cfg message).length = cfg.numMessages.toNat := by simp [stream]
  have placed := placements_placed (stream cfg message) (start cfg reference) 0 p chosen
  obtain ⟨standing,later⟩ := placements_at (start_at cfg reference (stream cfg message)) (stream cfg message) rfl p chosen
  have inside := placed.high
  have numbers := placed.numbered rfl
  have config : p.engine.cfg = cfg := placed.cfg
  rw [Nat.zero_add] at inside
  generalize stream cfg message = messages at *
  have book : p.engine.book = (booksAt reference messages (p.msgIdx + 1)).1 := congrArg Prod.fst standing.books
  have naive := order_told cfg reference size later inside (p.engine.pair p.msgIdx).1 rfl
    (trades messages (p.engine.pair p.msgIdx).1.level) (fun _ ao => ao = (p.engine.pair p.msgIdx).1) rfl
    (by
      rintro t ao bound rfl
      exact ⟨naiveFill_trades bound,rfl⟩)
  have follows := order_told cfg reference size later inside (p.engine.pair p.msgIdx).2 rfl
    (tradesThrough messages (p.engine.pair p.msgIdx).2.level (queueAt messages (p.msgIdx + 1)).currentSeq)
    (Tracks messages p.msgIdx (p.engine.pair p.msgIdx).2.level) (by
      refine ⟨rfl,Nat.le_refl _,?_⟩
      rw [trackedTo_start,place,← standing.queue]
      rfl)
    (tracks_sees tracked.few (by
      have held := tracked.small p.msgIdx inside
      rw [← book] at held
      exact held))
  have first : p.engine.nextId = 2 * p.engine.nextPairId - 1 := by rw [← numbers,UInt64.add_sub_cancel]
  have second : p.engine.nextId + 1 = 2 * p.engine.nextPairId := numbers
  rw [Placement.results,naive,follows]
  simp only [told,pair,finish,book,standing.queue,config,first]
  refine Prod.ext rfl ?_
  simp

end Run

/-! The order of the results: as they are resolved, and of one message by their ids. -/

def Before (r later : SimOrderResult) : Prop :=
  r.resolvedMsgIdx < later.resolvedMsgIdx ∨ r.resolvedMsgIdx = later.resolvedMsgIdx ∧ r.id < later.id

theorem attend_id (cfg : Config) (tick : Tick) (ao : ActiveOrder) :
    (∀ r, attend cfg tick ao = .inl r → r.id = ao.id ∧ r.resolvedMsgIdx = tick.msgIdx) ∧
      ∀ later, attend cfg tick ao = .inr later → later.id = ao.id := by
  have attends := attend_attends cfg tick ao
  obtain ⟨tracker,framed⟩ := observe_frame tick.eff ao
  generalize attend cfg tick ao = outcome at attends
  cases attends with
  | filled | canceled => exact ⟨by rintro r ⟨⟩; exact ⟨rfl,rfl⟩,by simp⟩
  | stays =>
    refine ⟨by simp,?_⟩
    rintro later ⟨⟩
    rw [framed]

theorem attended_ids (cfg : Config) (tick : Tick) (active : List ActiveOrder) :
    (((active.map (attend cfg tick)).filterMap Sum.getLeft?).map SimOrderResult.id).Sublist (active.map ActiveOrder.id) ∧
    (((active.map (attend cfg tick)).filterMap Sum.getRight?).map ActiveOrder.id).Sublist (active.map ActiveOrder.id) ∧
    ∀ r ∈ (active.map (attend cfg tick)).filterMap Sum.getLeft?, r.resolvedMsgIdx = tick.msgIdx := by
  induction active with
  | nil => simp
  | cons ao rest ih =>
    obtain ⟨left,right,now⟩ := ih
    obtain ⟨reports,stays⟩ := attend_id cfg tick ao
    cases outcome : attend cfg tick ao with
    | inl r =>
      obtain ⟨same,here⟩ := reports r outcome
      simp only [List.map_cons,outcome,List.filterMap_cons,Sum.getLeft?_inl,Sum.getRight?_inl,same]
      refine ⟨left.cons_cons _,right.cons _,fun x member => ?_⟩
      rcases List.mem_cons.mp member with rfl | later
      · exact here
      · exact now x later
    | inr later =>
      have same := stays later outcome
      simp only [List.map_cons,outcome,List.filterMap_cons,Sum.getLeft?_inr,Sum.getRight?_inr,same]
      exact ⟨left.cons _,right.cons_cons _,now⟩

theorem replay_ordered (messages : List WireMsg) (e : BacktestEngine) (msgIdx : Nat)
    (ends : msgIdx + messages.length ≤ e.cfg.numMessages.toNat) (few : e.nextId.toNat + 2 * messages.length < 2^64)
    (ids : (e.active.map ActiveOrder.id).Pairwise (· < ·)) (numbered : ∀ id ∈ e.active.map ActiveOrder.id, id < e.nextId) :
    (e.replay msgIdx messages).1.Pairwise Before ∧ ∀ r ∈ (e.replay msgIdx messages).1, msgIdx ≤ r.resolvedMsgIdx := by
  induction messages generalizing e msgIdx with
  | nil =>
    rw [List.length_nil,Nat.add_zero] at ends
    refine ⟨?_,fun r member => ?_⟩
    · simp only [replay]
      rw [List.pairwise_map] at ids ⊢
      exact ids.imp fun earlier => Or.inr ⟨rfl,earlier⟩
    · obtain ⟨ao,_,rfl⟩ := List.mem_map.mp member
      exact ends
  | cons m rest ih =>
    set tick : Tick := ⟨msgIdx,(e.advance m).1,(e.advance m).2.book⟩ with ticks
    set swept := ((e.advance m).2.sweep tick).2 with sweeps
    have left : swept.active = (e.active.map (attend e.cfg tick)).filterMap Sum.getRight? := rfl
    have config : swept.cfg = e.cfg := rfl
    have next : swept.nextId = e.nextId := rfl
    obtain ⟨reported,stay,now⟩ := attended_ids e.cfg tick e.active
    rw [List.length_cons] at ends few
    have second : (e.nextId + 1).toNat = e.nextId.toNat + 1 := by
      simp only [UInt64.toNat_add,UInt64.reduceToNat]
      omega
    have third : (e.nextId + 2).toNat = e.nextId.toNat + 2 := by
      simp only [UInt64.toNat_add,UInt64.reduceToNat]
      omega
    have sorted := ids.sublist stay
    have bounded (id : UInt64) (member : id ∈ swept.active.map ActiveOrder.id) : id < e.nextId :=
      numbered id (stay.subset (left ▸ member))
    have onward : ((if swept.places msgIdx then swept.placePair msgIdx else swept).replay (msgIdx + 1) rest).1.Pairwise Before ∧
        ∀ r ∈ ((if swept.places msgIdx then swept.placePair msgIdx else swept).replay (msgIdx + 1) rest).1,
          msgIdx + 1 ≤ r.resolvedMsgIdx := by
      split
      · have fresh : (swept.placePair msgIdx).active.map ActiveOrder.id =
            swept.active.map ActiveOrder.id ++ [e.nextId,e.nextId + 1] := by
          simp [placePair,pair,next]
        have counter : (swept.placePair msgIdx).nextId = e.nextId + 2 := rfl
        refine ih _ _ (by change _ ≤ e.cfg.numMessages.toNat; omega) (by rw [counter,third]; omega) ?_ ?_
        · rw [fresh,List.pairwise_append]
          refine ⟨sorted,?_,fun id member other new => ?_⟩
          · simp [UInt64.lt_iff_toNat_lt,second]
          · have low := UInt64.lt_iff_toNat_lt.mp (bounded id member)
            rw [UInt64.lt_iff_toNat_lt]
            rcases List.mem_pair.mp new with rfl | rfl <;> omega
        · rw [fresh,counter]
          intro id member
          rw [UInt64.lt_iff_toNat_lt]
          rcases List.mem_append.mp member with earlier | new
          · have low := UInt64.lt_iff_toNat_lt.mp (bounded id earlier)
            omega
          · rcases List.mem_pair.mp new with rfl | rfl <;> omega
      · exact ih _ _ (by change _ ≤ e.cfg.numMessages.toNat; omega) (by rw [next]; omega) sorted fun id member => by
          rw [next]
          exact bounded id member
    have results : (e.replay msgIdx (m :: rest)).1 = (e.active.map (attend e.cfg tick)).filterMap Sum.getLeft? ++
        ((if swept.places msgIdx then swept.placePair msgIdx else swept).replay (msgIdx + 1) rest).1 := rfl
    rw [results]
    refine ⟨List.pairwise_append.mpr ⟨?_,onward.1,?_⟩,?_⟩
    · have increasing := ids.sublist reported
      rw [List.pairwise_map] at increasing
      refine increasing.imp_of_mem fun here there earlier => Or.inr ⟨?_,earlier⟩
      rw [now _ here,now _ there]
    · intro r here later there
      have after := onward.2 later there
      have resolved : r.resolvedMsgIdx = msgIdx := now r here
      exact Or.inl (by omega)
    · intro r member
      rcases List.mem_append.mp member with here | later
      · exact (now r here).ge
      · exact Nat.le_of_succ_le (onward.2 r later)

section Run
variable (cfg : Config) (reference : Int64) (message : Nat → WireMsg)

/-- The results of a run are what the stream tells of the pairs it places, in the order in which
they are resolved. -/
theorem run_told (tracked : Tracked reference (stream cfg message)) (few : 2 * cfg.numMessages.toNat + 1 < 2^64) :
    (runOn cfg reference message).1.Perm (toldAll reference (stream cfg message) cfg) ∧
    (runOn cfg reference message).1.Pairwise Before := by
  have size : (stream cfg message).length = cfg.numMessages.toNat := by simp [stream]
  have chosen : points cfg reference message =
      (List.range (stream cfg message).length).filter (placesAfter reference (stream cfg message) cfg) := by
    rw [List.range_eq_range',← placementPoints_filter reference cfg (stream cfg message) rfl]
    rfl
  have numbers : ((start cfg reference).placements 0 (stream cfg message)).map
      (fun p => (p.msgIdx,p.engine.nextPairId)) = ((points cfg reference message).zipIdx 1).map (Prod.map id UInt64.ofNat) :=
    placements_points (stream cfg message) (start cfg reference) 0 1 rfl
  have fates := replay_perm (stream cfg message) (start cfg reference) 0 rfl
  have ended := replay_at (start_at cfg reference (stream cfg message)) (stream cfg message) rfl
  have closing : ((start cfg reference).replay 0 (stream cfg message)).2.book =
      (booksAt reference (stream cfg message) (stream cfg message).length).1 := congrArg Prod.fst ended.books
  have told_ : toldAll reference (stream cfg message) cfg =
      (((points cfg reference message).zipIdx 1).map (Prod.map id UInt64.ofNat)).flatMap fun p =>
        [told reference (stream cfg message) cfg true p.1 p.2,told reference (stream cfg message) cfg false p.1 p.2] := by
    rw [toldAll,← chosen,List.flatMap_map]
    rfl
  have first : (start cfg reference).nextId.toNat = 1 := rfl
  refine ⟨fates.trans (.of_eq ?_),(replay_ordered _ _ 0 ?_ (by omega) .nil (by simp [start,construct,opened])).1⟩
  · rw [told_,← numbers,List.flatMap_map,List.flatMap_map,closing]
    refine List.flatMap_congr fun p chosen => ?_
    have config : (start cfg reference).cfg = cfg := rfl
    rw [config,results_told cfg reference message tracked p chosen]
  · rw [Nat.zero_add,size]
    exact Nat.le_refl _

end Run

end MarketFeed.BacktestEngine
