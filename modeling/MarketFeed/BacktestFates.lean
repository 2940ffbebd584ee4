import Mathlib.Data.Nat.Count
import MarketFeed.Backtest
import MarketFeed.Library.Lifetimes

/-! Every order the engine rests meets the fate it would meet alone: the results of a run
are the fates of the placed pairs, up to order. -/
namespace MarketFeed.BacktestEngine
open Lifetimes

theorem observe_frame (eff : ApplyEffect) (ao : ActiveOrder) :
    ∃ tracker, (observe eff ao).2 = { ao with tracker := tracker } := by
  unfold observe
  split
  · exact ⟨_,rfl⟩
  · split <;> exact ⟨_,rfl⟩

/-- The three things a message can do to an order. -/
inductive Attends (cfg : Config) (tick : Tick) (ao : ActiveOrder) : SimOrderResult ⊕ ActiveOrder → Prop
  | filled (fill : (observe tick.eff ao).1 = true) :
      Attends cfg tick ao (.inl (finish tick.book ao .filled tick.msgIdx))
  | canceled (unfilled : (observe tick.eff ao).1 = false)
      (expired : cfg.ttlMessages.toNat ≤ tick.msgIdx - ao.placedMsgIdx) :
      Attends cfg tick ao (.inl (finish tick.book ao .canceled tick.msgIdx))
  | stays (unfilled : (observe tick.eff ao).1 = false)
      (young : tick.msgIdx - ao.placedMsgIdx < cfg.ttlMessages.toNat) :
      Attends cfg tick ao (.inr (observe tick.eff ao).2)

theorem attend_attends (cfg : Config) (tick : Tick) (ao : ActiveOrder) :
    Attends cfg tick ao (attend cfg tick ao) := by
  obtain ⟨tracker,framed⟩ := observe_frame tick.eff ao
  have fresh (outcome : Outcome) : finish tick.book (observe tick.eff ao).2 outcome tick.msgIdx =
      finish tick.book ao outcome tick.msgIdx := by
    rw [framed]
    rfl
  have placed : (observe tick.eff ao).2.placedMsgIdx = ao.placedMsgIdx := by rw [framed]
  unfold attend
  simp only [fresh,placed]
  split
  next fill => exact .filled fill
  next unfilled =>
    have unfilled := Bool.eq_false_iff.mpr unfilled
    split
    next expired => exact .canceled unfilled expired
    next young => exact .stays unfilled (Nat.lt_of_not_le young)

/-- What happened at each message, and the orders placed at it. -/
def script (e : BacktestEngine) (msgIdx : Nat) : List WireMsg → List (Tick × List ActiveOrder)
  | [] => []
  | m :: rest =>
    let (eff,e) := e.advance m
    if e.places msgIdx then
      (⟨msgIdx,eff,e.book⟩,[(e.pair msgIdx).1,(e.pair msgIdx).2]) ::
        (e.placePair msgIdx).script (msgIdx + 1) rest
    else (⟨msgIdx,eff,e.book⟩,[]) :: e.script (msgIdx + 1) rest

theorem script_active (messages : List WireMsg) (e : BacktestEngine) (msgIdx : Nat)
    (active : List ActiveOrder) : script { e with active := active } msgIdx messages = e.script msgIdx messages := by
  induction messages generalizing e msgIdx active with
  | nil => rfl
  | cons m rest ih =>
    have placed := ih ((e.advance m).2.placePair msgIdx) (msgIdx + 1)
      (active ++ [((e.advance m).2.pair msgIdx).1,((e.advance m).2.pair msgIdx).2])
    have kept := ih (e.advance m).2 (msgIdx + 1) active
    simp only [script]
    split
    next here => exact (congrArg (_ :: ·) placed).trans (if_pos here).symm
    next here => exact (congrArg (_ :: ·) kept).trans (if_neg here).symm

theorem replay_roster (messages : List WireMsg) (e : BacktestEngine) (msgIdx : Nat) :
    (e.replay msgIdx messages).1 =
      roster (attend e.cfg)
        (fun ao => finish (e.replay msgIdx messages).2.book ao .resting e.cfg.numMessages.toNat)
        (e.script msgIdx messages) e.active := by
  induction messages generalizing e msgIdx with
  | nil => rfl
  | cons m rest ih =>
    set tick : Tick := ⟨msgIdx,(e.advance m).1,(e.advance m).2.book⟩ with ticks
    set swept := ((e.advance m).2.sweep tick).2 with sweeps
    have same : swept.places msgIdx = (e.advance m).2.places msgIdx := rfl
    simp only [replay,onMessage,script,← ticks,← sweeps,same]
    split
    next here =>
      have scripted : (swept.placePair msgIdx).script (msgIdx + 1) rest =
          ((e.advance m).2.placePair msgIdx).script (msgIdx + 1) rest :=
        script_active rest ((e.advance m).2.placePair msgIdx) (msgIdx + 1) _
      simp only [roster,← scripted]
      exact congrArg (_ ++ ·) (ih (swept.placePair msgIdx) (msgIdx + 1))
    next here =>
      have scripted : swept.script (msgIdx + 1) rest = (e.advance m).2.script (msgIdx + 1) rest :=
        script_active rest (e.advance m).2 (msgIdx + 1) _
      simp only [roster,← scripted,List.append_nil]
      exact congrArg (_ ++ ·) (ih swept (msgIdx + 1))

theorem peak_crowd (messages : List WireMsg) (e : BacktestEngine) (msgIdx : Nat) :
    e.peak msgIdx messages = crowd (attend e.cfg) (e.script msgIdx messages) e.active := by
  induction messages generalizing e msgIdx with
  | nil => rfl
  | cons m rest ih =>
    set tick : Tick := ⟨msgIdx,(e.advance m).1,(e.advance m).2.book⟩ with ticks
    set swept := ((e.advance m).2.sweep tick).2 with sweeps
    have same : swept.places msgIdx = (e.advance m).2.places msgIdx := rfl
    simp only [peak,onMessage,script,← ticks,← sweeps,same]
    split
    next here =>
      have scripted : (swept.placePair msgIdx).script (msgIdx + 1) rest =
          ((e.advance m).2.placePair msgIdx).script (msgIdx + 1) rest :=
        script_active rest ((e.advance m).2.placePair msgIdx) (msgIdx + 1) _
      simp only [crowd,← scripted]
      exact congrArg (max _) (ih (swept.placePair msgIdx) (msgIdx + 1))
    next here =>
      have scripted : swept.script (msgIdx + 1) rest = (e.advance m).2.script (msgIdx + 1) rest :=
        script_active rest (e.advance m).2 (msgIdx + 1) _
      simp only [crowd,← scripted,List.append_nil]
      exact congrArg (max _) (ih swept (msgIdx + 1))

theorem script_consecutive (messages : List WireMsg) (e : BacktestEngine) (msgIdx : Nat) :
    ((e.script msgIdx messages).map Prod.fst).map Tick.msgIdx = List.range' msgIdx messages.length := by
  induction messages generalizing e msgIdx with
  | nil => rfl
  | cons m rest ih =>
    simp only [script,List.length_cons,List.range'_succ]
    split <;> exact congrArg (msgIdx :: ·) (ih _ (msgIdx + 1))

/-- A pair as it is placed: the engine at that moment and what it is still to see. -/
structure Placement where
  engine : BacktestEngine
  msgIdx : Nat
  later : List Tick

def placements (e : BacktestEngine) (msgIdx : Nat) : List WireMsg → List Placement
  | [] => []
  | m :: rest =>
    let e := (e.advance m).2
    if e.places msgIdx then
      ⟨e,msgIdx,((e.placePair msgIdx).script (msgIdx + 1) rest).map Prod.fst⟩ ::
        (e.placePair msgIdx).placements (msgIdx + 1) rest
    else e.placements (msgIdx + 1) rest

/-- The result of an order that sees `ticks` and is closed over the book `closing`. -/
def fateOf (cfg : Config) (closing : OrderBook) : List Tick → ActiveOrder → SimOrderResult :=
  fate (attend cfg) fun ao => finish closing ao .resting cfg.numMessages.toNat

def Placement.results (cfg : Config) (closing : OrderBook) (p : Placement) : SimOrderResult × SimOrderResult :=
  (fateOf cfg closing p.later (p.engine.pair p.msgIdx).1,fateOf cfg closing p.later (p.engine.pair p.msgIdx).2)

theorem joined_placements (cfg : Config) (closing : OrderBook) (messages : List WireMsg)
    (e : BacktestEngine) (msgIdx : Nat) :
    joined (attend cfg) (fun ao => finish closing ao .resting cfg.numMessages.toNat) (e.script msgIdx messages) =
      ((e.placements msgIdx messages).map (Placement.results cfg closing)).flatMap fun p => [p.1,p.2] := by
  induction messages generalizing e msgIdx with
  | nil => rfl
  | cons m rest ih =>
    simp only [script,placements]
    split
    · simp only [joined,ih,List.map_cons,List.flatMap_cons]
      rfl
    · simp only [joined,ih,List.map_nil,List.nil_append]

/-- The most orders the engine rests at a time are those of all its pairs. -/
theorem peak_le (messages : List WireMsg) (e : BacktestEngine) (msgIdx : Nat) (idle : e.active = []) :
    e.peak msgIdx messages ≤ 2 * (e.placements msgIdx messages).length := by
  have newcomers : ∀ (e : BacktestEngine) (msgIdx : Nat),
      ((e.script msgIdx messages).map fun tick => tick.2.length).sum = 2 * (e.placements msgIdx messages).length := by
    induction messages with
    | nil => exact fun _ _ => rfl
    | cons m rest ih =>
      intro e msgIdx
      simp only [script,placements]
      split
      · simp only [List.map_cons,List.sum_cons,ih,List.length_cons,List.length_nil]
        omega
      · simp only [List.map_cons,List.sum_cons,ih,List.length_nil,Nat.zero_add]
  have most := crowd_le (attend e.cfg) (e.script msgIdx messages) e.active
  rw [← peak_crowd,newcomers,idle,List.length_nil,Nat.zero_add] at most
  exact most

theorem replay_perm (messages : List WireMsg) (e : BacktestEngine) (msgIdx : Nat) (idle : e.active = []) :
    (e.replay msgIdx messages).1.Perm
      (((e.placements msgIdx messages).map
        (Placement.results e.cfg (e.replay msgIdx messages).2.book)).flatMap fun p => [p.1,p.2]) := by
  have fates := roster_perm (attend e.cfg)
    (fun ao => finish (e.replay msgIdx messages).2.book ao .resting e.cfg.numMessages.toNat)
    (e.script msgIdx messages) e.active
  rw [← replay_roster,idle,joined_placements] at fates
  exact fates

theorem replay_active (messages : List WireMsg) (e : BacktestEngine) (msgIdx : Nat) :
    (e.replay msgIdx messages).2.active = [] := by
  induction messages generalizing e msgIdx with
  | nil => rfl
  | cons m rest ih => exact ih _ _

theorem places_iff (e : BacktestEngine) (msgIdx : Nat) : e.places msgIdx = true ↔
    msgIdx % e.cfg.placementInterval.toNat = 0 ∧ e.book.hasBid = true ∧ e.book.hasAsk = true := by
  simp [places]

/-- What is known of a placement of a run that starts in `e`. -/
structure Placed (e : BacktestEngine) (msgIdx : Nat) (messages : List WireMsg) (p : Placement) : Prop where
  cfg : p.engine.cfg = e.cfg
  low : msgIdx ≤ p.msgIdx
  high : p.msgIdx < msgIdx + messages.length
  consecutive : p.later.map Tick.msgIdx =
    List.range' (p.msgIdx + 1) (msgIdx + messages.length - (p.msgIdx + 1))
  quotes : p.engine.book.hasBid = true
  book : p.engine.book = (MarketFeed.replay (e.book,e.bookOrders) (messages.take (p.msgIdx + 1 - msgIdx))).1
  qbook : p.engine.qbook = e.qbook.applyAll (messages.take (p.msgIdx + 1 - msgIdx))
  numbered : e.nextId + 1 = 2 * e.nextPairId → p.engine.nextId + 1 = 2 * p.engine.nextPairId

theorem Placed.later {e next : BacktestEngine} {m : WireMsg} {msgIdx : Nat} {rest : List WireMsg}
    {p : Placement} (placed : Placed next (msgIdx + 1) rest p) (cfg : next.cfg = e.cfg)
    (books : (next.book,next.bookOrders) = applyToBook m e.book e.bookOrders)
    (queues : next.qbook = (e.qbook.apply m).2)
    (numbered : e.nextId + 1 = 2 * e.nextPairId → next.nextId + 1 = 2 * next.nextPairId) :
    Placed e msgIdx (m :: rest) p := by
  have low := placed.low
  have high := placed.high
  have consecutive := placed.consecutive
  have step : p.msgIdx + 1 - msgIdx = (p.msgIdx + 1 - (msgIdx + 1)) + 1 := by omega
  have length : msgIdx + 1 + rest.length = msgIdx + (rest.length + 1) := by omega
  rw [length] at consecutive
  refine ⟨placed.cfg.trans cfg,by omega,by simp only [List.length_cons]; omega,consecutive,placed.quotes,?_,?_,?_⟩
  · rw [placed.book,books,step]
    rfl
  · rw [placed.qbook,queues,step]
    rfl
  · exact fun even => placed.numbered (numbered even)

theorem placements_placed (messages : List WireMsg) (e : BacktestEngine) (msgIdx : Nat) :
    ∀ p ∈ e.placements msgIdx messages, Placed e msgIdx messages p := by
  induction messages generalizing e msgIdx with
  | nil => simp [placements]
  | cons m rest ih =>
    intro p member
    simp only [placements] at member
    split at member
    next here =>
      rcases List.mem_cons.mp member with rfl | later
      · have consecutive := script_consecutive rest ((e.advance m).2.placePair msgIdx) (msgIdx + 1)
        have quotes : (e.advance m).2.book.hasBid = true := ((places_iff _ _).mp here).2.1
        refine ⟨rfl,Nat.le_refl _,by simp,?_,quotes,?_,?_,fun even => even⟩
        · rw [consecutive]
          change List.range' _ _ = List.range' (msgIdx + 1) (msgIdx + (rest.length + 1) - (msgIdx + 1))
          congr 1
          omega
        · simp only [Nat.add_sub_cancel_left]
          rfl
        · simp only [Nat.add_sub_cancel_left]
          rfl
      · refine (ih _ _ p later).later rfl rfl rfl ?_
        change e.nextId + 1 = 2 * e.nextPairId → e.nextId + 2 + 1 = 2 * (e.nextPairId + 1)
        intro even
        rw [UInt64.mul_add,← even,UInt64.add_assoc,UInt64.add_assoc]
        rfl
    next => exact (ih _ _ p member).later rfl rfl rfl id

/-- The indices of the messages after which a pair is placed. -/
def placementPoints (cfg : Config) (books : OrderBook × OrderMap) (msgIdx : Nat) : List WireMsg → List Nat
  | [] => []
  | m :: rest =>
    let books := applyToBook m books.1 books.2
    if msgIdx % cfg.placementInterval.toNat = 0 ∧ books.1.hasBid ∧ books.1.hasAsk then
      msgIdx :: placementPoints cfg books (msgIdx + 1) rest
    else placementPoints cfg books (msgIdx + 1) rest

theorem placements_points (messages : List WireMsg) (e : BacktestEngine) (msgIdx first : Nat)
    (numbered : e.nextPairId = .ofNat first) :
    (e.placements msgIdx messages).map (fun p => (p.msgIdx,p.engine.nextPairId)) =
      ((placementPoints e.cfg (e.book,e.bookOrders) msgIdx messages).zipIdx first).map (Prod.map id UInt64.ofNat) := by
  induction messages generalizing e msgIdx first with
  | nil => rfl
  | cons m rest ih =>
    have books : ((e.advance m).2.book,(e.advance m).2.bookOrders) = applyToBook m e.book e.bookOrders := rfl
    have cfg : (e.advance m).2.cfg = e.cfg := rfl
    simp only [placements,placementPoints,← books]
    split
    next here =>
      rw [places_iff,cfg] at here
      have next : ((e.advance m).2.placePair msgIdx).nextPairId = .ofNat (first + 1) := by
        rw [UInt64.ofNat_add,← numbered]
        rfl
      rw [if_pos here,List.zipIdx_cons,List.map_cons,List.map_cons]
      exact congrArg₂ List.cons (Prod.ext rfl numbered) (ih _ (msgIdx + 1) _ next)
    next here =>
      rw [places_iff,cfg] at here
      rw [if_neg here]
      exact ih (e.advance m).2 (msgIdx + 1) first numbered

theorem placementPoints_length (cfg : Config) (books : OrderBook × OrderMap) (msgIdx : Nat) (messages : List WireMsg) :
    (placementPoints cfg books msgIdx messages).length ≤ messages.length := by
  induction messages generalizing books msgIdx with
  | nil => exact Nat.le_refl _
  | cons m rest ih =>
    have later := ih (applyToBook m books.1 books.2) (msgIdx + 1)
    simp only [placementPoints]
    split
    · exact Nat.succ_le_succ later
    · exact later.trans (Nat.le_succ _)

theorem placementPoints_count (cfg : Config) (books : OrderBook × OrderMap) (msgIdx : Nat) (messages : List WireMsg) :
    (placementPoints cfg books msgIdx messages).length + Nat.count (· % cfg.placementInterval.toNat = 0) msgIdx ≤
      Nat.count (· % cfg.placementInterval.toNat = 0) (msgIdx + messages.length) := by
  induction messages generalizing books msgIdx with
  | nil => simp [placementPoints]
  | cons m rest ih =>
    have later := ih (applyToBook m books.1 books.2) (msgIdx + 1)
    have length : msgIdx + 1 + rest.length = msgIdx + (m :: rest).length := by
      rw [List.length_cons]
      omega
    rw [Nat.count_succ,length] at later
    simp only [placementPoints]
    split
    next here =>
      rw [if_pos here.1] at later
      rw [List.length_cons]
      omega
    next => split at later <;> omega

end MarketFeed.BacktestEngine
