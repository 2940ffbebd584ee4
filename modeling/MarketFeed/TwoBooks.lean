import MarketFeed.QueueTracker
import MarketFeed.ShardDepth
import MarketFeed.BacktestResults

/-! The two books of the backtest side by side: aggregated levels are the sums of the queue
entries at their prices, and both order maps tell the same of every id. -/
namespace MarketFeed
open FiniteMap OrderBook

namespace QueuePositionBook

/-- `amount` at the key of a side and a price of one instrument; 0 at what no 64-bit price is. -/
def atPrice (amount : LevelKey → Nat) (instrument : UInt16) (side : Side) (price : Int) : Nat :=
  if (Int64.ofInt price).toInt = price then amount ⟨instrument,side,Int64.ofInt price⟩ else 0

theorem atPrice_toInt (amount : LevelKey → Nat) (instrument : UInt16) (side : Side) (p : Int64) :
    atPrice amount instrument side p.toInt = amount ⟨instrument,side,p⟩ := by
  simp [atPrice]

/-- Two amounts that differ at one key differ there at its price. -/
theorem atPrice_add {more less : LevelKey → Nat} {key : LevelKey} {qty : Nat}
    (differ : ∀ k, more k = less k + if k = key then qty else 0) (side : Side) (price : Int) :
    atPrice more key.instrument side price = atPrice less key.instrument side price +
      if key.side = side ∧ key.priceTicks.toInt = price then qty else 0 := by
  unfold atPrice
  by_cases exact_ : (Int64.ofInt price).toInt = price
  · simp only [exact_,if_true,differ]
    refine congrArg (_ + ·) (if_congr ?_ rfl rfl)
    refine ⟨fun same => by rw [← same]; exact ⟨rfl,exact_⟩,?_⟩
    rintro ⟨rfl,rfl⟩
    simp
  · have away : ¬(key.side = side ∧ key.priceTicks.toInt = price) := by
      rintro ⟨_,rfl⟩
      exact exact_ (by simp)
    rw [if_neg exact_,if_neg exact_,if_neg away]

def amount (book : QueuePositionBook) (key : LevelKey) : Nat := held (book.level key)

theorem amount_pushBack (book : QueuePositionBook) (key k : LevelKey) (orderId : UInt64) (qty : UInt32) :
    (book.pushBack key orderId qty).amount k = book.amount k + if k = key then qty.toNat else 0 := by
  unfold amount
  rw [level_pushBack]
  split
  next same => simp [held,same]
  next => rfl

theorem amount_reduceBy (book : QueuePositionBook) (orderId : UInt64) (qty : UInt32) (isExecute : Bool)
    (loc : Loc) (e : QEntry) (found : book.find orderId = some (loc,e)) (k : LevelKey) :
    book.amount k = (book.reduceBy orderId qty isExecute {}).2.amount k +
      if k = loc.level then (min qty e.qty).toNat else 0 := by
  have reported := reduceBy_reduction book orderId qty isExecute
  rw [found,Option.map_some] at reported
  have ahead := (reduceBy_reduces book orderId qty isExecute).ahead k (2^64)
  rw [held_whole,held_whole] at ahead
  have before : e.seq.toNat < 2^64 := e.seq.toNat_lt
  simp only [taken,reported,before,and_true] at ahead
  simp only [amount,← ahead,eq_comm (a := k)]

theorem amount_reduces {book next : QueuePositionBook} {eff : ApplyEffect} (reduces : Reduces book eff next)
    (key : LevelKey) : next.amount key ≤ book.amount key := by
  have ahead := reduces.ahead key (2^64)
  rw [held_whole,held_whole] at ahead
  exact Nat.le.intro ahead

theorem amount_apply (book : QueuePositionBook) (m : WireMsg) (key : LevelKey) :
    (book.apply m).2.amount key ≤ book.amount key + (2^32 - 1) := by
  have applies := apply_applies book m
  generalize (book.apply m).1 = eff,(book.apply m).2 = next at applies
  cases applies with
  | reduce _ _ reduces => exact (amount_reduces reduces key).trans (Nat.le_add_right _ _)
  | push eff next touched key' orderId qty fresh reduces =>
    have kept := amount_reduces reduces key
    have bound := qty.toNat_lt
    rw [amount_pushBack]
    split <;> omega

end QueuePositionBook

open QueuePositionBook

def resting (found : Loc × QEntry) : RestingLoc := ⟨found.1.level.side,found.1.level.priceTicks,found.2.qty⟩

/-- Both maps say the same of every id. -/
def SameOrders (orders : OrderMap) (qbook : QueuePositionBook) : Prop :=
  ∀ id, orders.lookup id = (qbook.find id).map resting

section Maps
variable {orders : OrderMap} {qbook : QueuePositionBook} (located : Located qbook)
  (same : SameOrders orders qbook)
include located same

theorem sameOrders_push (key : LevelKey) (orderId : UInt64) (qty : UInt32) :
    SameOrders (orders.insert orderId ⟨key.side,key.priceTicks,qty⟩) (qbook.pushBack key orderId qty) := by
  intro id
  rw [lookup_insert_if,pushBack_find located]
  split
  · rfl
  · exact same id

theorem sameOrders_reduce (orderId : UInt64) (qty : UInt32) (isExecute : Bool) (found : Loc × QEntry)
    (known : qbook.find orderId = some found) :
    SameOrders (lessen orders orderId (resting found) (min qty found.2.qty))
      (qbook.reduceBy orderId qty isExecute {}).2 := by
  intro id
  rw [reduceBy_find located orderId id qty isExecute {} found.1 found.2 known]
  rw [lessen_lookup_if]
  split
  · by_cases emptied : found.2.qty - min qty found.2.qty = 0
    · rw [if_pos emptied]
      exact if_pos emptied
    · rw [if_neg emptied]
      exact if_neg emptied
  · exact same id

end Maps

def pricesOf : WireMsg → List Int64
  | .add a => [a.priceTicks]
  | .replace r => [r.priceTicks]
  | _ => []

/-- The books and maps of one instrument in step. -/
structure InStep (instrument : UInt16) (book : OrderBook) (orders : OrderMap) (qbook : QueuePositionBook) :
    Prop where
  located : Located qbook
  same : SameOrders orders qbook
  homes : ∀ key, qbook.level key ≠ [] → key.instrument = instrument ∧ Near book.basePrice key.priceTicks
  levels : ∀ side (k : Fin kLevels),
    (book.side side k).toInt = atPrice qbook.amount instrument side (book.basePrice.toInt + k)

theorem inStep_init (instrument : UInt16) (b : OrderBook) (reference : Int64) :
    InStep instrument (b.init reference) ∅ {} := by
  refine ⟨located_empty,fun id => by simp [find],fun key filled => absurd rfl filled,fun side k => ?_⟩
  have empty (key : LevelKey) : ({} : QueuePositionBook).amount key = 0 := rfl
  cases side <;> simp [OrderBook.side,init,atPrice,empty]

section Step
variable {instrument : UInt16} {book : OrderBook} {orders : OrderMap} {qbook : QueuePositionBook}
  (inStep : InStep instrument book orders qbook)
include inStep

theorem inStep_nonneg (side : Side) (k : Fin kLevels) : 0 ≤ (book.side side k).toInt := by
  rw [inStep.levels]
  exact Int.natCast_nonneg _

theorem inStep_push (side : Side) (p : Int64) (orderId : UInt64) (qty : UInt32) (near : Near book.basePrice p)
    (fits : InBand book.basePrice p → (qbook.pushBack ⟨instrument,side,p⟩ orderId qty).amount ⟨instrument,side,p⟩ < 2^63) :
    InStep instrument (book.call (.add side p qty)) (orders.insert orderId ⟨side,p,qty⟩)
      (qbook.pushBack ⟨instrument,side,p⟩ orderId qty) := by
  have grown (key : LevelKey) := amount_pushBack qbook ⟨instrument,side,p⟩ key orderId qty
  refine ⟨pushBack_located inStep.located _ _ _,sameOrders_push inStep.located inStep.same ⟨instrument,side,p⟩ _ _,?_,?_⟩
  · intro key filled
    rw [call_basePrice]
    rw [level_pushBack] at filled
    split at filled
    next same =>
      subst same
      exact ⟨rfl,near⟩
    next => exact inStep.homes key filled
  · intro other k
    rw [call_basePrice,atPrice_add grown other]
    have before := inStep.levels other k
    simp only [call,add_side,level_near book p near]
    by_cases here : p.toInt = book.basePrice.toInt + k ∧ side = other
    · obtain ⟨price,rfl⟩ := here
      have bound := k.isLt
      have fits := fits ⟨by omega,by omega⟩
      rw [grown,if_pos rfl] at fits
      rw [← price,atPrice_toInt] at before
      rw [if_pos ⟨price,rfl⟩,if_pos ⟨rfl,price⟩,Word.toInt_add_widen _ _ (by omega) (by omega),before,← price,
        atPrice_toInt]
      rfl
    · rw [if_neg here,if_neg (and_comm.not.mp here)]
      exact before

theorem inStep_reduce (orderId : UInt64) (qty : UInt32) (isExecute : Bool) (found : Loc × QEntry)
    (known : qbook.find orderId = some found) :
    InStep instrument
      (book.call (.reduce (resting found).side (resting found).priceTicks (min qty (resting found).qty)))
      (lessen orders orderId (resting found) (min qty (resting found).qty))
      (qbook.reduceBy orderId qty isExecute {}).2 := by
  obtain ⟨loc,e⟩ := found
  have shrunk := amount_reduceBy qbook orderId qty isExecute loc e known
  have filled : qbook.level loc.level ≠ [] := by
    obtain ⟨node,member,_⟩ := find_entry qbook orderId loc e known
    exact List.ne_nil_of_mem member
  obtain ⟨home,near⟩ := inStep.homes loc.level filled
  refine ⟨reduceBy_located inStep.located _ _ _ _,sameOrders_reduce inStep.located inStep.same _ _ _ _ known,?_,?_⟩
  · intro key remains
    rw [call_basePrice]
    refine inStep.homes key fun empty => remains ?_
    obtain ⟨node,member⟩ := List.exists_mem_of_ne_nil _ remains
    obtain ⟨old,inside,_⟩ := (reduceBy_reduces qbook orderId qty isExecute).entries key node member
    simp [empty] at inside
  · intro other k
    have before := inStep.levels other k
    have nonneg := inStep_nonneg inStep other k
    rw [call_basePrice]
    subst home
    rw [atPrice_add shrunk other] at before
    simp only [call,reduce_side,level_near book _ near,resting]
    by_cases here : loc.level.priceTicks.toInt = book.basePrice.toInt + k ∧ loc.level.side = other
    · rw [if_pos here,reduced_toInt _ _ nonneg]
      rw [if_pos (and_comm.mp here)] at before
      omega
    · rw [if_neg here]
      rw [if_neg (and_comm.not.mp here)] at before
      exact before

theorem inStep_reduceBy (orderId : UInt64) (qty : UInt32) (isExecute : Bool) :
    InStep instrument
      (book.calls ((orders.lookup orderId).elim [] fun loc =>
        [.reduce loc.side loc.priceTicks (min qty loc.qty)]))
      ((orders.lookup orderId).elim orders fun loc => lessen orders orderId loc (min qty loc.qty))
      (qbook.reduceBy orderId qty isExecute {}).2 := by
  rw [inStep.same orderId]
  cases known : qbook.find orderId with
  | none => simpa [reduceBy,find_unknown inStep.located orderId known] using inStep
  | some found => exact inStep_reduce inStep orderId qty isExecute found known

theorem inStep_apply (m : WireMsg) (single : m.header.instrumentId = instrument)
    (near : ∀ p ∈ pricesOf m, Near book.basePrice p)
    (fits : ∀ side p, InBand book.basePrice p → (qbook.apply m).2.amount ⟨instrument,side,p⟩ < 2^63) :
    InStep instrument (book.calls (bookCalls m orders.lookup)) (trackOrders m orders) (qbook.apply m).2 := by
  cases m with
  | zero => exact inStep
  | add a =>
    obtain rfl : a.header.instrumentId = instrument := single
    exact inStep_push inStep a.side a.priceTicks a.orderId a.qty (near _ (by simp [pricesOf])) (fits a.side a.priceTicks)
  | exec e => exact inStep_reduceBy inStep e.orderId e.execQty true
  | cancel c => exact inStep_reduceBy inStep c.orderId c.cancelQty false
  | del d =>
    simp only [bookCalls,trackOrders,apply,inStep.same d.orderId]
    cases known : qbook.find d.orderId with
    | none => exact inStep
    | some found =>
      have reduced := inStep_reduce inStep d.orderId found.2.qty false found known
      have whole : min found.2.qty (resting found).qty = (resting found).qty := Std.min_self
      rwa [whole,lessen_all] at reduced
  | replace r =>
    obtain rfl : r.header.instrumentId = instrument := single
    simp only [bookCalls,trackOrders,apply,inStep.same r.oldOrderId] at fits ⊢
    cases known : qbook.find r.oldOrderId with
    | none => exact inStep
    | some found =>
      have reduced := inStep_reduce inStep r.oldOrderId found.2.qty false found known
      have whole : min found.2.qty (resting found).qty = (resting found).qty := Std.min_self
      rw [whole,lessen_all] at reduced
      simp only [known] at fits
      have near := near r.priceTicks (by simp [pricesOf])
      refine inStep_push reduced (resting found).side r.priceTicks r.newOrderId r.qty ?_ ?_
      · rwa [call_basePrice]
      · rw [call_basePrice]
        exact fits (resting found).side r.priceTicks

end Step

/-- What a reader of both books sees. -/
structure BooksAgree (instrument : UInt16) (book : OrderBook) (orders : OrderMap) (qbook : QueuePositionBook) :
    Prop where
  levels : ∀ side p, InBand book.basePrice p →
    (book.qtyAt side p).toInt = held (qbook.level ⟨instrument,side,p⟩)
  ids : ∀ id, (orders.lookup id).isSome = (qbook.orders.lookup id).isSome
  orders : ∀ id loc, orders.lookup id = some loc → ∃ resting e, qbook.find id = some (resting,e) ∧
    loc = ⟨resting.level.side,resting.level.priceTicks,e.qty⟩

theorem InStep.agree {instrument : UInt16} {book : OrderBook} {orders : OrderMap} {qbook : QueuePositionBook}
    (inStep : InStep instrument book orders qbook) : BooksAgree instrument book orders qbook := by
  refine ⟨fun side p inside => ?_,fun id => ?_,fun id loc found => ?_⟩
  · obtain ⟨low,high⟩ := inside
    have near : Near book.basePrice p := by
      have size : (kLevels : Int) = 16384 := rfl
      exact ⟨by omega,by omega⟩
    have inside : (p.toInt - book.basePrice.toInt).toNat < kLevels := by omega
    have price : p.toInt = book.basePrice.toInt + ((p.toInt - book.basePrice.toInt).toNat : Int) := by omega
    have located := (level_near book p near ⟨_,inside⟩).mpr price
    rw [qtyAt,located,inStep.levels]
    change (atPrice _ _ _ (book.basePrice.toInt + ((p.toInt - book.basePrice.toInt).toNat : Int)) : Int) = _
    rw [← price,atPrice_toInt]
    rfl
  · rw [inStep.same]
    cases known : qbook.orders.lookup id with
    | none => simp [find,known]
    | some loc =>
      obtain ⟨e,found,_⟩ := find_known inStep.located id loc known
      simp [found]
  · rw [inStep.same] at found
    obtain ⟨⟨loc',e⟩,known,rfl⟩ := Option.map_eq_some_iff.mp found
    exact ⟨loc',e,known,rfl⟩

section Stream
variable (b : OrderBook) (reference : Int64) (instrument : UInt16) (messages : List WireMsg)

/-- The exact sums of a stream stay within what a level can hold. -/
def AmountsFit : Prop := ∀ done, done <+: messages → ∀ side p, InBand (b.init reference).basePrice p →
  held ((({} : QueuePositionBook).applyAll done).level ⟨instrument,side,p⟩) < 2^63

variable {b reference instrument messages}

theorem replay_basePrice (done : List WireMsg) :
    (replay (b.init reference,∅) done).1.basePrice = (b.init reference).basePrice := by
  induction done using List.reverseRecOn with
  | nil => rfl
  | append_singleton done m ih => rw [replay_concat,applyToBook_eq,calls_basePrice,ih]

/-- No stream of at most 2^31 messages brings more to a level than it can hold. -/
theorem short_amountsFit (short : messages.length ≤ 2^31) : AmountsFit b reference instrument messages := by
  have grown (done : List WireMsg) (key : LevelKey) :
      (({} : QueuePositionBook).applyAll done).amount key ≤ done.length * (2^32 - 1) := by
    induction done using List.reverseRecOn with
    | nil => exact Nat.le_refl 0
    | append_singleton done m ih =>
      have step := amount_apply (({} : QueuePositionBook).applyAll done) m key
      have queue : ({} : QueuePositionBook).applyAll (done ++ [m]) =
          ((({} : QueuePositionBook).applyAll done).apply m).2 := Prefix.foldl_concat _ _ _ _
      rw [queue,List.length_append,List.length_singleton]
      omega
  intro done before side p _
  have bound := grown done ⟨instrument,side,p⟩
  have length := before.length_le
  unfold amount at bound
  omega

theorem inStep_replay (single : ∀ m ∈ messages, m.header.instrumentId = instrument)
    (near : ∀ m ∈ messages, ∀ p ∈ pricesOf m, Near (b.init reference).basePrice p)
    (fits : AmountsFit b reference instrument messages) : ∀ done, done <+: messages →
      InStep instrument (replay (b.init reference,∅) done).1 (replay (b.init reference,∅) done).2
        (({} : QueuePositionBook).applyAll done) := by
  apply Prefix.invariant_prefix messages
  · exact inStep_init instrument b reference
  · intro done m rest split inStep
    have member : m ∈ messages := by simp [split]
    have queue : ({} : QueuePositionBook).applyAll (done ++ [m]) =
        ((({} : QueuePositionBook).applyAll done).apply m).2 := Prefix.foldl_concat _ _ _ _
    have sums := fits _ (Prefix.prefix_of_split split).2
    rw [queue] at sums
    rw [replay_concat,applyToBook_eq,queue]
    refine inStep_apply inStep m (single m member) ?_ ?_
    · rw [replay_basePrice]
      exact near m member
    · rw [replay_basePrice]
      exact sums

end Stream

theorem call_bestBidIdx (b : OrderBook) (c : Call) (inside : b.bestBidIdx < kLevels) :
    (b.call c).bestBidIdx < kLevels := by
  have walked (levels : Levels) : walkBid levels b.bestBidIdx < kLevels := by
    rcases (Extremum.walkDown_greatest (occupiedAt levels) (b.bestBidIdx + 1).toNat).1 with none_ | ⟨k,low,_,here⟩
    · rw [walkBid,none_]
      decide
    · rw [walkBid,here]
      omega
  cases c with
  | add side p qty =>
    simp only [call,add]
    cases b.level p with
    | none => exact inside
    | some k =>
      have bound : (k : Int) < kLevels := by exact_mod_cast k.isLt
      cases side with
      | buy =>
        simp only
        split
        · exact bound
        · exact inside
      | sell => exact inside
  | reduce side p qty =>
    simp only [call,reduce]
    cases b.level p with
    | none => exact inside
    | some k =>
      cases side with
      | buy =>
        simp only
        split
        · exact walked _
        · exact inside
      | sell => exact inside

theorem calls_bestBidIdx (b : OrderBook) (cs : List Call) (inside : b.bestBidIdx < kLevels) :
    (b.calls cs).bestBidIdx < kLevels := by
  induction cs generalizing b with
  | nil => exact inside
  | cons c cs ih => exact ih _ (call_bestBidIdx b c inside)

theorem replay_bestBidIdx (b : OrderBook) (reference : Int64) (done : List WireMsg) :
    (replay (b.init reference,∅) done).1.bestBidIdx < kLevels := by
  induction done using List.reverseRecOn with
  | nil => exact (by decide : (-1 : Int) < kLevels)
  | append_singleton done m ih =>
    rw [replay_concat,applyToBook_eq]
    exact calls_bestBidIdx _ _ ih

/-- The entries at the best bid are what the best bid shows. Where the band runs past the last
64-bit price, both are nothing. -/
theorem InStep.touch {instrument : UInt16} {book : OrderBook} {orders : OrderMap} {qbook : QueuePositionBook}
    (inStep : InStep instrument book orders qbook) (inside : book.bestBidIdx < kLevels)
    (quotes : book.hasBid = true) :
    book.bestBidQty.toInt = held (qbook.level ⟨instrument,.buy,book.bestBidTicks⟩) := by
  have low : 0 ≤ book.bestBidIdx := by simpa [hasBid] using quotes
  obtain ⟨k,best⟩ : ∃ k : Fin kLevels, book.bestBidIdx = k := ⟨⟨book.bestBidIdx.toNat,by omega⟩,by simp [low]⟩
  have shown := inStep.levels .buy k
  have size : kLevels = 16384 := rfl
  have bound := k.isLt
  have lowest := book.basePrice.le_toInt
  have highest := book.basePrice.toInt_lt
  have index : (Int64.ofInt (k : Nat)).toInt = (k : Nat) := Int64.toInt_ofInt_of_le (by omega) (by omega)
  rw [bestBidQty,if_pos quotes,best,readAt_coe,bestBidTicks,best]
  refine shown.trans ?_
  by_cases real : book.basePrice.toInt + (k : Nat) < 2^63
  · have price := Word.toInt_add_ofInt book.basePrice (k : Nat) (Int.natCast_nonneg _) (by omega) real
    rw [← price,atPrice_toInt]
    rfl
  · have absent : (Int64.ofInt (book.basePrice.toInt + (k : Nat))).toInt ≠ book.basePrice.toInt + (k : Nat) := by
      have := (Int64.ofInt (book.basePrice.toInt + (k : Nat))).toInt_lt
      omega
    have wrapped : (book.basePrice + Int64.ofInt (k : Nat)).toInt = book.basePrice.toInt + (k : Nat) - 2^64 := by
      rw [Int64.toInt_add,index,← Int.sub_bmod_right]
      exact Int.bmod_eq_of_le (by omega) (by omega)
    have empty : qbook.level ⟨instrument,.buy,book.basePrice + Int64.ofInt (k : Nat)⟩ = [] := by
      by_contra filled
      obtain ⟨_,near,_⟩ := inStep.homes _ filled
      simp only [wrapped] at near
      omega
    rw [atPrice,if_neg absent,empty]
    rfl

/-- On one stream of one instrument the aggregated book and the queue book tell the same of
every level and every id, and so a placed pair records what the best bid shows. -/
theorem books_agree (b : OrderBook) (reference : Int64) (instrument : UInt16) (messages : List WireMsg)
    (single : ∀ m ∈ messages, m.header.instrumentId = instrument)
    (near : ∀ m ∈ messages, ∀ p ∈ pricesOf m, Near (b.init reference).basePrice p)
    (fits : AmountsFit b reference instrument messages) :
    (∀ done, done <+: messages →
      BooksAgree instrument (replay (b.init reference,∅) done).1 (replay (b.init reference,∅) done).2
        (({} : QueuePositionBook).applyAll done)) ∧
    ∀ cfg message, BacktestEngine.stream cfg message = messages → instrument = 0 →
      ∀ r ∈ (BacktestEngine.runOn cfg reference message).1,
        held ((({} : QueuePositionBook).applyAll (messages.take (r.placedMsgIdx + 1))).level
          ⟨0,.buy,r.priceTicks⟩) < 2^32 →
        (r.aheadQtyAtPlace.toNat : Int) =
          (replay (OrderBook.init {} reference,∅) (messages.take (r.placedMsgIdx + 1))).1.bestBidQty.toInt := by
  refine ⟨fun done before => (inStep_replay single near fits done before).agree,?_⟩
  rintro cfg message rfl rfl r member small
  obtain ⟨p,placed,ao,own,closing,outcome,msgIdx,rfl⟩ :=
    BacktestEngine.results_placed cfg reference message r member
  have book : p.engine.book = (replay (OrderBook.init {} reference,∅)
      ((BacktestEngine.stream cfg message).take (p.msgIdx + 1))).1 := placed.book
  have qbook : p.engine.qbook = ({} : QueuePositionBook).applyAll
      ((BacktestEngine.stream cfg message).take (p.msgIdx + 1)) := placed.qbook
  have near : ∀ m ∈ BacktestEngine.stream cfg message, ∀ price ∈ pricesOf m,
      Near (OrderBook.init {} reference).basePrice price := near
  have fits : AmountsFit {} reference 0 (BacktestEngine.stream cfg message) := fits
  have inStep := inStep_replay single near fits _ (List.take_prefix (p.msgIdx + 1) _)
  rw [← book,← qbook] at inStep
  have inside : p.engine.book.bestBidIdx < kLevels := by
    rw [book]
    exact replay_bestBidIdx {} reference _
  have shown := inStep.touch inside placed.quotes
  obtain ⟨level,idx,ahead⟩ := BacktestEngine.pair_recorded own
  simp only [BacktestEngine.finish,ahead,level,idx] at small ⊢
  rw [← qbook] at small
  rw [← book]
  refine Eq.trans ?_ shown.symm
  rw [UInt32.toNat_toUInt64,levelTotalQty,UInt64.toNat_toUInt32,total_toNat]
  omega

theorem near_reference : Near (OrderBook.init {} 10000).basePrice 10000 := ⟨by decide,by decide⟩

def twoMessages (i : Nat) : WireMsg :=
  if i = 0 then .add ⟨⟨0,0⟩,1,.buy,10000,50⟩ else .exec ⟨⟨0,0⟩,1,20⟩

theorem books_agree_traded :
    BooksAgree 0 (replay (OrderBook.init {} 10000,∅) ((List.range 2).map twoMessages)).1
      (replay (OrderBook.init {} 10000,∅) ((List.range 2).map twoMessages)).2
      (({} : QueuePositionBook).applyAll ((List.range 2).map twoMessages)) :=
  (books_agree {} 10000 0 ((List.range 2).map twoMessages) (by decide)
    (by simp [List.range_succ,twoMessages,pricesOf,near_reference]) (short_amountsFit (by decide))).1 _
    (List.prefix_refl _)

theorem flood_amount (n : Nat) :
    (({} : QueuePositionBook).applyAll (Shard.flood n)).amount ⟨0,.buy,10000⟩ = n * (2^32 - 1) := by
  induction n with
  | zero => rfl
  | succ n ih =>
    have queue : ({} : QueuePositionBook).applyAll (Shard.flood (n + 1)) =
        (({} : QueuePositionBook).applyAll (Shard.flood n)).pushBack ⟨0,.buy,10000⟩ (UInt64.ofNat n) 4294967295 := by
      rw [Shard.flood_succ]
      exact Prefix.foldl_concat _ _ _ _
    rw [queue,amount_pushBack,ih,if_pos rfl]
    exact (Nat.succ_mul n _).symm

/-- The queue book holds 2^31 + 1 such orders at one price, a level of the other cannot. -/
theorem flood_disagrees :
    (∀ m ∈ Shard.flood (2^31 + 1), m.header.instrumentId = 0 ∧
      ∀ p ∈ pricesOf m, Near (OrderBook.init {} 10000).basePrice p) ∧
    ¬∀ done, done <+: Shard.flood (2^31 + 1) →
      BooksAgree 0 (replay (OrderBook.init {} 10000,∅) done).1 (replay (OrderBook.init {} 10000,∅) done).2
        (({} : QueuePositionBook).applyAll done) := by
  refine ⟨?_,fun agree => ?_⟩
  · intro m member
    obtain ⟨i,_,rfl⟩ := List.mem_map.mp member
    refine ⟨rfl,fun p own => ?_⟩
    obtain rfl := List.mem_singleton.mp own
    exact near_reference
  · have report := (agree _ (List.prefix_refl _)).levels .buy 10000 ⟨by rw [replay_basePrice]; decide,
      by rw [replay_basePrice]; decide⟩
    have total : held ((({} : QueuePositionBook).applyAll (Shard.flood (2^31 + 1))).level ⟨0,.buy,10000⟩) =
      (2^31 + 1) * (2^32 - 1) := flood_amount _
    rw [total] at report
    have bound := Int64.toInt_lt (OrderBook.qtyAt
      (replay (OrderBook.init {} 10000,∅) (Shard.flood (2^31 + 1))).1 .buy 10000)
    omega

end MarketFeed
