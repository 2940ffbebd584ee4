import MarketFeed.GeneratedQueues
import MarketFeed.Library.Window

/-! The long replay of the queue-position reference test: orders spawned along the stream are followed
for a while, and after every message each tracker is compared with the scan of its level. -/
namespace MarketFeed.QueueReference
open BacktestEngine QueuePositionBook FastAheadTracker Window

/-- `Tracked` of the test. -/
structure Tracked where
  level : LevelKey
  seq : UInt64
  spawnedAt : Nat
  tracker : FastAheadTracker

def spawnEvery : Nat := 400
def maxAge : Nat := 2500
def maxConcurrent : Nat := 10

/-- The variables of the loop; the counters are as wide as they need to be. -/
structure LongReplay where
  qbook : QueuePositionBook := {}
  book : OrderBook
  bookOrders : OrderMap := ∅
  tracked : List Tracked := []
  mismatches : Nat := 0
  comparisons : Nat := 0
  fillsObserved : Nat := 0

def Tracked.consume (eff : ApplyEffect) (t : Tracked) : Tracked := { t with tracker := (t.tracker.consume eff).2 }

/-- `static_cast<int64_t>(oracle) != t.tracker.ahead_qty()`. -/
def Tracked.mismatches (qbook : QueuePositionBook) (t : Tracked) : Bool :=
  (qbook.qtyAheadOfSeq t.level t.seq).toInt64 ≠ t.tracker.aheadQty

def spawn (qbook : QueuePositionBook) (book : OrderBook) (i : Nat) : Tracked :=
  let key : LevelKey := ⟨0,.buy,book.bestBidTicks⟩
  let seq := qbook.currentSeq
  let ahead := (qbook.levelTotalQty key).toUInt64
  ⟨key,seq,i,construct key seq ahead⟩

/-- The body of the loop; the test's switch is `apply_to_book`, branch by branch. -/
def onMessage (s : LongReplay) (i : Nat) (m : WireMsg) : LongReplay :=
  let (book,bookOrders) := applyToBook m s.book s.bookOrders
  let (eff,qbook) := s.qbook.apply m
  let fills := s.tracked.countP fun t => (t.tracker.consume eff).1
  let tracked := s.tracked.map (Tracked.consume eff)
  let kept := tracked.dropWhile fun t => i - t.spawnedAt > maxAge
  { qbook := qbook
    book := book
    bookOrders := bookOrders
    tracked := if i % spawnEvery = 0 ∧ book.hasBid ∧ kept.length < maxConcurrent then kept ++ [spawn qbook book i] else kept
    mismatches := s.mismatches + tracked.countP (Tracked.mismatches qbook)
    comparisons := s.comparisons + tracked.length
    fillsObserved := s.fillsObserved + fills }

def replayFrom (s : LongReplay) (i : Nat) : List WireMsg → LongReplay
  | [] => s
  | m :: rest => replayFrom (onMessage s i m) (i + 1) rest

def longReplay (reference : Int64) (messages : List WireMsg) : LongReplay :=
  replayFrom { book := OrderBook.init {} reference } 0 messages

/-- `long_replay_diff`, for any engine instead of the one seeded with 321. -/
def longReplayDiff (rng : Nat → Draw) (numMessages : Nat) : LongReplay :=
  let sim := MarketSimulator.construct rng 1
  longReplay (sim.refPrice 0) (sim.generated numMessages)

/-! The replay from scratch -/

section Scratch
variable (reference : Int64) (messages : List WireMsg)

def spawns (j : Nat) : Bool := j % spawnEvery = 0 ∧ (booksAt reference messages (j + 1)).1.hasBid

/-- The level the order spawned after message `j` stands at. -/
def levelAt (j : Nat) : LevelKey := ⟨0,.buy,(booksAt reference messages (j + 1)).1.bestBidTicks⟩

def seqAt (j : Nat) : UInt64 := (queueAt messages (j + 1)).currentSeq

/-- The messages below `i` at which the order spawned after message `j` is compared. -/
def watched (j i : Nat) : List Nat := List.range' (j + 1) (min (maxAge + 1) (i - (j + 1)))

def young (i j : Nat) : Bool := i ≤ j + maxAge + 1

/-- The order spawned after message `j` once the first `i` have passed. -/
def trackedAt (i j : Nat) : Tracked :=
  ⟨levelAt reference messages j,seqAt messages j,j,trackedTo messages j (levelAt reference messages j) i⟩

def spawned (i : Nat) : List Nat := (List.range i).filter (spawns reference messages)

/-- The replay has taken the first `i` messages. -/
structure Standing (s : LongReplay) (i : Nat) : Prop where
  books : (s.book,s.bookOrders) = booksAt reference messages i
  queue : s.qbook = queueAt messages i
  tracked : s.tracked = ((spawned reference messages i).filter (young i)).map (trackedAt reference messages i)
  mismatches : s.mismatches = 0
  comparisons : s.comparisons = ((spawned reference messages i).map fun j => (watched j i).length).sum
  fillsObserved : s.fillsObserved = ((spawned reference messages i).map fun j =>
    (watched j i).countP (tradesThrough messages (levelAt reference messages j) (seqAt messages j))).sum

end Scratch

theorem watched_next {j i : Nat} (before : j < i) : watched j (i + 1) = watched j i ++ if young i j then [i] else [] := by
  unfold watched young
  by_cases here : i ≤ j + maxAge + 1
  · have more : min (maxAge + 1) (i + 1 - (j + 1)) = min (maxAge + 1) (i - (j + 1)) + 1 := by omega
    have last : j + 1 + min (maxAge + 1) (i - (j + 1)) = i := by omega
    rw [more,List.range'_1_concat,last]
    simp [here]
  · have same : min (maxAge + 1) (i + 1 - (j + 1)) = min (maxAge + 1) (i - (j + 1)) := by omega
    rw [same]
    simp [here]

theorem watched_self (j : Nat) : watched j (j + 1) = [] := by simp [watched]

/-- Orders are spawned so far apart that the bound on their number is never met. -/
theorem spawned_few (reference : Int64) (messages : List WireMsg) (i : Nat) :
    ((spawned reference messages i).filter (young (i + 1))).length < maxConcurrent := by
  have spaced : ((spawned reference messages i).filter (young (i + 1))).Pairwise fun a b => a + spawnEvery ≤ b := by
    rw [spawned,List.filter_filter]
    refine List.Pairwise.imp_of_mem ?_ (List.pairwise_lt_range.filter _)
    intro a b inA inB less
    have stepA := (List.mem_filter.mp inA).2
    have stepB := (List.mem_filter.mp inB).2
    simp only [spawns,Bool.and_eq_true,decide_eq_true_eq] at stepA stepB
    unfold spawnEvery at *
    omega
  have within : ∀ j ∈ (spawned reference messages i).filter (young (i + 1)), i - maxAge ≤ j ∧ j ≤ i := by
    intro j member
    obtain ⟨inside,recent⟩ := List.mem_filter.mp member
    have below := List.mem_range.mp (List.mem_filter.mp inside).1
    simp only [young,decide_eq_true_eq] at recent
    omega
  have bounded := spaced_length spawnEvery (i - maxAge) i _ spaced within
  unfold spawnEvery maxAge at bounded
  unfold maxConcurrent
  omega

section Matches
variable {messages : List WireMsg} {key : LevelKey}

/-- The tracker's count is the scan's, in every position. -/
theorem trackedTo_matches (few : messages.countP introduces < 2^64) {j i : Nat}
    (small : held ((queueAt messages (j + 1)).level key) < 2^32) (after : j + 1 ≤ i) :
    ((queueAt messages i).qtyAheadOfSeq key (queueAt messages (j + 1)).currentSeq).toInt64 =
      (trackedTo messages j key i).aheadQty := by
  have whole := few
  rw [← List.take_append_drop (j + 1) messages] at whole
  have follows := placed_until whole rfl small (List.take_append_drop (i - (j + 1)) (messages.drop (j + 1))).symm
  have agrees := follows.ahead.trans (congrArg Nat.cast follows.oracle.symm)
  have standing := fed_to messages key after
  rw [queueAt] at standing
  rw [standing] at agrees
  change (trackedTo messages j key i).aheadQty.toInt =
    ((queueAt messages i).qtyAheadOfSeq key (queueAt messages (j + 1)).currentSeq).toNat at agrees
  generalize (queueAt messages i).qtyAheadOfSeq key (queueAt messages (j + 1)).currentSeq = oracle at *
  have wrapped : oracle.toInt64.toInt = Int.bmod oracle.toNat 18446744073709551616 :=
    BitVec.toInt_eq_toNat_bmod oracle.toBitVec
  rw [← Int64.toInt_inj,wrapped,← agrees]
  exact Int64.toInt_bmod _

end Matches

/-- What the body leaves, in terms of the books after the message. -/
theorem onMessage_parts (s : LongReplay) (i : Nat) (m : WireMsg) :
    let effect := (s.qbook.apply m).1
    let after := onMessage s i m
    let tracked := s.tracked.map (Tracked.consume effect)
    let kept := tracked.dropWhile fun t => i - t.spawnedAt > maxAge
    after.tracked = (if i % spawnEvery = 0 ∧ after.book.hasBid ∧ kept.length < maxConcurrent then
      kept ++ [spawn after.qbook after.book i] else kept) ∧
    after.mismatches = s.mismatches + tracked.countP (Tracked.mismatches after.qbook) ∧
    after.comparisons = s.comparisons + tracked.length ∧
    after.fillsObserved = s.fillsObserved + s.tracked.countP fun t => (t.tracker.consume effect).1 := ⟨rfl,rfl,rfl,rfl⟩

section Step
variable {reference : Int64} {messages : List WireMsg} {s : LongReplay} {i : Nat} {m : WireMsg} {rest : List WireMsg}
  (tracked : BacktestEngine.Tracked reference messages) (standing : Standing reference messages s i)
  (left : messages.drop i = m :: rest)

theorem spawned_next : spawned reference messages (i + 1) =
    spawned reference messages i ++ if spawns reference messages i then [i] else [] := by
  rw [spawned,List.range_succ,List.filter_append,List.filter_singleton]
  cases spawns reference messages i <;> rfl

theorem spawned_below {j : Nat} (member : j ∈ spawned reference messages i) : j < i :=
  List.mem_range.mp (List.mem_filter.mp member).1

include standing left

theorem consumed_at : s.tracked.map (Tracked.consume ((queueAt messages i).apply m).1) =
    ((spawned reference messages i).filter (young i)).map (trackedAt reference messages (i + 1)) := by
  obtain ⟨_,_,_,here,inside⟩ := take_next left
  obtain rfl := Option.some.inj ((List.getElem?_eq_getElem inside).symm.trans here)
  rw [standing.tracked,List.map_map]
  refine List.map_congr_left fun j member => ?_
  have before := spawned_below (List.mem_filter.mp member).1
  simp only [Function.comp_apply,Tracked.consume,trackedAt,trackedTo_next before inside]

include tracked

theorem fills_at : (s.tracked.countP fun t => (t.tracker.consume ((queueAt messages i).apply m).1).1) =
    (spawned reference messages i).countP fun j =>
      tradesThrough messages (levelAt reference messages j) (seqAt messages j) i && young i j := by
  obtain ⟨_,_,_,here,inside⟩ := take_next left
  obtain rfl := Option.some.inj ((List.getElem?_eq_getElem inside).symm.trans here)
  rw [standing.tracked,List.countP_map,List.countP_filter]
  refine List.countP_congr fun j member => ?_
  have before := spawned_below member
  have fills := trackedTo_fills tracked.few (tracked.small j (Nat.lt_trans before inside)) before inside
  simp only [Function.comp_apply,trackedAt,levelAt,seqAt,fills]

theorem matches_at : (s.tracked.map (Tracked.consume ((queueAt messages i).apply m).1)).countP
    (Tracked.mismatches (queueAt messages (i + 1))) = 0 := by
  obtain ⟨_,_,_,_,inside⟩ := take_next left
  rw [consumed_at standing left,List.countP_eq_zero]
  intro t member
  obtain ⟨j,chosen,rfl⟩ := List.mem_map.mp member
  have before := spawned_below (List.mem_filter.mp chosen).1
  have matches_ := trackedTo_matches tracked.few (tracked.small j (Nat.lt_trans before inside)) (Nat.le_succ_of_le before)
  simp only [Tracked.mismatches,trackedAt,levelAt,seqAt,matches_,ne_eq,not_true_eq_false,decide_false,
    Bool.false_eq_true,not_false_eq_true]

omit tracked

theorem kept_at : ((s.tracked.map (Tracked.consume ((queueAt messages i).apply m).1)).dropWhile fun t =>
      i - t.spawnedAt > maxAge) =
    ((spawned reference messages i).filter (young (i + 1))).map (trackedAt reference messages (i + 1)) := by
  have ordered : ((spawned reference messages i).filter (young i)).Pairwise (· < ·) :=
    (List.pairwise_lt_range.filter _).filter _
  rw [consumed_at standing left,dropWhile_ordered,List.filter_map,List.filter_filter]
  · refine congrArg (List.map _) (List.filter_congr fun j _ => ?_)
    change (!decide (maxAge < i - j) && decide (i ≤ j + maxAge + 1)) = decide (i + 1 ≤ j + maxAge + 1)
    rw [← decide_not,← Bool.decide_and]
    exact decide_eq_decide.mpr (by omega)
  · rw [List.pairwise_map]
    refine ordered.imp fun {a b} less gone => ?_
    have gone : maxAge < i - b := of_decide_eq_true gone
    have older : maxAge < i - a := by omega
    exact decide_eq_true older

include tracked

theorem standing_next : Standing reference messages (onMessage s i m) (i + 1) := by
  have books : ((onMessage s i m).book,(onMessage s i m).bookOrders) = booksAt reference messages (i + 1) := by
    rw [booksAt_next reference left,← standing.books]
    rfl
  have book : (onMessage s i m).book = (booksAt reference messages (i + 1)).1 := congrArg Prod.fst books
  have queue : (onMessage s i m).qbook = queueAt messages (i + 1) := by
    rw [queueAt_next left,← standing.queue]
    rfl
  have consumed := consumed_at standing left
  have kept := kept_at standing left
  have few := spawned_few reference messages i
  have late : young (i + 1) i = true := by simp [young]
  obtain ⟨roster,mismatches,comparisons,fills⟩ := onMessage_parts s i m
  simp only [standing.queue] at roster mismatches comparisons fills
  refine ⟨books,queue,?_,?_,?_,?_⟩
  · have newcomer : spawn (onMessage s i m).qbook (onMessage s i m).book i = trackedAt reference messages (i + 1) i := by
      rw [queue,book,trackedAt,trackedTo_start]
      rfl
    rw [roster,newcomer,kept,List.length_map,book,spawned_next,List.filter_append,List.map_append]
    by_cases placed : spawns reference messages i = true
    · have both := placed
      simp only [spawns,decide_eq_true_eq] at both
      simp [placed,both,few,late]
    · have neither := placed
      simp only [spawns,decide_eq_true_eq] at neither
      have refused : ¬(i % spawnEvery = 0 ∧ (booksAt reference messages (i + 1)).1.hasBid = true ∧
          ((spawned reference messages i).filter (young (i + 1))).length < maxConcurrent) :=
        fun all => neither ⟨all.1,all.2.1⟩
      rw [if_neg refused]
      simp [placed]
  · rw [mismatches,standing.mismatches,queue,matches_at tracked standing left]
  · rw [comparisons,standing.comparisons,consumed,List.length_map,← List.countP_eq_length_filter,spawned_next,
      List.map_append,List.sum_append]
    have grows := sum_counted (fun j => (watched j i).length) (fun j => (watched j (i + 1)).length) (young i)
      (spawned reference messages i) (by
        intro j member
        simp only [watched_next (spawned_below member)]
        cases young i j <;> simp)
    rw [grows]
    split <;> simp [watched_self]
  · rw [fills,standing.fillsObserved,fills_at tracked standing left,spawned_next,List.map_append,List.sum_append]
    have grows := sum_counted
      (fun j => (watched j i).countP (tradesThrough messages (levelAt reference messages j) (seqAt messages j)))
      (fun j => (watched j (i + 1)).countP (tradesThrough messages (levelAt reference messages j) (seqAt messages j)))
      (fun j => tradesThrough messages (levelAt reference messages j) (seqAt messages j) i && young i j)
      (spawned reference messages i) (by
        intro j member
        simp only [watched_next (spawned_below member),List.countP_append]
        cases young i j <;> simp [List.countP_singleton])
    rw [grows]
    split <;> simp [watched_self]

end Step

section Run
variable {reference : Int64} {messages : List WireMsg} (tracked : BacktestEngine.Tracked reference messages)
include tracked

theorem replayFrom_standing (rest : List WireMsg) {s : LongReplay} {i : Nat} (standing : Standing reference messages s i)
    (left : messages.drop i = rest) : Standing reference messages (replayFrom s i rest) (i + rest.length) := by
  induction rest generalizing s i with
  | nil => exact standing
  | cons m rest ih =>
    have next := ih (standing_next tracked standing left) (take_next left).2.1
    rwa [Nat.add_right_comm] at next

theorem longReplay_standing : Standing reference messages (longReplay reference messages) messages.length := by
  have start : Standing reference messages { book := OrderBook.init {} reference } 0 := ⟨rfl,rfl,rfl,rfl,rfl,rfl⟩
  have whole := replayFrom_standing tracked messages start rfl
  rwa [Nat.zero_add] at whole

end Run

/-- The long replay never finds a mismatch, whatever the engine draws: it makes one comparison for every
order it follows and every message it follows it for, and observes the fills of the scan. -/
theorem longReplay_matches (rng : Nat → Draw) (numMessages : Nat) (short : numMessages ≤ 8589934) :
    let sim := MarketSimulator.construct rng 1
    let messages := sim.generated numMessages
    let marks := (List.range numMessages).filter (spawns (sim.refPrice 0) messages)
    let replay := longReplayDiff rng numMessages
    replay.mismatches = 0 ∧
    replay.comparisons = (marks.map fun j => min (maxAge + 1) (numMessages - (j + 1))).sum ∧
    replay.fillsObserved = (marks.map fun j => (watched j numMessages).countP
      (tradesThrough messages (levelAt (sim.refPrice 0) messages j) (seqAt messages j))).sum := by
  intro sim messages marks replay
  have standing := longReplay_standing (generated_tracked sim short (sim.refPrice 0))
  rw [MarketSimulator.generated_length] at standing
  have comparisons := standing.comparisons
  simp only [watched,List.length_range'] at comparisons
  exact ⟨standing.mismatches,comparisons,standing.fillsObserved⟩

theorem longReplay_matches_default : (longReplayDiff (fun _ => ⟨0,le_rfl,one_pos⟩) 80000).mismatches = 0 :=
  (longReplay_matches (fun _ => ⟨0,le_rfl,one_pos⟩) 80000 (by decide)).1

end MarketFeed.QueueReference
