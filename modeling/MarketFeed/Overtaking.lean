import MarketFeed.FillRule

/-! Two orders tracked at one level: the one placed first stays ahead and fills no later. -/
namespace MarketFeed

namespace QueuePositionBook

theorem aheadOf_mono (nodes : List Node) {n m : Nat} (le : n ≤ m) : aheadOf nodes n ≤ aheadOf nodes m := by
  refine List.sum_le_sum fun node _ => ?_
  split_ifs <;> omega

theorem applyAll_grows (messages : List WireMsg) (book : QueuePositionBook) (count : Nat)
    (counted : Counted book count) (few : count + messages.countP introduces < 2^64) :
    book.nextSeq.toNat ≤ (book.applyAll messages).nextSeq.toNat := by
  induction messages generalizing book count with
  | nil => exact Nat.le_refl _
  | cons m rest ih =>
    rw [introduced_cons,← Nat.add_assoc] at few
    obtain ⟨next,grows⟩ := counted_step (apply_applies book m) counted (by omega)
    exact grows.trans (ih _ _ next few)

end QueuePositionBook

namespace FastAheadTracker
open QueuePositionBook

/-- The earlier order has no more ahead of it, and fills at every message that fills the later one. -/
structure NoOvertaking (earlier later : QueuePositionBook × FastAheadTracker) : Prop where
  ahead : earlier.2.aheadQty ≤ later.2.aheadQty
  fills : ∀ m, (later.2.consume (later.1.apply m).1).1 = true →
    (earlier.2.consume (earlier.1.apply m).1).1 = true

/-- Of two orders of a level, the one with the smaller arrival number has the smaller sum ahead. -/
theorem NoOvertaking.of_follows {earlier later : QueuePositionBook × FastAheadTracker} {key : LevelKey} {n m : Nat}
    (same : earlier.1 = later.1) (first : earlier.2.Follows earlier.1 key n)
    (second : later.2.Follows later.1 key m) (le : n ≤ m) : NoOvertaking earlier later := by
  have sums := aheadOf_mono (later.1.level key) le
  rw [same] at first
  refine ⟨?_,fun m filled => ?_⟩
  · rw [Int64.le_iff_toInt_le,first.ahead,second.ahead]
    exact_mod_cast sums
  · rw [consume_iff] at filled ⊢
    obtain ⟨front,executed⟩ := filled
    have none_ := second.front.mp front
    refine ⟨first.front.mpr (by omega),?_⟩
    rwa [same,first.level,← second.level]

/-- Which messages fill the order, in turn. -/
def fills (s : QueuePositionBook × FastAheadTracker) : List WireMsg → List Bool
  | [] => []
  | m :: rest => (s.2.consume (s.1.apply m).1).1 :: fills (feed s m) rest

theorem fills_append (first second : List WireMsg) (s : QueuePositionBook × FastAheadTracker) :
    fills s (first ++ second) = fills s first ++ fills (first.foldl feed s) second := by
  induction first generalizing s with
  | nil => rfl
  | cons m rest ih => simp only [List.cons_append,fills,ih,List.foldl_cons]

theorem fills_length (messages : List WireMsg) (s : QueuePositionBook × FastAheadTracker) :
    (fills s messages).length = messages.length := by
  induction messages generalizing s with
  | nil => rfl
  | cons m rest ih => simp only [fills,List.length_cons,ih]

theorem first_fill (later : List WireMsg) (one two : QueuePositionBook × FastAheadTracker)
    (ordered : ∀ done, done <+: later → NoOvertaking (done.foldl feed one) (done.foldl feed two)) :
    (fills one later).findIdx id ≤ (fills two later).findIdx id := by
  induction later generalizing one two with
  | nil => exact Nat.le_refl _
  | cons m rest ih =>
    have now := (ordered [] List.nil_prefix).fills m
    have next := ih (feed one m) (feed two m) fun done before =>
      ordered (m :: done) (List.cons_prefix_cons.mpr ⟨rfl,before⟩)
    simp only [fills,List.findIdx_cons,id]
    cases filled : (two.2.consume (two.1.apply m).1).1 with
    | true =>
      have sooner := now filled
      simp only [List.foldl_nil] at sooner
      rw [sooner]
      exact Nat.le_refl _
    | false =>
      cases (one.2.consume (one.1.apply m).1).1 with
      | true => exact Nat.zero_le _
      | false => exact Nat.succ_le_succ next

section Placed
variable (before between later : List WireMsg) (key : LevelKey)

/-- The order placed after `before`, followed up to the moment the second one is placed. -/
def elder : QueuePositionBook × FastAheadTracker :=
  between.foldl feed (place (({} : QueuePositionBook).applyAll before) key)

def newcomer : QueuePositionBook × FastAheadTracker :=
  place (({} : QueuePositionBook).applyAll (before ++ between)) key

theorem elder_book : (elder before between key).1 = (newcomer before between key).1 := by
  rw [elder,feed_book]
  exact (List.foldl_append ..).symm

/-- Of two orders tracked at one level the earlier is at no message behind the later, as long as
fewer than 2^64 messages of the stream take an arrival number. -/
theorem no_overtaking (few : (before ++ between ++ later).countP introduces < 2^64)
    (small : held ((({} : QueuePositionBook).applyAll before).level key) < 2^32)
    (small' : held ((({} : QueuePositionBook).applyAll (before ++ between)).level key) < 2^32) :
    (∀ done, done <+: later →
      NoOvertaking (done.foldl feed (elder before between key)) (done.foldl feed (newcomer before between key))) ∧
    (fills (place (({} : QueuePositionBook).applyAll before) key) (between ++ later)).findIdx id ≤
      between.length + (fills (newcomer before between key) later).findIdx id := by
  have grows : (({} : QueuePositionBook).applyAll before).currentSeq.toNat ≤
      (({} : QueuePositionBook).applyAll (before ++ between)).currentSeq.toNat := by
    simp only [List.countP_append] at few
    have joined : ({} : QueuePositionBook).applyAll (before ++ between) =
        (({} : QueuePositionBook).applyAll before).applyAll between := List.foldl_append
    rw [joined]
    exact applyAll_grows between _ _ (counted_applyAll before {} 0 counted_empty (by omega)) (by omega)
  have ordered : ∀ done, done <+: later →
      NoOvertaking (done.foldl feed (elder before between key)) (done.foldl feed (newcomer before between key)) := by
    rintro done ⟨rest,rfl⟩
    have one := placed_until (by rwa [← List.append_assoc]) rfl small (List.append_assoc between done rest).symm
    have two := placed_until few rfl small' rfl
    rw [List.foldl_append] at one
    refine NoOvertaking.of_follows ?_ one two grows
    rw [feed_book,feed_book]
    exact congrArg (applyAll · done) (elder_book before between key)
  refine ⟨ordered,?_⟩
  have sooner := first_fill later _ _ ordered
  rw [fills_append,List.findIdx_append,fills_length]
  split
  next inside => omega
  next => exact (Nat.add_comm _ _).trans_le (Nat.add_le_add_left sooner _)

end Placed

theorem no_overtaking_two : NoOvertaking
    ([.exec ⟨⟨0,0⟩,1,5⟩].foldl feed (elder [.add ⟨⟨0,0⟩,1,.buy,100,5⟩] [.add ⟨⟨0,0⟩,2,.buy,100,7⟩] ⟨0,.buy,100⟩))
    ([.exec ⟨⟨0,0⟩,1,5⟩].foldl feed
      (newcomer [.add ⟨⟨0,0⟩,1,.buy,100,5⟩] [.add ⟨⟨0,0⟩,2,.buy,100,7⟩] ⟨0,.buy,100⟩)) :=
  (no_overtaking [.add ⟨⟨0,0⟩,1,.buy,100,5⟩] [.add ⟨⟨0,0⟩,2,.buy,100,7⟩]
    [.exec ⟨⟨0,0⟩,1,5⟩,.exec ⟨⟨0,0⟩,2,1⟩] ⟨0,.buy,100⟩ (by decide) (by decide) (by decide)).1 _ ⟨[.exec ⟨⟨0,0⟩,2,1⟩],rfl⟩

/-- An order that comes and goes at the level is consumed under the number it took. -/
theorem arrive_leave {s : QueuePositionBook × FastAheadTracker} (located : Located s.1) (header : MsgHeader)
    (orderId : UInt64) (side : Side) (price : Int64) (qty : UInt32) :
    ([.add ⟨header,orderId,side,price,qty⟩,.del ⟨header,orderId⟩].foldl feed s).2 =
      (s.2.consume { touched := [⟨header.instrumentId,side,price⟩],
                     reduction := some ⟨⟨header.instrumentId,side,price⟩,s.1.nextSeq,qty,false⟩ }).2 := by
  have known : (s.1.pushBack ⟨header.instrumentId,side,price⟩ orderId qty).orders.lookup orderId =
      some ⟨⟨header.instrumentId,side,price⟩,s.1.allocated⟩ := Finmap.lookup_insert _
  have here := pushBack_deref_new located ⟨header.instrumentId,side,price⟩ orderId qty
  have gone := delete_removes _ header orderId _ _ known here
  change (s.2.consume
    ((s.1.pushBack ⟨header.instrumentId,side,price⟩ orderId qty).apply (.del ⟨header,orderId⟩)).1).2 = _
  rw [gone]

theorem feed_located (messages : List WireMsg) {s : QueuePositionBook × FastAheadTracker} (located : Located s.1) :
    Located (messages.foldl feed s).1 := by
  rw [feed_book]
  exact applyAll_located messages s.1 located

/-- Once the arrival numbers have come round, an order can take one between the numbers of the two
tracked orders, and its deletion advances only the later of them. -/
theorem wrap_overtakes :
    let before : List WireMsg := [.add ⟨⟨0,0⟩,1,.buy,100,5⟩]
    let between : List WireMsg := [.add ⟨⟨0,0⟩,2,.buy,100,7⟩]
    let later := (List.replicate (2^64 - 1) visit).flatten ++ [.add ⟨⟨0,0⟩,3,.buy,100,20⟩,.del ⟨⟨0,0⟩,3⟩]
    held ((({} : QueuePositionBook).applyAll before).level ⟨0,.buy,100⟩) < 2^32 ∧
    held ((({} : QueuePositionBook).applyAll (before ++ between)).level ⟨0,.buy,100⟩) < 2^32 ∧
    (later.foldl feed (elder before between ⟨0,.buy,100⟩)).2.aheadQty = 5 ∧
    (later.foldl feed (newcomer before between ⟨0,.buy,100⟩)).2.aheadQty = 0 := by
  intro before between later
  have one := visits_pass (2^64 - 1) (elder before between ⟨0,.buy,100⟩) rfl rfl
  have two := visits_pass (2^64 - 1) (newcomer before between ⟨0,.buy,100⟩) rfl rfl
  have wrapped : (2 : UInt64) + UInt64.ofNat (2^64 - 1) = 1 := by decide
  have start : Located (newcomer before between ⟨0,.buy,100⟩).1 :=
    applyAll_located (before ++ between) {} located_empty
  have start' : Located (elder before between ⟨0,.buy,100⟩).1 := by rwa [elder_book]
  refine ⟨by decide,by decide,?_,?_⟩
  · rw [List.foldl_append,arrive_leave (feed_located _ start'),one.nextSeq.trans wrapped,one.tracker]
    rfl
  · rw [List.foldl_append,arrive_leave (feed_located _ start),two.nextSeq.trans wrapped,two.tracker]
    rfl

end FastAheadTracker
end MarketFeed
