import MarketFeed.QueueLocated
import Mathlib.Algebra.Order.BigOperators.Group.List

/-! The fast tracker follows the oracle: one `ReductionEvent` a message says all that
happened ahead of an order. -/
namespace MarketFeed
open FiniteMap

/-- The exact quantity of the nodes that arrived before `n`. -/
def aheadOf (nodes : List Node) (n : Nat) : Nat :=
  (nodes.map fun node => if node.entry.seq.toNat < n then node.entry.qty.toNat else 0).sum

def held (nodes : List Node) : Nat := (nodes.map fun node => node.entry.qty.toNat).sum

namespace QueuePositionBook

theorem aheadOf_append (first second : List Node) (n : Nat) :
    aheadOf (first ++ second) n = aheadOf first n + aheadOf second n := by
  simp [aheadOf]

theorem aheadOf_held (nodes : List Node) (n : Nat) (before : ∀ node ∈ nodes, node.entry.seq.toNat < n) :
    aheadOf nodes n = held nodes := by
  unfold aheadOf held
  refine congrArg List.sum (List.map_congr_left fun node member => ?_)
  rw [if_pos (before node member)]

theorem held_whole (nodes : List Node) : aheadOf nodes (2^64) = held nodes :=
  aheadOf_held nodes _ fun node _ => node.entry.seq.toNat_lt

theorem held_cons (node : Node) (rest : List Node) : held (node :: rest) = node.entry.qty.toNat + held rest := by
  simp [held]

theorem total_toNat (nodes : List Node) : (total nodes).toNat = held nodes % 2^64 := by
  have scanned (start : UInt64) :
      (nodes.foldl (fun total node => total + node.entry.qty.toUInt64) start).toNat =
        (start.toNat + held nodes) % 2^64 := by
    induction nodes generalizing start with
    | nil => exact (Nat.mod_eq_of_lt start.toNat_lt).symm
    | cons node rest ih =>
      rw [List.foldl_cons,ih,held_cons,UInt64.toNat_add,UInt32.toNat_toUInt64,Nat.mod_add_mod,Nat.add_assoc]
  rw [total,scanned,UInt64.toNat_zero,Nat.zero_add]

theorem levelTotalQty_toNat (book : QueuePositionBook) (key : LevelKey) :
    (book.levelTotalQty key).toNat = held (book.level key) % 2^32 := by
  rw [levelTotalQty,UInt64.toNat_toUInt32,total_toNat]
  omega

theorem qtyAheadOfSeq_toNat (book : QueuePositionBook) (key : LevelKey) (threshold : UInt64) :
    (book.qtyAheadOfSeq key threshold).toNat = aheadOf (book.level key) threshold.toNat % 2^64 := by
  rw [qtyAheadOfSeq,total_toNat]
  refine congrArg (· % 2^64) ?_
  induction book.level key with
  | nil => rfl
  | cons node rest ih =>
    simp only [aheadOf,held,List.map_cons,List.sum_cons,List.filter_cons] at ih ⊢
    rw [← ih]
    by_cases before : node.entry.seq < threshold
    · simp [before,UInt64.lt_iff_toNat_lt.mp before]
    · have after : ¬node.entry.seq.toNat < threshold.toNat := fun contra => before (UInt64.lt_iff_toNat_lt.mpr contra)
      simp [before,after]

theorem settle_ahead (nodes : List Node) (it : Nat) (node : Node) (actual : UInt32) (n : Nat)
    (found : nodes.find? (fun node => node.id = it) = some node) (le : actual ≤ node.entry.qty) :
    aheadOf (settle it (node.entry.qty - actual) nodes) n +
      (if node.entry.seq.toNat < n then actual.toNat else 0) = aheadOf nodes n := by
  induction nodes with
  | nil => simp at found
  | cons first rest ih =>
    rw [List.find?_cons] at found
    unfold settle
    by_cases here : first.id = it
    · simp only [here,decide_true] at found
      obtain rfl := Option.some.inj found
      have exact_ : (first.entry.qty - actual).toNat = first.entry.qty.toNat - actual.toNat :=
        UInt32.toNat_sub_of_le _ _ le
      have le := UInt32.le_iff_toNat_le.mp le
      rw [if_pos here]
      split
      next emptied =>
        have none_ : first.entry.qty.toNat - actual.toNat = 0 := by rw [← exact_,emptied]; rfl
        simp only [aheadOf,List.map_cons,List.sum_cons]
        split <;> omega
      next left =>
        simp only [aheadOf,List.map_cons,List.sum_cons,exact_]
        split <;> omega
    · simp only [here,decide_false] at found
      have rest_ := ih found
      rw [if_neg here]
      simp only [aheadOf,List.map_cons,List.sum_cons] at rest_ ⊢
      omega

/-- What an effect takes from ahead of position `n` of a level. -/
def taken (eff : ApplyEffect) (key : LevelKey) (n : Nat) : Nat :=
  match eff.reduction with
  | none => 0
  | some r => if r.level = key ∧ r.entrySeq.toNat < n then r.qtyReduced.toNat else 0

def Arrived (book : QueuePositionBook) : Prop :=
  ∀ key, ∀ node ∈ book.level key, node.entry.seq.toNat < book.nextSeq.toNat

/-- What a reduction does: its event is exactly what the levels lose. -/
structure Reduces (book : QueuePositionBook) (eff : ApplyEffect) (next : QueuePositionBook) : Prop where
  ahead : ∀ key n, aheadOf (next.level key) n + taken eff key n = aheadOf (book.level key) n
  nextSeq : next.nextSeq = book.nextSeq
  entries : ∀ key, ∀ node ∈ next.level key, ∃ old ∈ book.level key, old.entry.seq = node.entry.seq

theorem Reduces.none (book : QueuePositionBook) : Reduces book {} book :=
  ⟨fun _ _ => rfl,rfl,fun _ node member => ⟨node,member,rfl⟩⟩

theorem reduceBy_reduces (book : QueuePositionBook) (orderId : UInt64) (qty : UInt32) (isExecute : Bool) :
    Reduces book (book.reduceBy orderId qty isExecute {}).1 (book.reduceBy orderId qty isExecute {}).2 := by
  unfold reduceBy
  cases book.orders.lookup orderId with
  | none => exact .none book
  | some loc =>
    cases located : book.deref loc with
    | none => simpa [located] using Reduces.none book
    | some e =>
      obtain ⟨node,found,rfl⟩ := Option.map_eq_some_iff.mp located
      have settled := settle_ahead (book.level loc.level) loc.it node (min qty node.entry.qty)
      have kept : Reduces book
          { touched := [loc.level], reduction := some
              ⟨loc.level,node.entry.seq,min qty node.entry.qty,isExecute⟩ }
          (book.setLevel loc.level
            (settle loc.it (node.entry.qty - min qty node.entry.qty) (book.level loc.level))) := by
        refine ⟨?_,rfl,?_⟩
        · intro key n
          rw [level_setLevel]
          rcases eq_or_ne key loc.level with rfl | other
          · simpa [taken] using settled n found Std.min_le_right
          · simp [taken,other,other.symm]
        · intro key moved member
          rw [level_setLevel] at member
          split at member
          next same =>
            obtain ⟨old,inside,seq,_⟩ := settle_origin _ _ _ _ member
            exact ⟨old,same ▸ inside,seq⟩
          next => exact ⟨moved,member,rfl⟩
      simp only [located]
      split <;> exact ⟨kept.ahead,kept.nextSeq,kept.entries⟩

theorem Reduces.arrived {book next : QueuePositionBook} {eff : ApplyEffect} (reduces : Reduces book eff next)
    (arrived : Arrived book) : Arrived next := by
  intro key node member
  obtain ⟨old,inside,seq⟩ := reduces.entries key node member
  rw [← seq,reduces.nextSeq]
  exact arrived key old inside

def introduces : WireMsg → Bool
  | .add _ => true
  | .replace _ => true
  | _ => false

inductive Applies (book : QueuePositionBook) (m : WireMsg) : ApplyEffect → QueuePositionBook → Prop
  | reduce (eff next) (reduces : Reduces book eff next) : Applies book m eff next
  | push (eff next touched key orderId qty) (fresh : introduces m = true) (reduces : Reduces book eff next) :
      Applies book m { eff with touched := touched } (next.pushBack key orderId qty)

theorem apply_applies (book : QueuePositionBook) (m : WireMsg) :
    Applies book m (book.apply m).1 (book.apply m).2 := by
  cases m with
  | zero => exact .reduce _ _ (.none book)
  | add a => exact .push {} book _ _ _ _ rfl (.none book)
  | exec e => exact .reduce _ _ (reduceBy_reduces book e.orderId e.execQty true)
  | cancel c => exact .reduce _ _ (reduceBy_reduces book c.orderId c.cancelQty false)
  | del d =>
    simp only [apply]
    cases book.find d.orderId with
    | none => exact .reduce _ _ (.none book)
    | some found => exact .reduce _ _ (reduceBy_reduces book d.orderId found.2.qty false)
  | replace r =>
    simp only [apply]
    cases book.find r.oldOrderId with
    | none => exact .reduce _ _ (.none book)
    | some found => exact .push _ _ _ _ _ _ rfl (reduceBy_reduces book r.oldOrderId found.2.qty false)

section Apply
variable {book next : QueuePositionBook} {m : WireMsg} {eff : ApplyEffect}
  (applies : Applies book m eff next)
include applies

/-- What is ahead of an order shrinks by what the effect reports and by nothing else. -/
theorem applies_ahead (key : LevelKey) (n : Nat) (placed : n ≤ book.nextSeq.toNat) :
    aheadOf (next.level key) n + taken eff key n = aheadOf (book.level key) n := by
  cases applies with
  | reduce _ _ reduces => exact reduces.ahead key n
  | push eff next touched key' orderId qty fresh reduces =>
    have before := reduces.ahead key n
    change _ + taken eff key n = _
    rw [level_pushBack]
    split
    next same =>
      have behind : ¬next.nextSeq.toNat < n := by rw [reduces.nextSeq]; omega
      subst same
      rw [aheadOf_append]
      simpa [aheadOf,behind] using before
    next => exact before

end Apply

theorem pushBack_arrived (book : QueuePositionBook) (arrived : Arrived book)
    (room : book.nextSeq.toNat + 1 < 2^64) (key : LevelKey) (orderId : UInt64) (qty : UInt32) :
    Arrived (book.pushBack key orderId qty) ∧
      (book.pushBack key orderId qty).nextSeq.toNat = book.nextSeq.toNat + 1 := by
  have bumped : (book.pushBack key orderId qty).nextSeq.toNat = book.nextSeq.toNat + 1 := by
    rw [pushBack,UInt64.toNat_add]
    exact Nat.mod_eq_of_lt room
  refine ⟨?_,bumped⟩
  intro k node member
  rw [bumped]
  rw [level_pushBack] at member
  split at member
  next same =>
    rcases List.mem_append.mp member with earlier | last
    · exact Nat.lt_succ_of_lt (arrived key node earlier)
    · rw [List.mem_singleton.mp last]
      exact Nat.lt_succ_self _
  next => exact Nat.lt_succ_of_lt (arrived k node member)

end QueuePositionBook

namespace FastAheadTracker
open QueuePositionBook Word

/-- The tracker of an order placed when the counter stood at `n` agrees with the level. -/
structure Follows (t : FastAheadTracker) (book : QueuePositionBook) (key : LevelKey) (n : Nat) : Prop where
  level : t.level = key
  ourSeq : t.ourSeq.toNat = n
  ahead : t.aheadQty.toInt = aheadOf (book.level key) n
  small : aheadOf (book.level key) n < 2^32
  front : t.becameFront = true ↔ aheadOf (book.level key) n = 0

section Consume
variable {t : FastAheadTracker} {book next : QueuePositionBook} {key : LevelKey} {n : Nat}
  {eff : ApplyEffect} (follows : t.Follows book key n)
  (ahead : aheadOf (next.level key) n + taken eff key n = aheadOf (book.level key) n)
include follows ahead

theorem consume_ahead (r : ReductionEvent) (reported : eff.reduction = some r) (ours : r.level = t.level)
    (before : r.entrySeq < t.ourSeq) :
    (t.aheadQty - widen r.qtyReduced).toInt = aheadOf (next.level key) n := by
  have counted : taken eff key n = r.qtyReduced.toNat := by
    have before := UInt64.lt_iff_toNat_lt.mp before
    rw [follows.ourSeq] at before
    simp [taken,reported,ours,follows.level,before]
  have exact_ := follows.ahead
  rw [toInt_sub_widen _ _ (by omega)]
  omega

theorem not_clamps : ¬t.Clamps eff := by
  rintro ⟨r,reported,ours,before,negative⟩
  have left := consume_ahead follows ahead r reported ours before
  have negative := (neg_iff _).mp negative
  omega

theorem consume_follows : (t.consume eff).2.Follows next key n := by
  have small := follows.small
  have stay : taken eff key n = 0 → t.Follows next key n := by
    intro nothing
    have same : aheadOf (next.level key) n = aheadOf (book.level key) n := by omega
    refine ⟨follows.level,follows.ourSeq,?_,?_,?_⟩
    · rw [same]
      exact follows.ahead
    · rw [same]
      exact small
    · rw [same]
      exact follows.front
  unfold consume
  cases reported : eff.reduction with
  | none => exact stay (by simp [taken,reported])
  | some r =>
    simp only
    split
    next other =>
      rw [follows.level] at other
      exact stay (by simp [taken,reported,other])
    next ours =>
      have ours : r.level = t.level := not_not.mp ours
      split
      next before =>
        have left := consume_ahead follows ahead r reported ours before
        have kept : ¬t.aheadQty - widen r.qtyReduced < 0 := fun negative =>
          not_clamps follows ahead ⟨r,reported,ours,before,negative⟩
        simp only [if_neg kept]
        have zero := eq_zero_iff (t.aheadQty - widen r.qtyReduced)
        rw [left] at zero
        refine ⟨follows.level,follows.ourSeq,left,by omega,?_⟩
        have front := follows.front
        have known : aheadOf (book.level key) n = 0 → aheadOf (next.level key) n = 0 := by omega
        split
        next reached => simp [Int.ofNat_eq_zero.mp (zero.mp reached)]
        next waiting =>
          rw [front]
          refine ⟨known,fun contra => absurd (zero.mpr (by rw [contra]; rfl)) waiting⟩
      next behind =>
        have behind : ¬r.entrySeq.toNat < n := by
          rw [← follows.ourSeq]
          exact fun contra => behind (UInt64.lt_iff_toNat_lt.mpr contra)
        exact stay (by simp [taken,reported,behind])

end Consume

theorem construct_aheadQty (key : LevelKey) (seq : UInt64) (total : UInt32) :
    (construct key seq total.toUInt64).aheadQty.toInt = total.toNat := by
  have inserted : total.toUInt64.toInt64.toInt = total.toNat := toInt_widen total
  unfold construct
  simp only [Int64.le_iff_toInt_le,inserted,Int64.toInt_zero]
  split
  next empty =>
    simp only [Int64.toInt_zero]
    omega
  next positive => exact inserted

theorem construct_front (key : LevelKey) (seq : UInt64) (total : UInt32) :
    (construct key seq total.toUInt64).becameFront = true ↔ total.toNat = 0 := by
  have inserted : total.toUInt64.toInt64.toInt = total.toNat := toInt_widen total
  unfold construct
  simp only [Int64.le_iff_toInt_le,inserted,Int64.toInt_zero]
  split <;> simp <;> omega

theorem construct_key (key : LevelKey) (seq total : UInt64) :
    (construct key seq total).level = key ∧ (construct key seq total).ourSeq = seq := by
  unfold construct
  simp only
  split <;> exact ⟨rfl,rfl⟩

theorem construct_follows (book : QueuePositionBook) (key : LevelKey) (arrived : Arrived book)
    (small : held (book.level key) < 2^32) :
    (construct key book.currentSeq (book.levelTotalQty key).toUInt64).Follows book key book.nextSeq.toNat := by
  have all := aheadOf_held (book.level key) _ (arrived key)
  have total := levelTotalQty_toNat book key
  obtain ⟨level,ourSeq⟩ := construct_key key book.currentSeq (book.levelTotalQty key).toUInt64
  refine ⟨level,by rw [ourSeq]; rfl,?_,by omega,?_⟩
  · rw [construct_aheadQty,all,total,Nat.mod_eq_of_lt small]
  · rw [construct_front,all,total,Nat.mod_eq_of_lt small]

def feed (s : QueuePositionBook × FastAheadTracker) (m : WireMsg) : QueuePositionBook × FastAheadTracker :=
  ((s.1.apply m).2,(s.2.consume (s.1.apply m).1).2)

theorem feed_book (messages : List WireMsg) (s : QueuePositionBook × FastAheadTracker) :
    (messages.foldl feed s).1 = s.1.applyAll messages := by
  induction messages generalizing s with
  | nil => rfl
  | cons m rest ih => exact ih (feed s m)

theorem consume_front (t : FastAheadTracker) (eff : ApplyEffect) (front : t.becameFront = true) :
    (t.consume eff).2.becameFront = true := by
  unfold consume
  cases eff.reduction with
  | none => exact front
  | some r =>
    simp only
    split
    · exact front
    · split
      · simp [front]
      · exact front

theorem feed_front (messages : List WireMsg) (s : QueuePositionBook × FastAheadTracker)
    (front : s.2.becameFront = true) : (messages.foldl feed s).2.becameFront = true := by
  induction messages generalizing s with
  | nil => exact front
  | cons m rest ih => exact ih _ (consume_front _ _ front)

end FastAheadTracker

namespace QueuePositionBook

structure Counted (book : QueuePositionBook) (count : Nat) : Prop where
  arrived : Arrived book
  nextSeq : book.nextSeq.toNat ≤ count

theorem counted_empty : Counted {} 0 := by
  refine ⟨?_,Nat.le_refl _⟩
  intro key node member
  have member : node ∈ ([] : List Node) := member
  cases member

theorem counted_step {book next : QueuePositionBook} {m : WireMsg} {eff : ApplyEffect} {count : Nat}
    (applies : Applies book m eff next) (counted : Counted book count)
    (room : count + [m].countP introduces < 2^64) :
    Counted next (count + [m].countP introduces) ∧ book.nextSeq.toNat ≤ next.nextSeq.toNat := by
  have bound := counted.nextSeq
  cases applies with
  | reduce _ _ reduces =>
    have arrived := reduces.arrived counted.arrived
    have same := reduces.nextSeq
    exact ⟨⟨arrived,by rw [same]; omega⟩,by rw [same]⟩
  | push eff next touched key orderId qty fresh reduces =>
    have one : [m].countP introduces = 1 := by simp [fresh]
    have same := reduces.nextSeq
    rw [one] at room ⊢
    obtain ⟨arrived,bumped⟩ := pushBack_arrived next (reduces.arrived counted.arrived)
      (by rw [same]; omega) key orderId qty
    rw [same] at bumped
    exact ⟨⟨arrived,by omega⟩,by omega⟩

theorem introduced_cons (m : WireMsg) (rest : List WireMsg) :
    (m :: rest).countP introduces = [m].countP introduces + rest.countP introduces := by
  rw [← List.countP_append]
  rfl

theorem counted_applyAll (messages : List WireMsg) (book : QueuePositionBook) (count : Nat)
    (counted : Counted book count) (few : count + messages.countP introduces < 2^64) :
    Counted (book.applyAll messages) (count + messages.countP introduces) := by
  induction messages generalizing book count with
  | nil => exact counted
  | cons m rest ih =>
    rw [introduced_cons,← Nat.add_assoc] at few ⊢
    obtain ⟨next,_⟩ := counted_step (apply_applies book m) counted (by omega)
    exact ih _ _ next few

end QueuePositionBook

namespace FastAheadTracker
open QueuePositionBook

theorem feed_follows (later : List WireMsg) {t : FastAheadTracker} {book : QueuePositionBook}
    {key : LevelKey} {n count : Nat} (follows : t.Follows book key n) (placed : n ≤ book.nextSeq.toNat)
    (counted : Counted book count) (few : count + later.countP introduces < 2^64) :
    (later.foldl feed (book,t)).2.Follows (later.foldl feed (book,t)).1 key n ∧
      ∀ done m rest, later = done ++ m :: rest →
        ¬(done.foldl feed (book,t)).2.Clamps ((done.foldl feed (book,t)).1.apply m).1 := by
  induction later generalizing t book count with
  | nil => exact ⟨follows,fun done m rest equal => by simp at equal⟩
  | cons m rest ih =>
    rw [introduced_cons,← Nat.add_assoc] at few
    have applies := apply_applies book m
    have ahead := applies_ahead applies key n placed
    obtain ⟨next,grows⟩ := counted_step applies counted (by omega)
    obtain ⟨final,idle⟩ := ih (consume_follows follows ahead) (placed.trans grows) next few
    refine ⟨final,?_⟩
    intro done m' rest' equal
    cases done with
    | nil =>
      obtain ⟨rfl,_⟩ := List.cons.inj equal
      exact not_clamps follows ahead
    | cons first more =>
      obtain ⟨rfl,onward⟩ := List.cons.inj equal
      exact idle more m' rest' onward

def place (book : QueuePositionBook) (key : LevelKey) : QueuePositionBook × FastAheadTracker :=
  (book,construct key book.currentSeq (book.levelTotalQty key).toUInt64)

section Placed
variable {before later : List WireMsg} {book : QueuePositionBook} {key : LevelKey}
  (few : (before ++ later).countP introduces < 2^64) (start : book = ({} : QueuePositionBook).applyAll before)
  (small : held (book.level key) < 2^32)
include few start small

/-- A tracker placed after `before` follows the book through every later message. -/
theorem placed_follows :
    (later.foldl feed (place book key)).2.Follows (later.foldl feed (place book key)).1 key book.currentSeq.toNat ∧
      ∀ done m rest, later = done ++ m :: rest →
        ¬(done.foldl feed (place book key)).2.Clamps ((done.foldl feed (place book key)).1.apply m).1 := by
  rw [List.countP_append] at few
  have counted := counted_applyAll before {} 0 counted_empty (by omega)
  rw [← start] at counted
  exact feed_follows later (construct_follows book key counted.arrived small) (Nat.le_refl _) counted (by omega)

theorem placed_until {done rest : List WireMsg} (split : later = done ++ rest) :
    (done.foldl feed (place book key)).2.Follows (done.foldl feed (place book key)).1 key book.currentSeq.toNat := by
  rw [split,← List.append_assoc,List.countP_append] at few
  exact (placed_follows (by omega) start small).1

end Placed

theorem Follows.oracle {t : FastAheadTracker} {book : QueuePositionBook} {key : LevelKey} {ourSeq : UInt64}
    (follows : t.Follows book key ourSeq.toNat) :
    (book.qtyAheadOfSeq key ourSeq).toNat = aheadOf (book.level key) ourSeq.toNat := by
  rw [qtyAheadOfSeq_toNat,Nat.mod_eq_of_lt (Nat.lt_trans follows.small (by decide))]

/-- After every later message the tracker agrees with the from-scratch oracle, as long as
fewer than 2^64 messages of the stream take an arrival number. -/
theorem tracker_matches (before later : List WireMsg) (few : (before ++ later).countP introduces < 2^64)
    (key : LevelKey) (small : held ((({} : QueuePositionBook).applyAll before).level key) < 2^32) :
    let book := ({} : QueuePositionBook).applyAll before
    0 ≤ (book.levelTotalQty key).toUInt64.toInt64 ∧
    ∀ done rest, later = done ++ rest →
      let s := done.foldl feed (place book key)
      s.2.aheadQty.toInt = (s.1.qtyAheadOfSeq key book.currentSeq).toNat ∧
      (s.2.becameFront = true ↔ s.1.qtyAheadOfSeq key book.currentSeq = 0) ∧
      (∀ m more, rest = m :: more → ¬s.2.Clamps (s.1.apply m).1) ∧
      (s.2.becameFront = true → (later.foldl feed (place book key)).2.becameFront = true) := by
  intro book
  refine ⟨?_,?_⟩
  · change 0 ≤ Word.widen (book.levelTotalQty key)
    rw [Int64.le_iff_toInt_le,Word.toInt_widen]
    exact Int.natCast_nonneg _
  · intro done rest equal
    have now := placed_until few rfl small equal
    refine ⟨?_,?_,?_,?_⟩
    · rw [now.oracle]
      exact now.ahead
    · rw [← UInt64.toNat_inj,now.oracle]
      exact now.front
    · intro m more next
      exact (placed_follows few rfl small).2 done m more (by rw [equal,next])
    · intro front
      rw [equal,List.foldl_append]
      exact feed_front rest _ front

theorem tracker_matches_partial :
    let book := ({} : QueuePositionBook).applyAll [.add ⟨⟨0,0⟩,1,.buy,100,5⟩]
    let s := [WireMsg.exec ⟨⟨0,0⟩,1,2⟩].foldl feed (place book ⟨0,.buy,100⟩)
    s.2.aheadQty.toInt = (s.1.qtyAheadOfSeq ⟨0,.buy,100⟩ book.currentSeq).toNat :=
  ((tracker_matches [.add ⟨⟨0,0⟩,1,.buy,100,5⟩] [.exec ⟨⟨0,0⟩,1,2⟩,.del ⟨⟨0,0⟩,1⟩] (by decide) ⟨0,.buy,100⟩
    (by decide)).2 [.exec ⟨⟨0,0⟩,1,2⟩] [.del ⟨⟨0,0⟩,1⟩] rfl).1

theorem delete_removes (book : QueuePositionBook) (header : MsgHeader) (orderId : UInt64) (loc : Loc) (e : QEntry)
    (known : book.orders.lookup orderId = some loc) (located : book.deref loc = some e) :
    book.apply (.del ⟨header,orderId⟩) =
      ({ touched := [loc.level], reduction := some ⟨loc.level,e.seq,e.qty,false⟩ },
       { book.setLevel loc.level (settle loc.it 0 (book.level loc.level)) with
         orders := book.orders.erase orderId }) := by
  have whole : min e.qty e.qty = e.qty := Std.min_self
  simp [apply,find,reduceBy,known,located,setLevel,whole]

/-- One order rests ahead of the tracker and the next arrival number is `n`. -/
structure Waits (s : QueuePositionBook × FastAheadTracker) (n : UInt64) : Prop where
  ahead : s.1.level ⟨0,.buy,100⟩ = [⟨0,⟨1,5,0⟩⟩]
  elsewhere : s.1.level ⟨0,.buy,99⟩ = []
  nextSeq : s.1.nextSeq = n
  tracker : s.2 = { level := ⟨0,.buy,100⟩, ourSeq := 1, aheadQty := 5 }

def visit : List WireMsg := [.add ⟨⟨0,0⟩,2,.buy,99,1⟩,.del ⟨⟨0,0⟩,2⟩]

/-- What `n` orders that come and go at another price leave behind. -/
structure Passed (s after : QueuePositionBook × FastAheadTracker) (n : UInt64) : Prop where
  level : after.1.level ⟨0,.buy,100⟩ = s.1.level ⟨0,.buy,100⟩
  elsewhere : after.1.level ⟨0,.buy,99⟩ = []
  nextSeq : after.1.nextSeq = s.1.nextSeq + n
  tracker : after.2 = s.2

theorem visit_passes (s : QueuePositionBook × FastAheadTracker) (elsewhere : s.1.level ⟨0,.buy,99⟩ = [])
    (watched : s.2.level = ⟨0,.buy,100⟩) : Passed s (visit.foldl feed s) 1 := by
  obtain ⟨book,t⟩ := s
  simp only at elsewhere watched
  have pushed : (book.pushBack ⟨0,.buy,99⟩ 2 1).level ⟨0,.buy,99⟩ = [⟨book.allocated,⟨2,1,book.nextSeq⟩⟩] := by
    rw [level_pushBack,if_pos rfl,elsewhere]
    rfl
  have known : (book.pushBack ⟨0,.buy,99⟩ 2 1).orders.lookup 2 = some ⟨⟨0,.buy,99⟩,book.allocated⟩ :=
    Finmap.lookup_insert _
  have located : (book.pushBack ⟨0,.buy,99⟩ 2 1).deref ⟨⟨0,.buy,99⟩,book.allocated⟩ =
      some ⟨2,1,book.nextSeq⟩ := by
    simp [deref,pushed]
  have gone := delete_removes (book.pushBack ⟨0,.buy,99⟩ 2 1) ⟨0,0⟩ 2 _ _ known located
  rw [pushed] at gone
  have after : visit.foldl feed (book,t) =
      ({ (book.pushBack ⟨0,.buy,99⟩ 2 1).setLevel ⟨0,.buy,99⟩ [] with
         orders := (book.pushBack ⟨0,.buy,99⟩ 2 1).orders.erase 2 },t) := by
    change feed (book.pushBack ⟨0,.buy,99⟩ 2 1,t) (.del ⟨⟨0,0⟩,2⟩) = _
    rw [feed,gone]
    simp [consume,watched,settle]
  rw [after]
  refine ⟨?_,?_,rfl,rfl⟩
  · change ((book.pushBack ⟨0,.buy,99⟩ 2 1).setLevel ⟨0,.buy,99⟩ []).level _ = _
    rw [level_setLevel,if_neg (by decide),level_pushBack,if_neg (by decide)]
  · change ((book.pushBack ⟨0,.buy,99⟩ 2 1).setLevel ⟨0,.buy,99⟩ []).level _ = _
    rw [level_setLevel,if_pos rfl]

theorem visits_pass (count : Nat) (s : QueuePositionBook × FastAheadTracker)
    (elsewhere : s.1.level ⟨0,.buy,99⟩ = []) (watched : s.2.level = ⟨0,.buy,100⟩) :
    Passed s ((List.replicate count visit).flatten.foldl feed s) (UInt64.ofNat count) := by
  induction count generalizing s with
  | zero => exact ⟨rfl,elsewhere,(UInt64.add_zero _).symm,rfl⟩
  | succ count ih =>
    rw [List.replicate_succ,List.flatten_cons,List.foldl_append]
    have first := visit_passes s elsewhere watched
    have more := ih _ first.elsewhere (by rw [first.tracker,watched])
    refine ⟨more.level.trans first.level,more.elsewhere,?_,more.tracker.trans first.tracker⟩
    rw [more.nextSeq,first.nextSeq,UInt64.ofNat_add,UInt64.add_assoc,UInt64.add_comm 1]
    rfl

theorem newcomer_ahead (s : QueuePositionBook × FastAheadTracker) (waits : Waits s 0) :
    (feed s (.add ⟨⟨0,0⟩,3,.buy,100,7⟩)).2.aheadQty = 5 ∧
    (feed s (.add ⟨⟨0,0⟩,3,.buy,100,7⟩)).1.qtyAheadOfSeq ⟨0,.buy,100⟩ 1 = 12 := by
  obtain ⟨ahead,_,nextSeq,tracker⟩ := waits
  refine ⟨?_,?_⟩
  · change s.2.aheadQty = 5
    rw [tracker]
  · change (s.1.pushBack ⟨0,.buy,100⟩ 3 7).qtyAheadOfSeq ⟨0,.buy,100⟩ 1 = 12
    rw [qtyAheadOfSeq,level_pushBack,if_pos rfl,ahead,nextSeq]
    rfl

/-- After 2^64 arrivals the numbers start again: a newcomer counts as ahead. -/
theorem wrap_diverges :
    let book := ({} : QueuePositionBook).applyAll [.add ⟨⟨0,0⟩,1,.buy,100,5⟩]
    let later := (List.replicate (2^64 - 1) visit).flatten ++ [.add ⟨⟨0,0⟩,3,.buy,100,7⟩]
    held (book.level ⟨0,.buy,100⟩) < 2^32 ∧
    (later.foldl feed (place book ⟨0,.buy,100⟩)).2.aheadQty = 5 ∧
    (later.foldl feed (place book ⟨0,.buy,100⟩)).1.qtyAheadOfSeq ⟨0,.buy,100⟩ book.currentSeq = 12 := by
  intro book later
  have passed := visits_pass (2^64 - 1) (place book ⟨0,.buy,100⟩) rfl rfl
  have wrapped : (1 : UInt64) + UInt64.ofNat (2^64 - 1) = 0 := by decide
  have number : book.currentSeq = 1 := rfl
  have waits := Waits.mk passed.level passed.elsewhere (passed.nextSeq.trans wrapped) passed.tracker
  have ends := newcomer_ahead _ waits
  have last : later.foldl feed (place book ⟨0,.buy,100⟩) =
      feed ((List.replicate (2^64 - 1) visit).flatten.foldl feed (place book ⟨0,.buy,100⟩))
        (.add ⟨⟨0,0⟩,3,.buy,100,7⟩) := by
    simp only [later,List.foldl_append,List.foldl_cons,List.foldl_nil]
  rw [last,number]
  exact ⟨by decide,ends⟩

end FastAheadTracker
end MarketFeed
