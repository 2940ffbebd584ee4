import MarketFeed.QueueTracker

/-! When a tracked order fills: it stood at the front before the message, and the message
executes an order of its level. -/
namespace MarketFeed

namespace QueuePositionBook

theorem aheadOf_member (nodes : List Node) (node : Node) (member : node ∈ nodes) (n : Nat)
    (before : node.entry.seq.toNat < n) : node.entry.qty.toNat ≤ aheadOf nodes n :=
  List.single_le_sum (fun _ _ => Nat.zero_le _) _ (List.mem_map.mpr ⟨node,member,if_pos before⟩)

/-- The order that `orderId` names rests at `key` as `e`. -/
def RestsAs (book : QueuePositionBook) (key : LevelKey) (orderId : UInt64) (e : QEntry) : Prop :=
  ∃ loc, book.find orderId = some (loc,e) ∧ loc.level = key

theorem RestsAs.entry {book : QueuePositionBook} {key : LevelKey} {orderId : UInt64} {e : QEntry}
    (rests : book.RestsAs key orderId e) : ∃ node ∈ book.level key, node.entry = e := by
  obtain ⟨loc,found,rfl⟩ := rests
  exact find_entry book orderId loc e found

/-- Whether the message executes an order of the level. -/
theorem apply_executes (book : QueuePositionBook) (m : WireMsg) (key : LevelKey) :
    (∃ r, (book.apply m).1.reduction = some r ∧ r.level = key ∧ r.isExecute = true) ↔
      ∃ x e, m = .exec x ∧ book.RestsAs key x.orderId e := by
  constructor
  · rintro ⟨r,reported,level,executes⟩
    cases apply_reports reported with
    | executes x loc e executed found => exact ⟨x,e,executed,loc,found,level⟩
    | withdraws => cases executes
  · rintro ⟨x,e,rfl,loc,found,level⟩
    refine ⟨⟨loc.level,e.seq,min x.execQty e.qty,true⟩,?_,level,rfl⟩
    simp [apply,reduceBy_reduction,found]

end QueuePositionBook

namespace FastAheadTracker
open QueuePositionBook

theorem consume_iff (t : FastAheadTracker) (eff : ApplyEffect) : (t.consume eff).1 = true ↔
    t.becameFront = true ∧ ∃ r, eff.reduction = some r ∧ r.level = t.level ∧ r.isExecute = true := by
  unfold consume
  cases eff.reduction with
  | none => simp
  | some r =>
    by_cases ours : r.level = t.level
    · simp only [ours,ne_eq,not_true_eq_false,if_false]
      split <;> simp [ours]
    · simp [ours]

/-- The rule for one message, in terms of the book and the placed order's number. -/
structure FillRule (s : QueuePositionBook × FastAheadTracker) (m : WireMsg) (key : LevelKey) (ourSeq : UInt64) :
    Prop where
  fills : (s.2.consume (s.1.apply m).1).1 = true ↔
    s.1.qtyAheadOfSeq key ourSeq = 0 ∧ ∃ x e, m = .exec x ∧ s.1.RestsAs key x.orderId e
  executes : (∀ x, m ≠ .exec x) → (s.2.consume (s.1.apply m).1).1 = false
  clears : s.1.qtyAheadOfSeq key ourSeq ≠ 0 → (s.1.apply m).2.qtyAheadOfSeq key ourSeq = 0 →
    (s.2.consume (s.1.apply m).1).1 = false
  behind : (s.2.consume (s.1.apply m).1).1 = true → ∀ x e, m = .exec x → s.1.RestsAs key x.orderId e →
    0 < e.qty → ourSeq ≤ e.seq

theorem FillRule.of_fills {s : QueuePositionBook × FastAheadTracker} {m : WireMsg} {key : LevelKey} {ourSeq : UInt64}
    (follows : s.2.Follows s.1 key ourSeq.toNat)
    (fills : (s.2.consume (s.1.apply m).1).1 = true ↔
      s.1.qtyAheadOfSeq key ourSeq = 0 ∧ ∃ x e, m = .exec x ∧ s.1.RestsAs key x.orderId e) :
    FillRule s m key ourSeq := by
  refine ⟨fills,fun other => ?_,fun waiting _ => ?_,fun filled x e _ rests positive => ?_⟩
  · rw [Bool.eq_false_iff,ne_eq,fills]
    rintro ⟨_,x,_,here,_⟩
    exact other x here
  · rw [Bool.eq_false_iff,ne_eq,fills]
    exact fun both => waiting both.1
  · have none_ := follows.oracle
    rw [(fills.mp filled).1] at none_
    obtain ⟨node,member,rfl⟩ := rests.entry
    by_contra earlier
    have earlier := UInt64.lt_iff_toNat_lt.mp (UInt64.not_le.mp earlier)
    have counted := aheadOf_member _ node member _ earlier
    rw [← none_] at counted
    exact absurd (UInt32.lt_iff_toNat_lt.mp positive) (Nat.not_lt.mpr counted)

/-- An order with a tracker that follows the book fills at an execution of its level that finds
nothing ahead of it. -/
theorem Follows.fills {s : QueuePositionBook × FastAheadTracker} {key : LevelKey} {ourSeq : UInt64}
    (follows : s.2.Follows s.1 key ourSeq.toNat) (m : WireMsg) :
    (s.2.consume (s.1.apply m).1).1 = true ↔
      s.1.qtyAheadOfSeq key ourSeq = 0 ∧ ∃ x e, m = .exec x ∧ s.1.RestsAs key x.orderId e := by
  rw [consume_iff,← UInt64.toNat_inj,follows.oracle,follows.level,apply_executes]
  exact and_congr_left' follows.front

/-- A tracked order fills exactly at an execution of its level that finds nothing ahead of it, as
long as fewer than 2^64 messages of the stream take an arrival number. -/
theorem fill_rule (before later : List WireMsg) (few : (before ++ later).countP introduces < 2^64)
    (key : LevelKey) (small : held ((({} : QueuePositionBook).applyAll before).level key) < 2^32) :
    let book := ({} : QueuePositionBook).applyAll before
    ∀ done m rest, later = done ++ m :: rest → FillRule (done.foldl feed (place book key)) m key book.currentSeq := by
  intro book done m rest split
  have follows := placed_until few rfl small split
  exact FillRule.of_fills follows (follows.fills m)

theorem fill_rule_executed :
    let book := ({} : QueuePositionBook).applyAll [.add ⟨⟨0,0⟩,1,.buy,100,5⟩]
    FillRule ([WireMsg.add ⟨⟨0,0⟩,2,.buy,100,7⟩,.del ⟨⟨0,0⟩,1⟩].foldl feed (place book ⟨0,.buy,100⟩))
      (.exec ⟨⟨0,0⟩,2,3⟩) ⟨0,.buy,100⟩ book.currentSeq :=
  fill_rule [.add ⟨⟨0,0⟩,1,.buy,100,5⟩] [.add ⟨⟨0,0⟩,2,.buy,100,7⟩,.del ⟨⟨0,0⟩,1⟩,.exec ⟨⟨0,0⟩,2,3⟩]
    (by decide) ⟨0,.buy,100⟩ (by decide) _ _ [] rfl

/-- With the arrival numbers at zero again, a newcomer counts as ahead of an order at the front,
and its execution fills that order all the same. -/
theorem newcomer_fills (s : QueuePositionBook × FastAheadTracker) (level : s.1.level ⟨0,.buy,100⟩ = [])
    (nextSeq : s.1.nextSeq = 0) (front : s.2.becameFront = true) (watched : s.2.level = ⟨0,.buy,100⟩) :
    ¬FillRule (feed s (.add ⟨⟨0,0⟩,3,.buy,100,7⟩)) (.exec ⟨⟨0,0⟩,3,1⟩) ⟨0,.buy,100⟩ 1 := by
  obtain ⟨book,t⟩ := s
  simp only at level nextSeq front watched
  change ¬FillRule (book.pushBack ⟨0,.buy,100⟩ 3 7,t) _ _ _
  have rests : (book.pushBack ⟨0,.buy,100⟩ 3 7).level ⟨0,.buy,100⟩ = [⟨book.allocated,⟨3,7,0⟩⟩] := by
    rw [level_pushBack,if_pos rfl,level,nextSeq]
    rfl
  have mapped : (book.pushBack ⟨0,.buy,100⟩ 3 7).orders.lookup 3 = some ⟨⟨0,.buy,100⟩,book.allocated⟩ :=
    Finmap.lookup_insert _
  have known : (book.pushBack ⟨0,.buy,100⟩ 3 7).find 3 = some (⟨⟨0,.buy,100⟩,book.allocated⟩,⟨3,7,0⟩) := by
    simp [find,mapped,deref,rests]
  intro rule
  have fills : (t.consume ((book.pushBack ⟨0,.buy,100⟩ 3 7).apply (.exec ⟨⟨0,0⟩,3,1⟩)).1).1 = true := by
    rw [consume_iff,watched]
    refine ⟨front,⟨⟨0,.buy,100⟩,0,1,true⟩,?_,rfl,rfl⟩
    simp only [apply,reduceBy_reduction,known]
    rfl
  have nothing := (rule.fills.mp fills).1
  rw [qtyAheadOfSeq,rests] at nothing
  have ahead : (7 : UInt64) = 0 := nothing
  exact absurd ahead (by decide)

theorem wrap_fills :
    let book := ({} : QueuePositionBook).applyAll [.add ⟨⟨0,0⟩,1,.buy,98,5⟩]
    let later := (List.replicate (2^64 - 1) visit).flatten ++ [.add ⟨⟨0,0⟩,3,.buy,100,7⟩]
    held (book.level ⟨0,.buy,100⟩) < 2^32 ∧
    ¬FillRule (later.foldl feed (place book ⟨0,.buy,100⟩)) (.exec ⟨⟨0,0⟩,3,1⟩) ⟨0,.buy,100⟩ book.currentSeq := by
  intro book later
  have passed := visits_pass (2^64 - 1) (place book ⟨0,.buy,100⟩) rfl rfl
  have wrapped : (1 : UInt64) + UInt64.ofNat (2^64 - 1) = 0 := by decide
  have number : book.currentSeq = 1 := rfl
  have front : (place book ⟨0,.buy,100⟩).2.becameFront = true := rfl
  have watched : (place book ⟨0,.buy,100⟩).2.level = ⟨0,.buy,100⟩ := rfl
  rw [← passed.tracker] at front watched
  have ends := newcomer_fills _ passed.level (passed.nextSeq.trans wrapped) front watched
  have last : later.foldl feed (place book ⟨0,.buy,100⟩) =
      feed ((List.replicate (2^64 - 1) visit).flatten.foldl feed (place book ⟨0,.buy,100⟩))
        (.add ⟨⟨0,0⟩,3,.buy,100,7⟩) := by
    simp only [later,List.foldl_append,List.foldl_cons,List.foldl_nil]
  rw [last,number]
  exact ⟨by decide,ends⟩

end FastAheadTracker
end MarketFeed
