import MarketFeed.TwoBooks

/-! A queue book that starts with what an earlier stream left in it. Where a stream names only
orders of its own, its entries stand behind the old ones, which nothing touches any more. -/
namespace MarketFeed
open FiniteMap

/-- The order a message names as one that rests already. -/
def referenced : WireMsg → List UInt64
  | .exec e => [e.orderId]
  | .cancel c => [c.orderId]
  | .del d => [d.orderId]
  | .replace r => [r.oldOrderId]
  | _ => []

namespace QueuePositionBook

section Carries
variable (left : QueuePositionBook)

/-! The image of an object of the stream in the book that has the leftovers. -/

def carryEntry (e : QEntry) : QEntry := { e with seq := left.nextSeq + e.seq }
def carryNode (node : Node) : Node := ⟨left.allocated + node.id,left.carryEntry node.entry⟩
def carryLoc (loc : Loc) : Loc := { loc with it := left.allocated + loc.it }
def carryEvent (r : ReductionEvent) : ReductionEvent := { r with entrySeq := left.nextSeq + r.entrySeq }
def carryEffect (eff : ApplyEffect) : ApplyEffect := { eff with reduction := eff.reduction.map left.carryEvent }

/-- `again` is `book` on top of `left`, whatever it says of orders that `book` does not know. -/
structure Carries (book again : QueuePositionBook) : Prop where
  level : ∀ key, again.level key = left.level key ++ (book.level key).map left.carryNode
  orders : ∀ id loc, book.orders.lookup id = some loc → again.orders.lookup id = some (left.carryLoc loc)
  nextSeq : again.nextSeq = left.nextSeq + book.nextSeq
  allocated : again.allocated = left.allocated + book.allocated

theorem carries_start : Carries left {} left := by
  refine ⟨fun key => ?_,by simp,(UInt64.add_zero _).symm,rfl⟩
  have empty : ({} : QueuePositionBook).level key = [] := rfl
  rw [empty,List.map_nil,List.append_nil]

variable {left}

theorem settle_carried (it : Nat) (remains : UInt32) (nodes old : List Node)
    (fresh : ∀ node ∈ old, node.id < left.allocated) :
    settle (left.allocated + it) remains (old ++ nodes.map left.carryNode) =
      old ++ (settle it remains nodes).map left.carryNode := by
  induction old with
  | nil =>
    induction nodes with
    | nil => rfl
    | cons node rest ih =>
      have same : left.allocated + node.id = left.allocated + it ↔ node.id = it := Nat.add_left_cancel_iff
      simp only [List.nil_append,List.map_cons,settle,carryNode,same] at ih ⊢
      by_cases here : node.id = it
      · simp only [if_pos here]
        split <;> rfl
      · simp only [if_neg here,ih]
        rfl
  | cons node rest ih =>
    have apart : node.id ≠ left.allocated + it := by
      have := fresh node List.mem_cons_self
      omega
    rw [List.cons_append,settle,if_neg apart,ih fun x member => fresh x (List.mem_cons_of_mem _ member)]
    rfl

variable {book again : QueuePositionBook} (carries : Carries left book again)
  (fresh : ∀ key, ∀ node ∈ left.level key, node.id < left.allocated)
include carries

theorem held_carried (key : LevelKey) : held (again.level key) = held (left.level key) + held (book.level key) := by
  have same : (fun node : Node => node.entry.qty.toNat) ∘ left.carryNode = fun node => node.entry.qty.toNat := rfl
  rw [carries.level,held,List.map_append,List.sum_append,List.map_map,same]
  rfl

/-- The quantity of a level is the same exactly where its leftovers add up to nothing. -/
theorem total_carried (key : LevelKey) :
    again.levelTotalQty key = book.levelTotalQty key ↔ left.levelTotalQty key = 0 := by
  rw [← UInt32.toNat_inj,← UInt32.toNat_inj,levelTotalQty_toNat,levelTotalQty_toNat,levelTotalQty_toNat,
    held_carried carries,UInt32.toNat_zero]
  omega

theorem pushBack_carried (key : LevelKey) (orderId : UInt64) (qty : UInt32) :
    Carries left (book.pushBack key orderId qty) (again.pushBack key orderId qty) := by
  refine ⟨fun k => ?_,fun id loc known => ?_,?_,?_⟩
  · rw [level_pushBack,level_pushBack,carries.level,carries.level,carries.nextSeq,carries.allocated]
    split
    next same => simp [same,carryNode,carryEntry]
    next => rfl
  · simp only [pushBack,lookup_insert_if] at known ⊢
    split at known
    next same =>
      cases known
      rw [if_pos same,carries.allocated]
      rfl
    next other =>
      rw [if_neg other]
      exact carries.orders id loc known
  · simp only [pushBack,carries.nextSeq,UInt64.add_assoc]
  · simp only [pushBack,carries.allocated,Nat.add_assoc]

include fresh

theorem deref_carried (loc : Loc) : again.deref (left.carryLoc loc) = (book.deref loc).map left.carryEntry := by
  have absent : (left.level loc.level).find? (fun node => node.id = left.allocated + loc.it) = none := by
    rw [List.find?_eq_none]
    intro node member
    have := fresh loc.level node member
    simp
    omega
  have same : ((fun node : Node => decide (node.id = left.allocated + loc.it)) ∘ left.carryNode) =
      fun node => decide (node.id = loc.it) := by
    funext node
    simp [carryNode]
  unfold deref carryLoc
  rw [carries.level,List.find?_append,absent,Option.none_or,List.find?_map,same,Option.map_map,Option.map_map]
  rfl

theorem find_carried (id : UInt64) (own : ∃ loc, book.orders.lookup id = some loc) :
    again.find id = (book.find id).map fun found => (left.carryLoc found.1,left.carryEntry found.2) := by
  obtain ⟨loc,known⟩ := own
  simp only [find,known,carries.orders id loc known,Option.bind_some,deref_carried carries fresh,Option.map_map]
  rfl

theorem reduceBy_carried (orderId : UInt64) (own : ∃ loc, book.orders.lookup orderId = some loc) (qty : UInt32)
    (isExecute : Bool) :
    (again.reduceBy orderId qty isExecute {}).1 = left.carryEffect (book.reduceBy orderId qty isExecute {}).1 ∧
      Carries left (book.reduceBy orderId qty isExecute {}).2 (again.reduceBy orderId qty isExecute {}).2 := by
  obtain ⟨loc,known⟩ := own
  simp only [reduceBy,known,carries.orders orderId loc known,deref_carried carries fresh]
  cases book.deref loc with
  | none => exact ⟨rfl,carries⟩
  | some e =>
    have quantity : (left.carryEntry e).qty = e.qty := rfl
    have there : (left.carryLoc loc).level = loc.level := rfl
    have levels (key : LevelKey) : (again.setLevel loc.level (settle (left.carryLoc loc).it
        (e.qty - min qty e.qty) (again.level loc.level))).level key = left.level key ++
          ((book.setLevel loc.level (settle loc.it (e.qty - min qty e.qty) (book.level loc.level))).level key).map
            left.carryNode := by
      rw [level_setLevel,level_setLevel,carries.level,carries.level]
      split
      next same =>
        rw [same]
        exact settle_carried loc.it _ _ _ (fresh loc.level)
      next => rfl
    simp only [Option.map_some,quantity,there]
    split
    · refine ⟨rfl,levels,fun id loc' known' => ?_,carries.nextSeq,carries.allocated⟩
      simp only [lookup_erase_if] at known' ⊢
      split at known'
      next => cases known'
      next other =>
        rw [if_neg other]
        exact carries.orders id loc' known'
    · exact ⟨rfl,levels,carries.orders,carries.nextSeq,carries.allocated⟩

/-- A message of the stream does to the book what it would do without the leftovers. -/
theorem apply_carried (m : WireMsg) (own : ∀ id ∈ referenced m, ∃ loc, book.orders.lookup id = some loc) :
    (again.apply m).1 = left.carryEffect (book.apply m).1 ∧ Carries left (book.apply m).2 (again.apply m).2 := by
  cases m with
  | zero => exact ⟨rfl,carries⟩
  | add a => exact ⟨rfl,pushBack_carried carries _ _ _⟩
  | exec e => exact reduceBy_carried carries fresh e.orderId (own _ List.mem_cons_self) e.execQty true
  | cancel c => exact reduceBy_carried carries fresh c.orderId (own _ List.mem_cons_self) c.cancelQty false
  | del d =>
    have named := own d.orderId List.mem_cons_self
    simp only [apply,find_carried carries fresh d.orderId named]
    cases book.find d.orderId with
    | none => exact ⟨rfl,carries⟩
    | some found => exact reduceBy_carried carries fresh d.orderId named found.2.qty false
  | replace r =>
    have named := own r.oldOrderId List.mem_cons_self
    simp only [apply,find_carried carries fresh r.oldOrderId named]
    cases book.find r.oldOrderId with
    | none => exact ⟨rfl,carries⟩
    | some found =>
      obtain ⟨effect,kept⟩ := reduceBy_carried carries fresh r.oldOrderId named found.2.qty false
      let key : LevelKey := ⟨r.header.instrumentId,found.1.level.side,r.priceTicks⟩
      refine ⟨?_,pushBack_carried kept key r.newOrderId r.qty⟩
      exact congrArg (fun eff : ApplyEffect => { eff with touched := eff.touched ++ [key] }) effect

end Carries

end QueuePositionBook

open QueuePositionBook

section Maps
variable {orders : OrderMap} {qbook : QueuePositionBook} (located : Located qbook) (same : SameOrders orders qbook)
include located same

theorem sameOrders_reduceBy (orderId : UInt64) (qty : UInt32) (isExecute : Bool) :
    SameOrders ((orders.lookup orderId).elim orders fun loc => lessen orders orderId loc (min qty loc.qty))
      (qbook.reduceBy orderId qty isExecute {}).2 := by
  rw [same orderId]
  cases known : qbook.find orderId with
  | none => simpa [reduceBy,find_unknown located orderId known] using same
  | some found => exact sameOrders_reduce located same orderId qty isExecute found known

theorem sameOrders_apply (m : WireMsg) : SameOrders (trackOrders m orders) (qbook.apply m).2 := by
  have emptied (orderId : UInt64) (found : Loc × QEntry) (known : qbook.find orderId = some found) :
      SameOrders (orders.erase orderId) (qbook.reduceBy orderId found.2.qty false {}).2 := by
    have reduced := sameOrders_reduce located same orderId found.2.qty false found known
    have whole : min found.2.qty found.2.qty = (resting found).qty := Std.min_self
    rwa [whole,lessen_all] at reduced
  cases m with
  | zero => exact same
  | add a => exact sameOrders_push located same ⟨a.header.instrumentId,a.side,a.priceTicks⟩ a.orderId a.qty
  | exec e => exact sameOrders_reduceBy located same e.orderId e.execQty true
  | cancel c => exact sameOrders_reduceBy located same c.orderId c.cancelQty false
  | del d =>
    simp only [trackOrders,apply,same d.orderId]
    cases known : qbook.find d.orderId with
    | none => exact same
    | some found => exact emptied d.orderId found known
  | replace r =>
    simp only [trackOrders,apply,same r.oldOrderId]
    cases known : qbook.find r.oldOrderId with
    | none => exact same
    | some found =>
      exact sameOrders_push (reduceBy_located located _ _ _ _) (emptied r.oldOrderId found known)
        ⟨r.header.instrumentId,found.1.level.side,r.priceTicks⟩ r.newOrderId r.qty

omit located in
theorem rests_known (m : WireMsg) (rests : ∀ id ∈ referenced m, ∃ loc, orders.lookup id = some loc) :
    ∀ id ∈ referenced m, ∃ loc, qbook.orders.lookup id = some loc := by
  intro id named
  obtain ⟨loc,known⟩ := rests id named
  rw [same] at known
  obtain ⟨found,here,_⟩ := Option.map_eq_some_iff.mp known
  obtain ⟨loc,known,_⟩ := Option.bind_eq_some_iff.mp here
  exact ⟨loc,known⟩

end Maps

/-- Each message names only orders that rest when it comes. -/
def NamesResting (orders : OrderMap) : List WireMsg → Prop
  | [] => True
  | m :: rest => (∀ id ∈ referenced m, ∃ loc, orders.lookup id = some loc) ∧ NamesResting (trackOrders m orders) rest

theorem namesResting_append (first second : List WireMsg) (orders : OrderMap) :
    NamesResting orders (first ++ second) ↔ NamesResting orders first ∧
      NamesResting (first.foldl (fun orders m => trackOrders m orders) orders) second := by
  induction first generalizing orders with
  | nil => simp [NamesResting]
  | cons m rest ih => simp [NamesResting,ih,and_assoc]

namespace QueuePositionBook

/-- What a message takes from has arrived before it. -/
theorem apply_entrySeq {book : QueuePositionBook} (arrived : Arrived book) (m : WireMsg) (r : ReductionEvent)
    (reported : (book.apply m).1.reduction = some r) : r.entrySeq.toNat < book.nextSeq.toNat := by
  cases apply_reports reported with
  | executes _ loc e _ found | withdraws _ loc e _ found =>
    obtain ⟨node,member,rfl⟩ := find_entry book _ loc e found
    exact arrived loc.level node member

theorem carries_applyAll (messages : List WireMsg) {left book again : QueuePositionBook} {orders : OrderMap}
    (carries : Carries left book again) (fresh : ∀ key, ∀ node ∈ left.level key, node.id < left.allocated)
    (located : Located book) (same : SameOrders orders book) (resting : NamesResting orders messages) :
    Carries left (book.applyAll messages) (again.applyAll messages) := by
  induction messages generalizing book again orders with
  | nil => exact carries
  | cons m rest ih =>
    have next := (apply_carried carries fresh m (rests_known same m resting.1)).2
    exact ih next (apply_located located m) (sameOrders_apply located same m) resting.2

end QueuePositionBook

namespace FastAheadTracker

def carry (left : QueuePositionBook) (t : FastAheadTracker) : FastAheadTracker :=
  { t with ourSeq := left.nextSeq + t.ourSeq }

theorem construct_carry (left : QueuePositionBook) (key : LevelKey) (ourSeq ahead : UInt64) :
    construct key (left.nextSeq + ourSeq) ahead = (construct key ourSeq ahead).carry left := by
  unfold construct
  simp only
  split <;> rfl

theorem consume_ourSeq (t : FastAheadTracker) (eff : ApplyEffect) : (t.consume eff).2.ourSeq = t.ourSeq := by
  unfold consume
  cases eff.reduction with
  | none => rfl
  | some r =>
    simp only
    split
    · rfl
    · split <;> rfl

/-- As long as no arrival number wraps, the tracker tells the same of a carried effect. -/
theorem consume_carry (left : QueuePositionBook) (t : FastAheadTracker) (eff : ApplyEffect)
    (within : left.nextSeq.toNat + t.ourSeq.toNat < 2^64)
    (arrived : ∀ r, eff.reduction = some r → left.nextSeq.toNat + r.entrySeq.toNat < 2^64) :
    (t.carry left).consume (left.carryEffect eff) = ((t.consume eff).1,(t.consume eff).2.carry left) := by
  unfold consume
  cases reported : eff.reduction with
  | none => simp [QueuePositionBook.carryEffect,reported]
  | some r =>
    have event : (left.carryEffect eff).reduction = some (left.carryEvent r) := by
      simp [QueuePositionBook.carryEffect,reported]
    have order : left.nextSeq + r.entrySeq < left.nextSeq + t.ourSeq ↔ r.entrySeq < t.ourSeq := by
      rw [UInt64.lt_iff_toNat_lt,UInt64.lt_iff_toNat_lt,UInt64.toNat_add,UInt64.toNat_add,
        Nat.mod_eq_of_lt (arrived r reported),Nat.mod_eq_of_lt within]
      exact Nat.add_lt_add_iff_left
    simp only [event,QueuePositionBook.carryEvent,carry,order]
    split
    · rfl
    · split <;> rfl

end FastAheadTracker
end MarketFeed
