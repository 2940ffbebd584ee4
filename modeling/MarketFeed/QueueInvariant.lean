import MarketFeed.QueueTracker
import Mathlib.Data.UInt

/-! The representation invariant of the queue-position book: the order map and the level lists
point at each other, and a list stands in the order of arrival. -/
namespace MarketFeed.QueuePositionBook
open FiniteMap
open scoped BigOperators

/-- `for (const auto& [key, lst] : levels_) for (const auto& e : lst) total += e.qty;` -/
def totalRestingQty (book : QueuePositionBook) : UInt64 := ∑ key ∈ book.levels.keys, total (book.level key)

def liveOrderCount (book : QueuePositionBook) : Nat := book.orders.keys.card

/-- The exact sum of all entries. -/
def resting (book : QueuePositionBook) : Nat := weight held book.levels

def entryCount (book : QueuePositionBook) : Nat := weight List.length book.levels

/-- What of a node never changes: its id, its order's id and its arrival number. -/
def ident (node : Node) : Nat × UInt64 × UInt64 := (node.id,node.entry.orderId,node.entry.seq)

theorem settle_idents (it : Nat) (left : UInt32) (nodes : List Node) :
    ((settle it left nodes).map ident).Sublist (nodes.map ident) := by
  induction nodes with
  | nil => exact List.Sublist.refl _
  | cons first rest ih =>
    unfold settle
    split
    · split
      · exact List.sublist_cons_self _ _
      · exact List.Sublist.refl _
    · exact ih.cons_cons _

theorem settle_gone (it : Nat) (nodes : List Node) (distinct : nodes.Pairwise fun a b => a.id < b.id) :
    ∀ node ∈ settle it 0 nodes, node.id ≠ it := by
  induction nodes with
  | nil => simp [settle]
  | cons first rest ih =>
    obtain ⟨before,distinct⟩ := List.pairwise_cons.mp distinct
    unfold settle
    split
    next here =>
      intro node member same
      have := before node (by simpa using member)
      omega
    next elsewhere =>
      intro node member
      rcases List.mem_cons.mp member with rfl | later
      · exact elsewhere
      · exact ih distinct node later

theorem settle_length (it : Nat) (left : UInt32) (nodes : List Node) (node : Node)
    (found : nodes.find? (fun node => node.id = it) = some node) :
    (settle it left nodes).length + (if left = 0 then 1 else 0) = nodes.length := by
  induction nodes with
  | nil => simp at found
  | cons first rest ih =>
    rw [List.find?_cons] at found
    unfold settle
    split
    next here => split <;> simp
    next elsewhere =>
      simp only [elsewhere,decide_false] at found
      have shorter := ih found
      simp only [List.length_cons]
      omega

theorem weight_setLevel (f : List Node → Nat) (empty : f [] = 0) (book : QueuePositionBook) (key : LevelKey)
    (nodes : List Node) :
    weight f (book.setLevel key nodes).levels + f (book.level key) = weight f book.levels + f nodes := by
  have read : ((book.levels.lookup key).map f).getD 0 = f (book.level key) := by
    unfold level
    cases book.levels.lookup key with
    | none => exact empty.symm
    | some nodes => rfl
  unfold setLevel
  cases nodes with
  | nil =>
    rw [← read,empty]
    exact weight_erase f book.levels key
  | cons node rest =>
    rw [← read]
    exact weight_insert f book.levels key (node :: rest)

theorem weight_pushBack (f : List Node → Nat) (empty : f [] = 0) (book : QueuePositionBook) (key : LevelKey)
    (orderId : UInt64) (qty : UInt32) :
    weight f (book.pushBack key orderId qty).levels + f (book.level key) =
      weight f book.levels + f (book.level key ++ [⟨book.allocated,⟨orderId,qty,book.nextSeq⟩⟩]) := by
  have same : (book.pushBack key orderId qty).levels =
      (book.setLevel key (book.level key ++ [⟨book.allocated,⟨orderId,qty,book.nextSeq⟩⟩])).levels := by
    simp [pushBack,setLevel]
  rw [same]
  exact weight_setLevel f empty book key _

/-- What every step keeps. Node ids and arrival numbers run together until the numbers wrap. -/
structure Sound (book : QueuePositionBook) : Prop where
  located : Located book
  owned : ∀ key, ∀ node ∈ book.level key, book.orders.lookup node.entry.orderId = some ⟨key,node.id⟩
  ordered : ∀ key, (book.level key).Pairwise fun a b => a.id < b.id
  apart : ∀ key key', ∀ node ∈ book.level key, ∀ node' ∈ book.level key', node.id = node'.id → key = key'
  numbered : ∀ key, ∀ node ∈ book.level key, node.entry.seq.toNat = node.id
  counter : book.nextSeq.toNat = book.allocated
  stored : ∀ key, book.levels.lookup key ≠ some []
  counted : book.liveOrderCount = book.entryCount

theorem sound_empty : Sound {} := by
  refine ⟨located_empty,?_,?_,?_,?_,rfl,?_,?_⟩
  · intro key node member
    exact absurd member List.not_mem_nil
  · exact fun key => List.Pairwise.nil
  · intro key key' node member
    exact absurd member List.not_mem_nil
  · intro key node member
    exact absurd member List.not_mem_nil
  · intro key
    simp
  · simp [liveOrderCount,entryCount,weight_empty]

theorem level_stored {book : QueuePositionBook} (stored : ∀ key, book.levels.lookup key ≠ some [])
    (key : LevelKey) (nodes : List Node) (k : LevelKey) : (book.setLevel key nodes).levels.lookup k ≠ some [] := by
  unfold setLevel
  cases nodes with
  | nil =>
    simp only [List.isEmpty_nil,if_true,lookup_erase_if]
    split
    · simp
    · exact stored k
  | cons node rest =>
    simp only [List.isEmpty_cons,Bool.false_eq_true,if_false,lookup_insert_if]
    split
    · simp
    · exact stored k

theorem idents_origin {before after : List Node} (idents : (after.map ident).Sublist (before.map ident)) (node : Node)
    (member : node ∈ after) : ∃ old ∈ before, old.id = node.id ∧ old.entry.orderId = node.entry.orderId ∧
      old.entry.seq = node.entry.seq := by
  obtain ⟨old,inside,same⟩ := List.mem_map.mp (idents.subset (List.mem_map_of_mem member))
  exact ⟨old,inside,by simpa [ident] using same⟩

/-- A book whose lists lose entries and whose map agrees on the others stays sound. -/
theorem Sound.shrink {book next : QueuePositionBook} (sound : Sound book) (located : Located next)
    (idents : ∀ key, ((next.level key).map ident).Sublist ((book.level key).map ident))
    (mapped : ∀ key, ∀ node ∈ next.level key,
      next.orders.lookup node.entry.orderId = book.orders.lookup node.entry.orderId)
    (counters : next.nextSeq = book.nextSeq ∧ next.allocated = book.allocated)
    (stored : ∀ key, next.levels.lookup key ≠ some []) (counted : next.liveOrderCount = next.entryCount) :
    Sound next := by
  refine ⟨located,?_,?_,?_,?_,?_,stored,counted⟩
  · intro key node member
    obtain ⟨old,inside,id,order,_⟩ := idents_origin (idents key) node member
    rw [mapped key node member,← order,← id]
    exact sound.owned key old inside
  · intro key
    have ids : ((book.level key).map ident).Pairwise fun a b => a.1 < b.1 := List.pairwise_map.mpr (sound.ordered key)
    have fewer : ((next.level key).map ident).Pairwise fun a b => a.1 < b.1 := ids.sublist (idents key)
    exact (List.pairwise_map (f := ident)).mp fewer
  · intro key key' node member node' member' same
    obtain ⟨old,inside,id,_⟩ := idents_origin (idents key) node member
    obtain ⟨old',inside',id',_⟩ := idents_origin (idents key') node' member'
    exact sound.apart key key' old inside old' inside' (by rw [id,id',same])
  · intro key node member
    obtain ⟨old,inside,id,_,seq⟩ := idents_origin (idents key) node member
    rw [← seq,← id]
    exact sound.numbered key old inside
  · rw [counters.1,counters.2]
    exact sound.counter

section Steps
variable {book : QueuePositionBook} (sound : Sound book)
include sound

theorem reduceBy_sound (orderId : UInt64) (qty : UInt32) (isExecute : Bool) (eff : ApplyEffect) :
    Sound (book.reduceBy orderId qty isExecute eff).2 ∧
      ∀ key, (((book.reduceBy orderId qty isExecute eff).2.level key).map ident).Sublist
        ((book.level key).map ident) := by
  have located := reduceBy_located sound.located orderId qty isExecute eff
  revert located
  unfold reduceBy
  cases known : book.orders.lookup orderId with
  | none => exact fun _ => ⟨sound,fun key => List.Sublist.refl _⟩
  | some loc =>
    obtain ⟨e,here,_⟩ := sound.located.pointed orderId loc known
    obtain ⟨node,found,rfl⟩ := Option.map_eq_some_iff.mp here
    simp only [here]
    generalize node.entry.qty - min qty node.entry.qty = left
    have idents (key : LevelKey) :
        (((book.setLevel loc.level (settle loc.it left (book.level loc.level))).level key).map ident).Sublist
          ((book.level key).map ident) := by
      rw [level_setLevel]
      split
      next same => rw [same]; exact settle_idents _ _ _
      next => exact List.Sublist.refl _
    have stored := level_stored sound.stored loc.level (settle loc.it left (book.level loc.level))
    have length := settle_length loc.it left (book.level loc.level) node found
    have counted := weight_setLevel List.length rfl book loc.level (settle loc.it left (book.level loc.level))
    have count := sound.counted
    unfold liveOrderCount entryCount at count
    split
    next emptied =>
      refine fun located => ⟨sound.shrink located idents ?_ ⟨rfl,rfl⟩ stored ?_,idents⟩
      · intro key other member
        change other ∈ (book.setLevel loc.level (settle loc.it left (book.level loc.level))).level key at member
        change (book.orders.erase orderId).lookup _ = _
        have apart : other.entry.orderId ≠ orderId := by
          intro same
          obtain ⟨old,inside,id,order,_⟩ := idents_origin (idents key) other member
          have owner := sound.owned key old inside
          rw [order,same,known] at owner
          obtain rfl := Option.some.inj owner
          rw [level_setLevel,if_pos rfl,emptied] at member
          exact settle_gone old.id _ (sound.ordered _) other member id.symm
        rw [lookup_erase_if,if_neg apart]
      · rw [if_pos emptied] at length
        have erased := weight_split (fun _ => 1) book.orders orderId loc known
        rw [weight_one,weight_one] at erased
        change (book.orders.erase orderId).keys.card =
          weight List.length (book.setLevel loc.level (settle loc.it left (book.level loc.level))).levels
        omega
    next remains =>
      refine fun located => ⟨sound.shrink located idents (fun _ _ _ => rfl) ⟨rfl,rfl⟩ stored ?_,idents⟩
      rw [if_neg remains] at length
      change book.orders.keys.card =
        weight List.length (book.setLevel loc.level (settle loc.it left (book.level loc.level))).levels
      omega

theorem pushBack_sound (key : LevelKey) (orderId : UInt64) (qty : UInt32)
    (absent : book.orders.lookup orderId = none) (room : book.nextSeq.toNat + 1 < 2^64) :
    Sound (book.pushBack key orderId qty) := by
  have fresh := sound.located.fresh
  have members (k : LevelKey) (node : Node) (member : node ∈ (book.pushBack key orderId qty).level k) :
      node ∈ book.level k ∨ (k = key ∧ node = ⟨book.allocated,⟨orderId,qty,book.nextSeq⟩⟩) := by
    rw [level_pushBack] at member
    split at member
    next same =>
      rcases List.mem_append.mp member with earlier | last
      · exact Or.inl (same ▸ earlier)
      · exact Or.inr ⟨same,List.mem_singleton.mp last⟩
    next => exact Or.inl member
  refine ⟨pushBack_located sound.located key orderId qty,?_,?_,?_,?_,?_,?_,?_⟩
  · intro k node member
    change (book.orders.insert orderId _).lookup _ = _
    rw [lookup_insert_if]
    rcases members k node member with earlier | ⟨rfl,rfl⟩
    · have owner := sound.owned k node earlier
      have other : node.entry.orderId ≠ orderId := by
        intro same
        rw [same,absent] at owner
        contradiction
      rw [if_neg other,owner]
    · rw [if_pos rfl]
  · intro k
    rw [level_pushBack]
    split
    next =>
      refine List.pairwise_append.mpr ⟨sound.ordered key,List.pairwise_singleton _ _,?_⟩
      intro node earlier last member
      rw [List.mem_singleton.mp member]
      exact fresh key node earlier
    next => exact sound.ordered k
  · intro k k' node member node' member' same
    rcases members k node member with earlier | ⟨rfl,rfl⟩ <;>
      rcases members k' node' member' with earlier' | ⟨rfl,rfl⟩
    · exact sound.apart k k' node earlier node' earlier' same
    · exact absurd same (Nat.ne_of_lt (fresh k node earlier))
    · exact absurd same.symm (Nat.ne_of_lt (fresh k' node' earlier'))
    · rfl
  · intro k node member
    rcases members k node member with earlier | ⟨rfl,rfl⟩
    · exact sound.numbered k node earlier
    · exact sound.counter
  · change (book.nextSeq + 1).toNat = book.allocated + 1
    rw [← sound.counter,UInt64.toNat_add]
    exact Nat.mod_eq_of_lt room
  · intro k
    change (book.levels.insert key _).lookup k ≠ some []
    rw [lookup_insert_if]
    split
    · simp
    · exact sound.stored k
  · have added := weight_insert_absent (fun _ => 1) book.orders orderId ⟨key,book.allocated⟩ absent
    rw [weight_one,weight_one] at added
    have longer := weight_pushBack List.length rfl book key orderId qty
    rw [List.length_append,List.length_singleton] at longer
    have count := sound.counted
    unfold liveOrderCount entryCount at count
    change (book.orders.insert orderId _).keys.card = weight List.length (book.pushBack key orderId qty).levels
    omega

end Steps

/-! What one message does -/

def reducedQty (eff : ApplyEffect) : UInt32 := (eff.reduction.map ReductionEvent.qtyReduced).getD 0

/-- The key, id and quantity a message brings to the back of a level. -/
def arrival (book : QueuePositionBook) : WireMsg → Option (LevelKey × UInt64 × UInt32)
  | .add a => some (⟨a.header.instrumentId,a.side,a.priceTicks⟩,a.orderId,a.qty)
  | .replace r => (book.find r.oldOrderId).map fun found =>
      (⟨r.header.instrumentId,found.1.level.side,r.priceTicks⟩,r.newOrderId,r.qty)
  | _ => none

def addedQty (book : QueuePositionBook) (m : WireMsg) : UInt32 := ((book.arrival m).map fun new => new.2.2).getD 0

/-- An Add and a Replace introduce an id that is not live; a Replace may reuse the one it retires. -/
def Fresh (book : QueuePositionBook) : WireMsg → Prop
  | .add a => book.orders.lookup a.orderId = none
  | .replace r => book.orders.lookup r.newOrderId = none ∨ r.newOrderId = r.oldOrderId
  | _ => True

def FreshIds (book : QueuePositionBook) : List WireMsg → Prop
  | [] => True
  | m :: rest => book.Fresh m ∧ FreshIds (book.apply m).2 rest

/-- The first part of a message, up to what it pushes. -/
structure Withdraws (book : QueuePositionBook) (eff : ApplyEffect) (mid : QueuePositionBook) : Prop where
  sound : Sound book → Sound mid ∧ ∀ key, ((mid.level key).map ident).Sublist ((book.level key).map ident)
  resting : mid.resting + (reducedQty eff).toNat = book.resting
  nextSeq : mid.nextSeq = book.nextSeq

theorem Withdraws.nothing (book : QueuePositionBook) : Withdraws book {} book :=
  ⟨fun sound => ⟨sound,fun _ => List.Sublist.refl _⟩,rfl,rfl⟩

theorem reduceBy_withdraws (book : QueuePositionBook) (orderId : UInt64) (qty : UInt32) (isExecute : Bool) :
    Withdraws book (book.reduceBy orderId qty isExecute {}).1 (book.reduceBy orderId qty isExecute {}).2 := by
  refine ⟨fun sound => reduceBy_sound sound orderId qty isExecute {},?_,
    (reduceBy_reduces book orderId qty isExecute).nextSeq⟩
  unfold reduceBy
  cases book.orders.lookup orderId with
  | none => rfl
  | some loc =>
    cases located : book.deref loc with
    | none => simp [located,reducedQty]
    | some e =>
      obtain ⟨node,found,rfl⟩ := Option.map_eq_some_iff.mp located
      have settled := settle_ahead (book.level loc.level) loc.it node (min qty node.entry.qty) (2^64) found
        Std.min_le_right
      rw [held_whole,held_whole,if_pos node.entry.seq.toNat_lt] at settled
      have moved := weight_setLevel held rfl book loc.level
        (settle loc.it (node.entry.qty - min qty node.entry.qty) (book.level loc.level))
      have left : (book.setLevel loc.level
          (settle loc.it (node.entry.qty - min qty node.entry.qty) (book.level loc.level))).resting +
            (min qty node.entry.qty).toNat = book.resting := by
        unfold resting
        omega
      simp only [located]
      split <;> exact left

theorem reduceBy_whole (book : QueuePositionBook) (orderId : UInt64) (loc : Loc) (e : QEntry) (isExecute : Bool)
    (found : book.find orderId = some (loc,e)) :
    (book.reduceBy orderId e.qty isExecute {}).2.orders = book.orders.erase orderId := by
  obtain ⟨loc',known,shown⟩ := Option.bind_eq_some_iff.mp found
  obtain ⟨e',here,same⟩ := Option.map_eq_some_iff.mp shown
  obtain ⟨rfl,rfl⟩ := Prod.mk.inj same
  have whole : e'.qty - min e'.qty e'.qty = 0 := by simp [Std.min_self]
  simp only [reduceBy,known,here,whole,if_true]
  rfl

theorem apply_withdraws (book : QueuePositionBook) (m : WireMsg) : ∃ eff mid, Withdraws book eff mid ∧
    (book.apply m).1.reduction = eff.reduction ∧
    (book.apply m).2 = (book.arrival m).elim mid (fun new => mid.pushBack new.1 new.2.1 new.2.2) ∧
    ∀ new, book.arrival m = some new → book.Fresh m → mid.orders.lookup new.2.1 = none := by
  have reduces (orderId : UInt64) (qty : UInt32) (isExecute : Bool) := reduceBy_withdraws book orderId qty isExecute
  cases m with
  | zero => exact ⟨{},book,.nothing book,rfl,rfl,fun new none_ => by simp [arrival] at none_⟩
  | add a =>
    refine ⟨{},book,.nothing book,rfl,rfl,?_⟩
    rintro new brought fresh
    obtain rfl := Option.some.inj brought
    exact fresh
  | exec e => exact ⟨_,_,reduces _ _ _,rfl,rfl,fun new none_ => by simp [arrival] at none_⟩
  | cancel c => exact ⟨_,_,reduces _ _ _,rfl,rfl,fun new none_ => by simp [arrival] at none_⟩
  | del d =>
    simp only [apply]
    cases book.find d.orderId with
    | none => exact ⟨{},book,.nothing book,rfl,rfl,fun new none_ => by simp [arrival] at none_⟩
    | some found => exact ⟨_,_,reduces _ _ _,rfl,rfl,fun new none_ => by simp [arrival] at none_⟩
  | replace r =>
    simp only [apply,arrival]
    cases known : book.find r.oldOrderId with
    | none => exact ⟨{},book,.nothing book,rfl,rfl,fun new none_ => by simp at none_⟩
    | some found =>
      refine ⟨_,_,reduces r.oldOrderId found.2.qty false,rfl,rfl,?_⟩
      rintro new brought fresh
      obtain rfl := Option.some.inj brought
      rw [reduceBy_whole book r.oldOrderId found.1 found.2 false known,lookup_erase_if]
      rcases fresh with absent | reused
      · simp [absent]
      · simp [reused]

/-- The orders of a level with their arrival numbers, front to back. -/
def marks (nodes : List Node) : List (UInt64 × UInt64) := nodes.map fun node => (node.entry.orderId,node.entry.seq)

/-- What a message puts at the back of a level. -/
def joining (book : QueuePositionBook) (m : WireMsg) (key : LevelKey) : List (UInt64 × UInt64) :=
  match book.arrival m with
  | none => []
  | some (home,orderId,_) => if key = home then [(orderId,book.currentSeq)] else []

/-- One message keeps the order and the numbers of those that stay, puts a newcomer behind them all,
and changes the total by what it adds less what it reports. -/
structure Conserves (book : QueuePositionBook) (m : WireMsg) : Prop where
  queues : ∀ key, ∃ kept, kept.Sublist (marks (book.level key)) ∧
    marks ((book.apply m).2.level key) = kept ++ book.joining m key
  exact : (book.apply m).2.resting + (reducedQty (book.apply m).1).toNat = book.resting + (book.addedQty m).toNat
  total : (book.apply m).2.totalRestingQty =
    book.totalRestingQty + (book.addedQty m).toUInt64 - (reducedQty (book.apply m).1).toUInt64

theorem resting_pushBack (book : QueuePositionBook) (key : LevelKey) (orderId : UInt64) (qty : UInt32) :
    (book.pushBack key orderId qty).resting = book.resting + qty.toNat := by
  have pushed := weight_pushBack held rfl book key orderId qty
  have longer : held (book.level key ++ [⟨book.allocated,⟨orderId,qty,book.nextSeq⟩⟩]) =
      held (book.level key) + qty.toNat := by simp [held]
  unfold resting
  omega

def ofNatHom : Nat →+ UInt64 := ⟨⟨UInt64.ofNat,rfl⟩,UInt64.ofNat_add⟩

theorem total_eq (nodes : List Node) : total nodes = UInt64.ofNat (held nodes) := by
  rw [← UInt64.toNat_inj,total_toNat]
  exact UInt64.toNat_ofNat'.symm

theorem totalRestingQty_eq (book : QueuePositionBook) : book.totalRestingQty = UInt64.ofNat book.resting := by
  have summed : ofNatHom book.resting =
      ∑ key ∈ book.levels.keys, ofNatHom (((book.levels.lookup key).map held).getD 0) := map_sum ofNatHom _ _
  refine (Finset.sum_congr rfl fun key _ => ?_).trans summed.symm
  rw [total_eq,level]
  cases book.levels.lookup key <;> rfl

theorem ofNat_toNat32 (n : UInt32) : UInt64.ofNat n.toNat = n.toUInt64 := by
  rw [← UInt64.toNat_inj]
  simp

theorem arrival_introduces (book : QueuePositionBook) (m : WireMsg) (new : LevelKey × UInt64 × UInt32)
    (brought : book.arrival m = some new) : [m].countP introduces = 1 := by
  cases m with
  | add a => rfl
  | replace r => rfl
  | zero => simp [arrival] at brought
  | exec e => simp [arrival] at brought
  | cancel c => simp [arrival] at brought
  | del d => simp [arrival] at brought

theorem apply_sound {book : QueuePositionBook} (sound : Sound book) (m : WireMsg) (fresh : book.Fresh m)
    (room : book.nextSeq.toNat + [m].countP introduces < 2^64) : Sound (book.apply m).2 := by
  obtain ⟨eff,mid,withdraws,_,next,absent⟩ := apply_withdraws book m
  have settled := (withdraws.sound sound).1
  rw [next]
  cases brought : book.arrival m with
  | none => exact settled
  | some new =>
    rw [arrival_introduces book m new brought,← withdraws.nextSeq] at room
    exact pushBack_sound settled _ _ _ (absent new brought fresh) room

theorem apply_conserves {book : QueuePositionBook} (sound : Sound book) (m : WireMsg) : Conserves book m := by
  obtain ⟨eff,mid,withdraws,reported,next,_⟩ := apply_withdraws book m
  have fewer := (withdraws.sound sound).2
  have kept (key : LevelKey) : (marks (mid.level key)).Sublist (marks (book.level key)) := by
    simpa [marks,ident,Function.comp_def] using (fewer key).map Prod.snd
  have exact_ : (book.apply m).2.resting + (reducedQty (book.apply m).1).toNat =
      book.resting + (book.addedQty m).toNat := by
    have left := withdraws.resting
    have reduced : reducedQty (book.apply m).1 = reducedQty eff := by rw [reducedQty,reported,reducedQty]
    rw [reduced,next,addedQty]
    cases book.arrival m with
    | none => simpa using left
    | some new =>
      simp only [Option.elim_some,Option.map_some,Option.getD_some,resting_pushBack]
      omega
  refine ⟨fun key => ⟨marks (mid.level key),kept key,?_⟩,exact_,?_⟩
  · rw [next,joining]
    cases brought : book.arrival m with
    | none => exact (List.append_nil _).symm
    | some new =>
      simp only [Option.elim_some,level_pushBack]
      by_cases here : key = new.1
      · simp [here,marks,withdraws.nextSeq,currentSeq]
      · simp [here]
  · rw [totalRestingQty_eq,totalRestingQty_eq,← ofNat_toNat32,← ofNat_toNat32,eq_sub_iff_add_eq,← UInt64.ofNat_add,
      ← UInt64.ofNat_add,exact_]

/-- The two containers as a caller sees them. -/
structure Represents (book : QueuePositionBook) : Prop where
  located : ∀ orderId loc, book.orders.lookup orderId = some loc → ∃ node ∈ book.level loc.level,
    node.id = loc.it ∧ node.entry.orderId = orderId ∧ ∀ other ∈ book.level loc.level, other.id = loc.it → other = node
  owned : ∀ key, ∀ node ∈ book.level key, ∀ orderId,
    book.orders.lookup orderId = some ⟨key,node.id⟩ ↔ orderId = node.entry.orderId
  stored : ∀ key, book.levels.lookup key ≠ some []
  ordered : ∀ key, (book.level key).Pairwise fun a b => a.entry.seq < b.entry.seq
  distinct : ∀ key key', ∀ node ∈ book.level key, ∀ node' ∈ book.level key',
    node.entry.seq = node'.entry.seq → key = key' ∧ node = node'
  arrived : ∀ key, ∀ node ∈ book.level key, node.entry.seq < book.currentSeq
  counted : book.liveOrderCount = book.entryCount

theorem same_node {nodes : List Node} (ordered : nodes.Pairwise fun a b => a.id < b.id) (node other : Node)
    (member : node ∈ nodes) (member' : other ∈ nodes) (same : node.id = other.id) : node = other := by
  have distinct : (nodes.map Node.id).Nodup := List.pairwise_map.mpr (ordered.imp Nat.ne_of_lt)
  exact List.inj_on_of_nodup_map distinct member member' same

theorem Sound.represents {book : QueuePositionBook} (sound : Sound book) : Represents book := by
  have unique (key : LevelKey) (node other : Node) (member : node ∈ book.level key) (member' : other ∈ book.level key)
      (same : node.id = other.id) : node = other := same_node (sound.ordered key) node other member member' same
  refine ⟨?_,?_,sound.stored,?_,?_,?_,sound.counted⟩
  · intro orderId loc known
    obtain ⟨e,here,owner⟩ := sound.located.pointed orderId loc known
    obtain ⟨node,found,rfl⟩ := Option.map_eq_some_iff.mp here
    have member := List.mem_of_find?_eq_some found
    have id : node.id = loc.it := by simpa using List.find?_some found
    exact ⟨node,member,id,owner,fun other member' same => unique _ other node member' member (same.trans id.symm)⟩
  · intro key node member orderId
    refine ⟨fun known => ?_,fun same => same ▸ sound.owned key node member⟩
    obtain ⟨e,here,owner⟩ := sound.located.pointed orderId _ known
    obtain ⟨other,found,rfl⟩ := Option.map_eq_some_iff.mp here
    have id : other.id = node.id := by simpa using List.find?_some found
    rw [← owner,unique key other node (List.mem_of_find?_eq_some found) member id]
  · intro key
    refine (sound.ordered key).imp_of_mem fun {a b} first second less => ?_
    rw [UInt64.lt_iff_toNat_lt,sound.numbered key a first,sound.numbered key b second]
    exact less
  · intro key key' node member node' member' same
    have id : node.id = node'.id := by
      rw [← sound.numbered key node member,← sound.numbered key' node' member',same]
    obtain rfl := sound.apart key key' node member node' member' id
    exact ⟨rfl,unique key node node' member member' id⟩
  · intro key node member
    rw [UInt64.lt_iff_toNat_lt,sound.numbered key node member,currentSeq,sound.counter]
    exact sound.located.fresh key node member

theorem applyAll_sound (messages : List WireMsg) (book : QueuePositionBook) (count : Nat) (sound : Sound book)
    (counted : Counted book count) (fresh : book.FreshIds messages) (few : count + messages.countP introduces < 2^64) :
    Sound (book.applyAll messages) := by
  induction messages generalizing book count with
  | nil => exact sound
  | cons m rest ih =>
    rw [introduced_cons,← Nat.add_assoc] at few
    have behind := counted.nextSeq
    obtain ⟨next,_⟩ := counted_step (apply_applies book m) counted (by omega)
    exact ih _ _ (apply_sound sound m fresh.1 (by omega)) next fresh.2 few

theorem freshIds_append (first second : List WireMsg) (book : QueuePositionBook) :
    book.FreshIds (first ++ second) ↔ book.FreshIds first ∧ (book.applyAll first).FreshIds second := by
  induction first generalizing book with
  | nil => exact (and_iff_right trivial).symm
  | cons m rest ih =>
    simp only [List.cons_append,FreshIds,ih,and_assoc]
    rfl

/-- After every message the map and the lists represent each other and every list is in the order of
arrival, and each message conserves them, as long as fewer than 2^64 messages take an arrival number. -/
theorem representation (messages : List WireMsg) (fresh : ({} : QueuePositionBook).FreshIds messages)
    (few : messages.countP introduces < 2^64) :
    (∀ done, done <+: messages → Represents (({} : QueuePositionBook).applyAll done)) ∧
    ∀ done m rest, messages = done ++ m :: rest → Conserves (({} : QueuePositionBook).applyAll done) m := by
  have reached (done rest : List WireMsg) (split : messages = done ++ rest) :
      Sound (({} : QueuePositionBook).applyAll done) := by
    rw [split,freshIds_append] at fresh
    rw [split,List.countP_append] at few
    exact applyAll_sound done {} 0 sound_empty counted_empty fresh.1 (by omega)
  refine ⟨?_,fun done m rest split => apply_conserves (reached done (m :: rest) split) m⟩
  rintro done ⟨rest,rfl⟩
  exact (reached done rest rfl).represents

theorem representation_replaced : Represents (({} : QueuePositionBook).applyAll
    [.add ⟨⟨0,0⟩,1,.buy,100,5⟩,.replace ⟨⟨0,0⟩,1,1,100,7⟩]) :=
  (representation [.add ⟨⟨0,0⟩,1,.buy,100,5⟩,.replace ⟨⟨0,0⟩,1,1,100,7⟩]
    ⟨Finmap.lookup_empty _,Or.inr rfl,trivial⟩ (by decide)).1 _ (List.prefix_refl _)

section Wrap
open FastAheadTracker

theorem visit_leaves {book : QueuePositionBook} (located : Located book) :
    (book.applyAll visit).orders.lookup 2 = none := by
  have known : (book.pushBack ⟨0,.buy,99⟩ 2 1).orders.lookup 2 = some ⟨⟨0,.buy,99⟩,book.allocated⟩ :=
    Finmap.lookup_insert _
  have gone := delete_removes _ ⟨0,0⟩ 2 _ _ known (pushBack_deref_new located ⟨0,.buy,99⟩ 2 1)
  change ((book.pushBack ⟨0,.buy,99⟩ 2 1).apply (.del ⟨⟨0,0⟩,2⟩)).2.orders.lookup 2 = none
  rw [gone]
  exact Finmap.lookup_erase _ _

theorem visits_fresh (count : Nat) {book : QueuePositionBook} (located : Located book)
    (absent : book.orders.lookup 2 = none) : book.FreshIds (List.replicate count visit).flatten := by
  induction count generalizing book with
  | zero => exact trivial
  | succ count ih =>
    rw [List.replicate_succ,List.flatten_cons,freshIds_append]
    exact ⟨⟨absent,trivial,trivial⟩,ih (applyAll_located visit book located) (visit_leaves located)⟩

/-- An order that stays, then `count` orders that come and go at another price. -/
def visited (count : Nat) : List WireMsg := .add ⟨⟨0,0⟩,1,.buy,100,5⟩ :: (List.replicate count visit).flatten

theorem visited_fresh (count : Nat) : ({} : QueuePositionBook).FreshIds (visited count) := by
  refine ⟨Finmap.lookup_empty _,visits_fresh count (pushBack_located located_empty _ _ _) ?_⟩
  change (Finmap.insert 1 _ ∅).lookup 2 = none
  rw [Finmap.lookup_insert_of_ne _ (by decide)]
  exact Finmap.lookup_empty _

theorem visited_rests (count : Nat) :
    (({} : QueuePositionBook).applyAll (visited count)).level ⟨0,.buy,100⟩ = [⟨0,⟨1,5,0⟩⟩] ∧
    (({} : QueuePositionBook).applyAll (visited count)).nextSeq = 1 + UInt64.ofNat count := by
  have passed := visits_pass count
    (place (({} : QueuePositionBook).applyAll [.add ⟨⟨0,0⟩,1,.buy,100,5⟩]) ⟨0,.buy,100⟩) rfl rfl
  have level := passed.level
  have number := passed.nextSeq
  rw [feed_book] at level number
  exact ⟨level,number⟩

/-- After 2^64 arrivals the counter stands at 0, where the first order, still resting, came in. -/
theorem wrap_unrepresented : ({} : QueuePositionBook).FreshIds (visited (2^64 - 1)) ∧
    ¬Represents (({} : QueuePositionBook).applyAll (visited (2^64 - 1))) := by
  refine ⟨visited_fresh _,fun represents => ?_⟩
  obtain ⟨level,number⟩ := visited_rests (2^64 - 1)
  have wrapped : (1 : UInt64) + UInt64.ofNat (2^64 - 1) = 0 := by decide
  have below := represents.arrived ⟨0,.buy,100⟩ ⟨0,⟨1,5,0⟩⟩ (by rw [level]; exact List.mem_singleton_self _)
  rw [currentSeq,number,wrapped] at below
  exact absurd below (by decide)

end Wrap

end MarketFeed.QueuePositionBook
