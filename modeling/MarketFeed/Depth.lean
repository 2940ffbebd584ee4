import MarketFeed.Touch
import MarketFeed.Normalizer
import MarketFeed.Library.Prefix

/-! Aggregated depth against the live orders: every level is the exact sum of the
remaining quantities of the tracked orders at its price. -/
namespace MarketFeed
open Word FiniteMap

namespace OrderBook

/-- Within 2^31 ticks, where narrowing the index cannot alias a level. -/
def Near (base p : Int64) : Prop := -2^31 ≤ p.toInt - base.toInt ∧ p.toInt - base.toInt ≤ 2^31

def InBand (base p : Int64) : Prop := base.toInt ≤ p.toInt ∧ p.toInt < base.toInt + kLevels

theorem InBand.near {base p : Int64} (inBand : InBand base p) : Near base p := by
  have size : (kLevels : Int) = 16384 := rfl
  obtain ⟨low,high⟩ := inBand
  exact ⟨by omega,by omega⟩

/-- The narrowed index keeps the low 32 bits of the offset. -/
theorem level_wrapped (b : OrderBook) (p : Int64) (low : -2^63 ≤ p.toInt - b.basePrice.toInt)
    (high : p.toInt - b.basePrice.toInt < 2^63) (k : Fin kLevels) :
    b.level p = some k ↔ (p.toInt - b.basePrice.toInt) % 2^32 = k := by
  have bound : (k : Int) < kLevels := by exact_mod_cast k.isLt
  have size : (kLevels : Int) = 16384 := rfl
  have idx : b.indexOf p = (p.toInt - b.basePrice.toInt).bmod (2^32) := by
    unfold indexOf
    rw [Int64.toInt_toInt32,Int64.toInt_sub,
      Int.bmod_eq_of_le (n := p.toInt - b.basePrice.toInt) (by omega) (by omega)]
  have narrowed := Int.bmod_def (p.toInt - b.basePrice.toInt) (2^32)
  simp only [level,idx]
  split
  next inside =>
    rw [Option.some.injEq,Fin.ext_iff]
    simp only
    split at narrowed <;> omega
  next outside =>
    simp only [reduceCtorEq,false_iff]
    split at narrowed <;> omega

theorem level_near (b : OrderBook) (p : Int64) (near : Near b.basePrice p) (k : Fin kLevels) :
    b.level p = some k ↔ p.toInt = b.basePrice.toInt + k := by
  have bound : (k : Int) < kLevels := by exact_mod_cast k.isLt
  have size : (kLevels : Int) = 16384 := rfl
  obtain ⟨low,high⟩ := near
  rw [level_wrapped b p (by omega) (by omega)]
  omega

theorem level_none_near (b : OrderBook) (p : Int64) (near : Near b.basePrice p) :
    b.level p = none ↔ ¬InBand b.basePrice p := by
  refine ⟨?_,?_⟩
  · intro outside inside
    obtain ⟨low,high⟩ := inside
    have located := (level_near b p near ⟨(p.toInt - b.basePrice.toInt).toNat,by omega⟩).mpr (by simp; omega)
    simp [outside] at located
  · intro outside
    cases located : b.level p with
    | none => rfl
    | some k =>
      have bound : (k : Int) < kLevels := by exact_mod_cast k.isLt
      have equal := (level_near b p near k).mp located
      exact absurd ⟨by omega,by omega⟩ outside

theorem call_basePrice (b : OrderBook) (c : Call) : (b.call c).basePrice = b.basePrice := by
  cases c with
  | add side p qty =>
    simp only [call,add]
    cases b.level p with
    | none => rfl
    | some k => cases side <;> rfl
  | reduce side p qty =>
    simp only [call,reduce]
    cases b.level p with
    | none => rfl
    | some k => cases side <;> rfl

theorem calls_basePrice (b : OrderBook) (cs : List Call) : (b.calls cs).basePrice = b.basePrice := by
  induction cs generalizing b with
  | nil => rfl
  | cons c cs ih => rw [calls_cons,ih,call_basePrice]

theorem add_side (b : OrderBook) (side other : Side) (p : Int64) (qty : UInt32) (k : Fin kLevels) :
    (b.add side p qty).2.side other k =
      if b.level p = some k ∧ side = other then b.side other k + widen qty else b.side other k := by
  unfold add
  cases located : b.level p with
  | none => cases other <;> simp [OrderBook.side]
  | some j =>
    by_cases same : j = k
    · subst same
      cases side <;> cases other <;> simp [OrderBook.side]
    · cases side <;> cases other <;> simp [OrderBook.side,same,Ne.symm same]

theorem reduce_side (b : OrderBook) (side other : Side) (p : Int64) (qty : UInt32) (k : Fin kLevels) :
    (b.reduce side p qty).2.side other k =
      if b.level p = some k ∧ side = other then reduced (b.side other k) qty else b.side other k := by
  unfold reduce
  cases located : b.level p with
  | none => cases other <;> simp [OrderBook.side]
  | some j =>
    by_cases same : j = k
    · subst same
      cases side <;> cases other <;> simp [OrderBook.side]
    · cases side <;> cases other <;> simp [OrderBook.side,same,Ne.symm same]

def Clamps (b : OrderBook) : Call → Prop
  | .add _ _ _ => False
  | .reduce side p qty => ∃ k, b.level p = some k ∧ b.side side k - widen qty < 0

def priceOf : Call → Int64
  | .add _ p _ => p
  | .reduce _ p _ => p

def SameDepth (b after : OrderBook) : Prop :=
  after.bidQty = b.bidQty ∧ after.askQty = b.askQty ∧ after.bestBidIdx = b.bestBidIdx ∧
    after.bestAskIdx = b.bestAskIdx

/-- None of the calls clamps a level, and those outside the band leave the depth alone. -/
def Sound (b : OrderBook) : List Call → Prop
  | [] => True
  | c :: cs => ¬b.Clamps c ∧ (¬InBand b.basePrice (priceOf c) → SameDepth b (b.call c)) ∧
      Sound (b.call c) cs

theorem call_outside (b : OrderBook) (c : Call) (near : Near b.basePrice (priceOf c))
    (outside : ¬InBand b.basePrice (priceOf c)) : SameDepth b (b.call c) := by
  cases c with
  | add side p qty =>
    have located := (level_none_near b p near).mpr outside
    simp [call,add,located,SameDepth]
  | reduce side p qty =>
    have located := (level_none_near b p near).mpr outside
    simp [call,reduce,located,SameDepth]

end OrderBook

open OrderBook

def restsAt (side : Side) (price : Int) (loc : RestingLoc) : Nat :=
  if loc.side = side ∧ loc.priceTicks.toInt = price then loc.qty.toNat else 0

/-- The exact sum of the remaining quantities of the tracked orders at a side and a price. -/
def depthAt (orders : OrderMap) (side : Side) (price : Int) : Nat := weight (restsAt side price) orders

structure Depth (book : OrderBook) (orders : OrderMap) : Prop where
  exact : ∀ side k, (book.side side k).toInt = depthAt orders side (book.basePrice.toInt + k)
  live : ∀ id loc, orders.lookup id = some loc → loc.qty ≠ 0 ∧ Near book.basePrice loc.priceTicks
  top : book.TopOfBook

theorem depth_init (b : OrderBook) (reference : Int64) : Depth (b.init reference) ∅ := by
  refine ⟨fun side k => ?_,fun id loc found => ?_,init_topOfBook b reference⟩
  · cases side <;> simp [OrderBook.side,init,depthAt,weight_empty]
  · simp at found

theorem depthAt_lessen (orders : OrderMap) (id : UInt64) (loc : RestingLoc) (rq : UInt32)
    (found : orders.lookup id = some loc) (enough : rq ≤ loc.qty) (side : Side) (price : Int) :
    depthAt (lessen orders id loc rq) side price +
      (if loc.side = side ∧ loc.priceTicks.toInt = price then rq.toNat else 0) =
      depthAt orders side price := by
  have left := UInt32.toNat_sub_of_le loc.qty rq enough
  have enough := UInt32.le_iff_toNat_le.mp enough
  have split := weight_split (restsAt side price) orders id loc found
  unfold depthAt
  unfold lessen
  split_ifs with emptied here here
  · have all := congrArg UInt32.toNat emptied
    simp only [restsAt,here,and_self,if_true] at split
    simp only [UInt32.toNat_zero] at all
    omega
  · simp only [restsAt,here,if_false] at split
    omega
  · rw [weight_overwrite]
    simp only [restsAt,here,and_self,if_true] at split ⊢
    omega
  · rw [weight_overwrite]
    simp only [restsAt,here,if_false] at split ⊢
    omega

theorem restsAt_lt (side : Side) (price : Int) (loc : RestingLoc) : restsAt side price loc < 2^32 := by
  have bound := loc.qty.toNat_lt
  unfold restsAt
  split <;> omega

theorem depthAt_lessen_le (orders : OrderMap) (id : UInt64) (loc : RestingLoc) (qty : UInt32)
    (found : orders.lookup id = some loc) (side : Side) (price : Int) :
    depthAt (lessen orders id loc (min qty loc.qty)) side price ≤ depthAt orders side price := by
  have sum := depthAt_lessen orders id loc (min qty loc.qty) found Std.min_le_right side price
  omega

theorem depthAt_track (m : WireMsg) (orders : OrderMap) (side : Side) (price : Int) :
    depthAt (trackOrders m orders) side price < depthAt orders side price + 2^32 := by
  have inserted (orders : OrderMap) (id : UInt64) (loc : RestingLoc) :
      depthAt (orders.insert id loc) side price < depthAt orders side price + 2^32 := by
    have grown := weight_insert_le (restsAt side price) orders id loc
    have small := restsAt_lt side price loc
    unfold depthAt
    omega
  have erased (id : UInt64) : depthAt (orders.erase id) side price ≤ depthAt orders side price :=
    weight_erase_le _ _ _
  have lessened (id : UInt64) (qty : UInt32) :
      depthAt ((orders.lookup id).elim orders fun loc => lessen orders id loc (min qty loc.qty)) side price ≤
        depthAt orders side price := by
    cases found : orders.lookup id with
    | none => exact Nat.le_refl _
    | some loc => exact depthAt_lessen_le orders id loc qty found side price
  cases m with
  | zero => exact Nat.lt_add_of_pos_right (Nat.two_pow_pos 32)
  | add a => exact inserted orders _ _
  | exec e => exact Nat.lt_of_le_of_lt (lessened e.orderId e.execQty) (Nat.lt_add_of_pos_right (Nat.two_pow_pos 32))
  | cancel c => exact Nat.lt_of_le_of_lt (lessened c.orderId c.cancelQty) (Nat.lt_add_of_pos_right (Nat.two_pow_pos 32))
  | del d =>
    simp only [trackOrders]
    refine Nat.lt_of_le_of_lt ?_ (Nat.lt_add_of_pos_right (Nat.two_pow_pos 32))
    cases orders.lookup d.orderId with
    | none => exact Nat.le_refl _
    | some loc => exact erased d.orderId
  | replace r =>
    simp only [trackOrders]
    cases orders.lookup r.oldOrderId with
    | none => exact Nat.lt_add_of_pos_right (Nat.two_pow_pos 32)
    | some loc =>
      have grown := inserted (orders.erase r.oldOrderId) r.newOrderId ⟨loc.side,r.priceTicks,r.qty⟩
      have smaller := erased r.oldOrderId
      simp only [Option.elim_some]
      omega

theorem lessen_all (orders : OrderMap) (id : UInt64) (loc : RestingLoc) :
    lessen orders id loc loc.qty = orders.erase id := by
  simp [lessen]

theorem lessen_lookup (orders : OrderMap) (id : UInt64) (loc : RestingLoc) (rq : UInt32) (other : UInt64)
    (entry : RestingLoc) (held : (lessen orders id loc rq).lookup other = some entry) :
    (other = id ∧ loc.qty - rq ≠ 0 ∧ entry = { loc with qty := loc.qty - rq }) ∨
      (other ≠ id ∧ orders.lookup other = some entry) := by
  rw [lessen_lookup_if] at held
  split at held
  next same =>
    split at held
    next => cases held
    next left => exact Or.inl ⟨same,left,(Option.some.inj held).symm⟩
  next other => exact Or.inr ⟨other,held⟩

theorem level_holds (book : OrderBook) (orders : OrderMap) (valid : Depth book orders) (id : UInt64)
    (loc : RestingLoc) (found : orders.lookup id = some loc) (k : Fin kLevels)
    (located : book.level loc.priceTicks = some k) : (loc.qty.toNat : Int) ≤ (book.side loc.side k).toInt := by
  have price := (level_near book loc.priceTicks (valid.live id loc found).2 k).mp located
  have held := weight_ge (restsAt loc.side loc.priceTicks.toInt) orders id loc found
  rw [valid.exact,← price]
  simp only [restsAt,and_self,if_true] at held
  exact_mod_cast held

theorem depth_reduce (book : OrderBook) (orders : OrderMap) (valid : Depth book orders) (id : UInt64)
    (loc : RestingLoc) (rq : UInt32) (found : orders.lookup id = some loc) (enough : rq ≤ loc.qty) :
    ¬book.Clamps (.reduce loc.side loc.priceTicks rq) ∧
      Depth (book.call (.reduce loc.side loc.priceTicks rq)) (lessen orders id loc rq) := by
  have near := (valid.live id loc found).2
  have below : (rq.toNat : Int) ≤ loc.qty.toNat := by exact_mod_cast UInt32.le_iff_toNat_le.mp enough
  have nonneg (side : Side) (k : Fin kLevels) : 0 ≤ (book.side side k).toInt := by
    rw [valid.exact]
    omega
  refine ⟨?_,fun side k => ?_,fun other entry held => ?_,reduce_topOfBook _ _ _ _ valid.top⟩
  · rintro ⟨k,located,negative⟩
    have holds := level_holds book orders valid id loc found k located
    rw [neg_iff,toInt_sub_widen _ _ (nonneg _ _)] at negative
    omega
  · rw [call_basePrice]
    have sum := depthAt_lessen orders id loc rq found enough side (book.basePrice.toInt + k)
    have exact := valid.exact side k
    simp only [call,reduce_side,level_near book _ near]
    by_cases here : loc.priceTicks.toInt = book.basePrice.toInt + k ∧ loc.side = side
    · have holds := level_holds book orders valid id loc found k ((level_near book _ near k).mpr here.1)
      obtain ⟨price,rfl⟩ := here
      rw [if_pos ⟨price,rfl⟩,reduced_toInt _ _ (nonneg _ _),max_eq_right (by omega)]
      simp only [price,and_self,if_true] at sum
      omega
    · rw [if_neg here]
      simp only [and_comm.not.mp here,if_false] at sum
      omega
  · rw [call_basePrice]
    rcases lessen_lookup orders id loc rq other entry held with ⟨_,left,rfl⟩ | ⟨_,kept⟩
    · exact ⟨left,near⟩
    · exact valid.live other entry kept

theorem depth_add (book : OrderBook) (orders : OrderMap) (valid : Depth book orders) (id : UInt64)
    (side : Side) (p : Int64) (qty : UInt32) (absent : orders.lookup id = none) (nonzero : qty ≠ 0)
    (near : Near book.basePrice p)
    (fits : ∀ (k : Fin kLevels),
      depthAt (orders.insert id ⟨side,p,qty⟩) side (book.basePrice.toInt + k) < 2^63) :
    Depth (book.call (.add side p qty)) (orders.insert id ⟨side,p,qty⟩) := by
  have grown (other : Side) (price : Int) :
      depthAt (orders.insert id ⟨side,p,qty⟩) other price =
        (if side = other ∧ p.toInt = price then qty.toNat else 0) + depthAt orders other price :=
    weight_insert_absent _ orders id _ absent
  have room : book.Fits side p qty := by
    intro k located
    have small := fits k
    rw [grown,if_pos ⟨rfl,(level_near book p near k).mp located⟩] at small
    rw [valid.exact]
    omega
  refine ⟨fun other k => ?_,fun other loc held => ?_,
    add_topOfBook _ _ _ _ valid.top room fun blank => nonzero blank.1⟩
  · have exact := valid.exact other k
    rw [call_basePrice,grown]
    simp only [call,add_side,level_near book p near]
    by_cases here : p.toInt = book.basePrice.toInt + k ∧ side = other
    · obtain ⟨price,rfl⟩ := here
      have room := room k ((level_near book p near k).mpr price)
      rw [if_pos ⟨price,rfl⟩,if_pos ⟨rfl,price⟩,toInt_add_widen _ _ (by omega) room]
      omega
    · rw [if_neg here,if_neg (and_comm.not.mp here)]
      omega
  · rw [call_basePrice]
    rw [lookup_insert_if] at held
    split at held
    · cases held
      exact ⟨nonzero,near⟩
    · exact valid.live other loc held

/-- What a stream owes at a message: quantities of at least 1 under ids that are not live, near the
book. Reductions may name any id with any quantity. -/
def Admissible (base : Int64) (find : UInt64 → Option RestingLoc) : WireMsg → Prop
  | .add a => a.qty ≠ 0 ∧ find a.orderId = none ∧ Near base a.priceTicks
  | .replace r => r.qty ≠ 0 ∧ (find r.newOrderId = none ∨ r.newOrderId = r.oldOrderId) ∧
      Near base r.priceTicks
  | _ => True

theorem sound_call (book : OrderBook) (c : Call) (near : Near book.basePrice (priceOf c))
    (free : ¬book.Clamps c) : book.Sound [c] :=
  ⟨free,call_outside book c near,trivial⟩

theorem depth_lessen (book : OrderBook) (orders : OrderMap) (valid : Depth book orders) (id : UInt64)
    (loc : RestingLoc) (rq : UInt32) (found : orders.lookup id = some loc) (enough : rq ≤ loc.qty) :
    book.Sound [.reduce loc.side loc.priceTicks rq] ∧
      Depth (book.calls [.reduce loc.side loc.priceTicks rq]) (lessen orders id loc rq) := by
  have reduced := depth_reduce book orders valid id loc rq found enough
  exact ⟨sound_call book _ (valid.live id loc found).2 reduced.1,reduced.2⟩

/-- One message keeps levels and orders in agreement, as long as the sums fit the levels. -/
theorem depth_step (book : OrderBook) (orders : OrderMap) (valid : Depth book orders) (m : WireMsg)
    (admissible : Admissible book.basePrice orders.lookup m)
    (fits : ∀ side (k : Fin kLevels),
      depthAt (trackOrders m orders) side (book.basePrice.toInt + k) < 2^63) :
    book.Sound (bookCalls m orders.lookup) ∧
      Depth (book.calls (bookCalls m orders.lookup)) (trackOrders m orders) := by
  cases m with
  | zero => exact ⟨trivial,valid⟩
  | add a =>
    obtain ⟨nonzero,absent,near⟩ := admissible
    exact ⟨sound_call book _ near fun clamped => clamped,
      depth_add book orders valid _ _ _ _ absent nonzero near (fits a.side)⟩
  | exec e =>
    simp only [bookCalls,trackOrders]
    cases found : orders.lookup e.orderId with
    | none => exact ⟨trivial,valid⟩
    | some loc => exact depth_lessen book orders valid _ loc _ found Std.min_le_right
  | cancel c =>
    simp only [bookCalls,trackOrders]
    cases found : orders.lookup c.orderId with
    | none => exact ⟨trivial,valid⟩
    | some loc => exact depth_lessen book orders valid _ loc _ found Std.min_le_right
  | del d =>
    simp only [bookCalls,trackOrders]
    cases found : orders.lookup d.orderId with
    | none => exact ⟨trivial,valid⟩
    | some loc =>
      have reduced := depth_lessen book orders valid _ loc _ found UInt32.le_rfl
      rwa [lessen_all] at reduced
  | replace r =>
    obtain ⟨nonzero,absent,near⟩ := admissible
    simp only [bookCalls,trackOrders] at fits ⊢
    cases found : orders.lookup r.oldOrderId with
    | none => exact ⟨trivial,valid⟩
    | some loc =>
      have reduced := depth_lessen book orders valid _ loc _ found UInt32.le_rfl
      rw [lessen_all] at reduced
      obtain ⟨⟨free,outside,_⟩,half⟩ := reduced
      have base : (book.call (.reduce loc.side loc.priceTicks loc.qty)).basePrice = book.basePrice :=
        call_basePrice _ _
      have absent : (orders.erase r.oldOrderId).lookup r.newOrderId = none := by
        rw [lookup_erase_if]
        rcases absent with absent | same
        · simp [absent]
        · simp [same]
      have near : Near (book.call (.reduce loc.side loc.priceTicks loc.qty)).basePrice r.priceTicks := by
        rwa [base]
      have fits : ∀ k : Fin kLevels,
          depthAt ((orders.erase r.oldOrderId).insert r.newOrderId ⟨loc.side,r.priceTicks,r.qty⟩) loc.side
            ((book.call (.reduce loc.side loc.priceTicks loc.qty)).basePrice.toInt + k) < 2^63 := by
        rw [base]
        simpa only [found,Option.elim_some] using fits loc.side
      exact ⟨⟨free,outside,sound_call _ _ near fun clamped => clamped⟩,
        depth_add _ _ half _ _ _ _ absent nonzero near fits⟩

def touchPrices (base : Int64) (find : UInt64 → Option RestingLoc) (side : Side) : Set Int :=
  {p | ∃ id loc, find id = some loc ∧ loc.side = side ∧ InBand base loc.priceTicks ∧
    loc.priceTicks.toInt = p}

theorem mem_occupied_iff (book : OrderBook) (orders : OrderMap) (valid : Depth book orders) (side : Side)
    (k : Fin kLevels) : book.side side k ≠ 0 ↔
      book.basePrice.toInt + k ∈ touchPrices book.basePrice orders.lookup side := by
  have bound : (k : Int) < kLevels := by exact_mod_cast k.isLt
  rw [ne_eq,eq_zero_iff,valid.exact]
  refine ⟨?_,?_⟩
  · intro held
    obtain ⟨id,loc,found,rests⟩ := (weight_pos_iff (restsAt side (book.basePrice.toInt + k)) orders).mp (by
      unfold depthAt at held
      omega)
    unfold restsAt at rests
    split at rests
    next here => exact ⟨id,loc,found,here.1,⟨by omega,by omega⟩,here.2⟩
    next away => omega
  · rintro ⟨id,loc,found,rfl,_,price⟩
    have live := nonzero_of_toNat loc.qty (valid.live id loc found).1
    have held := weight_ge (restsAt loc.side (book.basePrice.toInt + k)) orders id loc found
    simp only [restsAt,price,and_self,if_true] at held
    unfold depthAt
    omega

theorem price_index (base : Int64) (find : UInt64 → Option RestingLoc) (side : Side) (p : Int)
    (member : p ∈ touchPrices base find side) : ∃ k : Fin kLevels, p = base.toInt + k := by
  obtain ⟨_,loc,_,_,⟨low,high⟩,rfl⟩ := member
  refine ⟨⟨(loc.priceTicks.toInt - base.toInt).toNat,by omega⟩,?_⟩
  simp only
  omega

theorem ticks_toInt (base : Int64) (find : UInt64 → Option RestingLoc) (side : Side) (k : Fin kLevels)
    (member : base.toInt + k ∈ touchPrices base find side) :
    (base + Int64.ofInt k).toInt = base.toInt + k := by
  obtain ⟨_,loc,_,_,_,price⟩ := member
  have low := loc.priceTicks.le_toInt
  have high := loc.priceTicks.toInt_lt
  have bound := k.isLt
  have size : kLevels = 16384 := rfl
  rw [Int64.toInt_add,Int64.toInt_ofInt_of_le (by omega) (by omega)]
  exact Int.bmod_eq_of_le (by omega) (by omega)

theorem bestBid_spec (book : OrderBook) (orders : OrderMap) (valid : Depth book orders) :
    (book.hasBid = true ∧
      IsGreatest (touchPrices book.basePrice orders.lookup .buy) book.bestBidTicks.toInt) ∨
    (book.hasBid = false ∧ touchPrices book.basePrice orders.lookup .buy = ∅) := by
  have held (k : Fin kLevels) := mem_occupied_iff book orders valid .buy k
  rcases bidBest_cases valid.top.bidBest with ⟨none,empty⟩ | ⟨k,best,occupied⟩
  · refine Or.inr ⟨by simp [hasBid,none],Set.eq_empty_of_forall_notMem fun p member => ?_⟩
    obtain ⟨k,rfl⟩ := price_index _ _ _ _ member
    exact (held k).mpr member (empty k)
  · have member := (held k).mp occupied
    refine Or.inl ⟨by simp [hasBid,best],?_⟩
    rw [bestBidTicks,best,ticks_toInt _ _ _ k member]
    refine ⟨member,fun p other => ?_⟩
    obtain ⟨j,rfl⟩ := price_index _ _ _ _ other
    have above := valid.top.bidBest.2 (Or.inr ⟨j,(held j).mpr other,rfl⟩)
    omega

theorem bestAsk_spec (book : OrderBook) (orders : OrderMap) (valid : Depth book orders) :
    (book.hasAsk = true ∧
      IsLeast (touchPrices book.basePrice orders.lookup .sell) book.bestAskTicks.toInt) ∨
    (book.hasAsk = false ∧ touchPrices book.basePrice orders.lookup .sell = ∅) := by
  have held (k : Fin kLevels) := mem_occupied_iff book orders valid .sell k
  rcases askBest_cases valid.top.askBest with ⟨none,empty⟩ | ⟨k,best,occupied⟩
  · refine Or.inr ⟨by simp [hasAsk,none],Set.eq_empty_of_forall_notMem fun p member => ?_⟩
    obtain ⟨k,rfl⟩ := price_index _ _ _ _ member
    exact (held k).mpr member (empty k)
  · have member := (held k).mp occupied
    refine Or.inl ⟨by simp [hasAsk,best],?_⟩
    rw [bestAskTicks,best,ticks_toInt _ _ _ k member]
    refine ⟨member,fun p other => ?_⟩
    obtain ⟨j,rfl⟩ := price_index _ _ _ _ other
    have below := valid.top.askBest.2 (Or.inr ⟨j,(held j).mpr other,rfl⟩)
    omega

end MarketFeed
