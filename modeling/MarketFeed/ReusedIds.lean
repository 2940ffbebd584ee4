import MarketFeed.CrossBook
import MarketFeed.ShardDepth
import Mathlib.Algebra.BigOperators.Ring.Finset

/-! What stays in the books when an order map entry is overwritten: `orders[id] = loc` forgets
the old order, and nothing takes its quantity off its level. -/
namespace MarketFeed.Shard
open Word FiniteMap OrderBook
open scoped BigOperators

/-- What one order puts at a side and a price of book `i`. -/
def cell (i : Nat) (side : Side) (price : Int) (loc : OrderLocation) : Nat :=
  if loc.localIdx.toNat = i then restsAt side price loc.resting else 0

def trackedAt (shard : Shard) (i : Nat) (side : Side) (price : Int) : Nat := weight (cell i side price) shard.orders

def strandedAt (stranded : List OrderLocation) (i : Nat) (side : Side) (price : Int) : Nat :=
  (stranded.map (cell i side price)).sum

/-- The live order whose entry a message overwrites, other than the one it retires. -/
def displaced (shard : Shard) : WireMsg → Option OrderLocation
  | .add a => shard.orders.lookup a.orderId
  | .replace r => (shard.orders.lookup r.oldOrderId).bind fun _ =>
      (shard.orders.erase r.oldOrderId).lookup r.newOrderId
  | _ => none

/-- The order's book is one of the shard's and its price lies in that book's band. -/
def HasHome (books : List OrderBook) (loc : OrderLocation) : Prop :=
  ∃ b, books[loc.localIdx.toNat]? = some b ∧ InBand b.basePrice loc.priceTicks

/-- Every level holds the tracked orders at its price and the stranded ones. -/
structure Accounts (shard : Shard) (stranded : List OrderLocation) : Prop where
  levels : ∀ i b, shard.books[i]? = some b → ∀ side (k : Fin kLevels), (b.side side k).toInt =
    ((shard.trackedAt i side (b.basePrice.toInt + k) +
      strandedAt stranded i side (b.basePrice.toInt + k) : Nat) : Int)
  homes : ∀ id loc, shard.orders.lookup id = some loc → HasHome shard.books loc
  strandedHomes : ∀ loc ∈ stranded, HasHome shard.books loc

theorem cell_own (loc : OrderLocation) (side : Side) (price : Int) : cell loc.localIdx.toNat side price loc =
    if loc.priceTicks.toInt = price ∧ loc.side = side then loc.qty.toNat else 0 := by
  unfold cell restsAt
  rw [if_pos rfl]
  exact if_congr and_comm rfl rfl

theorem cell_other (i : Nat) (loc : OrderLocation) (other : i ≠ loc.localIdx.toNat) (side : Side) (price : Int) :
    cell i side price loc = 0 := if_neg other.symm

theorem cell_split (i : Nat) (side : Side) (price : Int) (loc : OrderLocation) (rq : UInt32) (enough : rq ≤ loc.qty) :
    cell i side price { loc with qty := loc.qty - rq } + cell i side price { loc with qty := rq } =
      cell i side price loc := by
  have left := UInt32.toNat_sub_of_le loc.qty rq enough
  have enough := UInt32.le_iff_toNat_le.mp enough
  unfold cell restsAt OrderLocation.resting
  by_cases here : loc.localIdx.toNat = i
  · by_cases rests : loc.side = side ∧ loc.priceTicks.toInt = price
    · simp only [here,rests,and_self,if_true]
      omega
    · simp only [here,rests,if_true,if_false]
  · simp only [here,if_false]

theorem strandedAt_append (first second : List OrderLocation) (i : Nat) (side : Side) (price : Int) :
    strandedAt (first ++ second) i side price = strandedAt first i side price + strandedAt second i side price := by
  simp [strandedAt]

theorem strandedAt_option (loc : Option OrderLocation) (i : Nat) (side : Side) (price : Int) :
    strandedAt loc.toList i side price = (loc.map (cell i side price)).getD 0 := by
  cases loc <;> simp [strandedAt]

theorem onBook_get (shard : Shard) (localIdx : UInt16) (c : Call) (i : Nat) :
    (shard.onBook localIdx c).books[i]? =
      shard.books[i]?.map fun b => if i = localIdx.toNat then b.call c else b := by
  simp only [onBook,List.getElem?_modify,eq_comm]
  rfl

theorem hasHome_onBook (shard : Shard) (localIdx : UInt16) (c : Call) (loc : OrderLocation)
    (home : HasHome shard.books loc) : HasHome (shard.onBook localIdx c).books loc := by
  obtain ⟨b,placed,inBand⟩ := home
  refine ⟨if loc.localIdx.toNat = localIdx.toNat then b.call c else b,?_,?_⟩
  · rw [onBook_get,placed,Option.map_some]
  · split
    · rwa [call_basePrice]
    · exact inBand

/-- `orders[id] = loc; books[loc.local_idx].add(...)` -/
def put (shard : Shard) (id : UInt64) (loc : OrderLocation) : Shard :=
  { shard with orders := shard.orders.insert id loc }.onBook loc.localIdx (.add loc.side loc.priceTicks loc.qty)

/-- `books[loc.local_idx].reduce(...)`, and the entry lowered or erased. -/
def take (shard : Shard) (id : UInt64) (loc : OrderLocation) (rq : UInt32) : Shard :=
  let shard := shard.onBook loc.localIdx (.reduce loc.side loc.priceTicks rq)
  { shard with
    orders := if loc.qty - rq = 0 then shard.orders.erase id
      else shard.orders.insert id { loc with qty := loc.qty - rq } }

theorem take_weight (shard : Shard) (f : OrderLocation → Nat) (id : UInt64) (loc : OrderLocation) (rq : UInt32)
    (known : shard.orders.lookup id = some loc)
    (split_ : f { loc with qty := loc.qty - rq } + f { loc with qty := rq } = f loc)
    (empty : f { loc with qty := 0 } = 0) :
    weight f (shard.take id loc rq).orders + f { loc with qty := rq } = weight f shard.orders := by
  have whole := weight_split f shard.orders id loc known
  change weight f (if loc.qty - rq = 0 then shard.orders.erase id
    else shard.orders.insert id { loc with qty := loc.qty - rq }) + _ = _
  split
  next emptied =>
    rw [emptied,empty] at split_
    omega
  next =>
    rw [weight_overwrite]
    omega

section Account
variable {shard : Shard} {stranded : List OrderLocation} (accounts : Accounts shard stranded)
include accounts

theorem put_accounts (id : UInt64) (loc : OrderLocation) (home : HasHome shard.books loc)
    (fits : ∀ b, shard.books[loc.localIdx.toNat]? = some b → b.Fits loc.side loc.priceTicks loc.qty) :
    Accounts (shard.put id loc) (stranded ++ (shard.orders.lookup id).toList) := by
  have kept (other : OrderLocation) (before : HasHome shard.books other) : HasHome (shard.put id loc).books other :=
    hasHome_onBook { shard with orders := shard.orders.insert id loc } _ _ other before
  refine ⟨?_,?_,?_⟩
  · intro i b placed side k
    rw [put,onBook_get,Option.map_eq_some_iff] at placed
    obtain ⟨old,here,rfl⟩ := placed
    have level := accounts.levels i old here side k
    have tracked := weight_insert (cell i side (old.basePrice.toInt + k)) shard.orders id loc
    rw [strandedAt_append,strandedAt_option]
    change _ = ((weight _ (shard.orders.insert id loc) + _ : Nat) : Int)
    unfold trackedAt at level
    by_cases own : i = loc.localIdx.toNat
    · subst own
      obtain ⟨_,same,inBand⟩ := home
      obtain rfl := Option.some.inj (here.symm.trans same)
      rw [cell_own] at tracked
      simp only [if_true,call_basePrice]
      simp only [call,add_side,level_near old _ inBand.near]
      split
      next match_ =>
        obtain ⟨price,rfl⟩ := match_
        have room := fits old here k ((level_near old _ inBand.near k).mpr price)
        rw [if_pos ⟨price,rfl⟩] at tracked
        rw [toInt_add_widen _ _ (by omega) room]
        omega
      next away =>
        rw [if_neg away] at tracked
        omega
    · rw [cell_other i loc own] at tracked
      simp only [if_neg own]
      omega
  · intro other held known
    change (shard.orders.insert id loc).lookup other = some held at known
    rw [lookup_insert_if] at known
    split at known
    next =>
      obtain rfl := Option.some.inj known
      exact kept loc home
    next => exact kept held (accounts.homes other held known)
  · intro other member
    rcases List.mem_append.mp member with earlier | last
    · exact kept other (accounts.strandedHomes other earlier)
    · exact kept other (accounts.homes id other (Option.mem_toList.mp last))

theorem take_accounts (id : UInt64) (loc : OrderLocation) (rq : UInt32)
    (known : shard.orders.lookup id = some loc) (enough : rq ≤ loc.qty) :
    Accounts (shard.take id loc rq) stranded := by
  have kept (other : OrderLocation) (before : HasHome shard.books other) :
      HasHome (shard.take id loc rq).books other := hasHome_onBook shard _ _ other before
  have home := accounts.homes id loc known
  refine ⟨?_,?_,fun other member => kept other (accounts.strandedHomes other member)⟩
  · intro i b placed side k
    change (shard.onBook loc.localIdx (.reduce loc.side loc.priceTicks rq)).books[i]? = some b at placed
    rw [onBook_get,Option.map_eq_some_iff] at placed
    obtain ⟨old,here,rfl⟩ := placed
    have level := accounts.levels i old here side k
    have tracked := shard.take_weight (cell i side (old.basePrice.toInt + k)) id loc rq known
      (cell_split i side _ loc rq enough) (by simp [cell,restsAt,OrderLocation.resting])
    have held := weight_ge (cell i side (old.basePrice.toInt + k)) shard.orders id loc known
    have enough := UInt32.le_iff_toNat_le.mp enough
    unfold trackedAt at level ⊢
    by_cases own : i = loc.localIdx.toNat
    · subst own
      obtain ⟨_,same,inBand⟩ := home
      obtain rfl := Option.some.inj (here.symm.trans same)
      rw [cell_own] at held
      rw [cell_own { loc with qty := rq }] at tracked
      simp only [if_true,call_basePrice]
      simp only [call,reduce_side,level_near old _ inBand.near]
      split
      next match_ =>
        rw [if_pos match_] at tracked held
        dsimp only at tracked
        obtain ⟨_,rfl⟩ := match_
        rw [reduced_toInt _ _ (by omega),max_eq_right (by omega)]
        omega
      next away =>
        rw [if_neg away] at tracked
        omega
    · rw [cell_other i { loc with qty := rq } own] at tracked
      simp only [if_neg own]
      omega
  · intro other held present
    change (if loc.qty - rq = 0 then shard.orders.erase id
      else shard.orders.insert id { loc with qty := loc.qty - rq }).lookup other = some held at present
    split at present
    next =>
      rw [lookup_erase_if] at present
      split at present
      · cases present
      · exact kept held (accounts.homes other held present)
    next =>
      rw [lookup_insert_if] at present
      split at present
      · obtain rfl := Option.some.inj present
        exact kept { loc with qty := loc.qty - rq } home
      · exact kept held (accounts.homes other held present)

end Account

/-- A message whose calls are in the band of an opened book, fit its levels, and go to the book of
the order they are about. -/
structure Regular (shard : Shard) (item : QueueItem) : Prop where
  book : ∃ b, shard.books[item.localIdx.toNat]? = some b ∧
    (∀ c ∈ bookCalls item.msg shard.find, InBand b.basePrice (priceOf c)) ∧
    b.SumsFit (bookCalls item.msg shard.find)
  home : ∀ loc, shard.orderOf item.msg = some loc → loc.localIdx = item.localIdx

theorem reduceOrder_take (shard : Shard) (id : UInt64) (qty : UInt32) (loc : OrderLocation)
    (known : shard.orders.lookup id = some loc) :
    shard.reduceOrder loc.localIdx id qty = shard.take id loc (min qty loc.qty) := by
  simp only [reduceOrder,known,take]
  split <;> rfl

theorem take_whole (shard : Shard) (id : UInt64) (loc : OrderLocation) : shard.take id loc loc.qty =
    { shard.onBook loc.localIdx (.reduce loc.side loc.priceTicks loc.qty) with orders := shard.orders.erase id } := by
  rw [take,UInt32.sub_self,if_pos rfl]
  rfl

/-- The quantity of a displaced order stays in its level, and every other message accounts for what
it moves. -/
theorem apply_accounts {shard : Shard} {stranded : List OrderLocation} (accounts : Accounts shard stranded)
    (item : QueueItem) (regular : Regular shard item) :
    Accounts (shard.apply item) (stranded ++ (shard.displaced item.msg).toList) := by
  obtain ⟨⟨b,placed,inBand,fits⟩,home⟩ := regular
  obtain ⟨msg,localIdx⟩ := item
  have reduced (id : UInt64) (qty : UInt32) (home : ∀ loc, shard.orders.lookup id = some loc → loc.localIdx = localIdx) :
      Accounts (shard.reduceOrder localIdx id qty) (stranded ++ []) := by
    rw [List.append_nil]
    cases known : shard.orders.lookup id with
    | none => simpa only [reduceOrder,known] using accounts
    | some loc =>
      rw [← home loc known,reduceOrder_take shard id qty loc known]
      exact take_accounts accounts id loc _ known Std.min_le_right
  cases msg with
  | zero =>
    simp only [displaced,Option.toList_none,List.append_nil]
    exact accounts
  | add a =>
    refine put_accounts accounts a.orderId ⟨localIdx,a.side,a.priceTicks,a.qty⟩ ⟨b,placed,?_⟩ ?_
    · exact inBand _ (List.mem_singleton_self _)
    · intro other same
      obtain rfl := Option.some.inj (placed.symm.trans same)
      exact fits.1
  | exec e => exact reduced e.orderId e.execQty home
  | cancel c => exact reduced c.orderId c.cancelQty home
  | del d =>
    simp only [displaced,Option.toList_none,List.append_nil,apply]
    cases known : shard.orders.lookup d.orderId with
    | none => exact accounts
    | some loc =>
      obtain rfl : loc.localIdx = localIdx := home loc known
      have taken := take_accounts accounts d.orderId loc loc.qty known UInt32.le_rfl
      rwa [take_whole] at taken
  | replace r =>
    simp only [displaced,apply]
    cases known : shard.orders.lookup r.oldOrderId with
    | none => simpa using accounts
    | some loc =>
      obtain rfl : loc.localIdx = localIdx := home loc known
      have half := take_accounts accounts r.oldOrderId loc loc.qty known UInt32.le_rfl
      have calls : bookCalls (.replace r) shard.find = [.reduce loc.side loc.priceTicks loc.qty,
          .add loc.side r.priceTicks r.qty] := by
        simp [bookCalls,find,known,OrderLocation.resting]
      rw [calls] at inBand fits
      have lowered : (shard.take r.oldOrderId loc loc.qty).books[loc.localIdx.toNat]? =
          some (b.call (.reduce loc.side loc.priceTicks loc.qty)) := by
        change (shard.onBook loc.localIdx _).books[loc.localIdx.toNat]? = _
        rw [onBook_get,placed,Option.map_some,if_pos rfl]
      have replaced := put_accounts half r.newOrderId ⟨loc.localIdx,loc.side,r.priceTicks,r.qty⟩
        ⟨_,lowered,by rw [call_basePrice]; exact inBand (.add loc.side r.priceTicks r.qty) (by simp)⟩
        fun other same => (Option.some.inj (lowered.symm.trans same)) ▸ fits.1
      rwa [take_whole] at replaced

/-- The orders displaced along a run, each as it stood. -/
def strandedBy (shard : Shard) : List QueueItem → List OrderLocation
  | [] => []
  | item :: rest => (shard.displaced item.msg).toList ++ strandedBy (shard.apply item) rest

theorem mem_strandedBy (items : List QueueItem) (shard : Shard) (loc : OrderLocation) :
    loc ∈ strandedBy shard items ↔ ∃ done item rest, items = done ++ item :: rest ∧
      (done.foldl apply shard).displaced item.msg = some loc := by
  induction items generalizing shard with
  | nil => simp [strandedBy]
  | cons item rest ih =>
    rw [strandedBy,List.mem_append,Option.mem_toList,ih]
    constructor
    · rintro (here | ⟨done,item',rest',rfl,later⟩)
      · exact ⟨[],item,rest,rfl,here⟩
      · exact ⟨item :: done,item',rest',rfl,later⟩
    · rintro ⟨done,item',rest',split_,there⟩
      cases done with
      | nil =>
        obtain ⟨rfl,_⟩ := List.cons.inj split_
        exact Or.inl there
      | cons first done =>
        obtain ⟨rfl,rfl⟩ := List.cons.inj split_
        exact Or.inr ⟨done,item',rest',rfl,there⟩

theorem run_accounts (items : List QueueItem) {shard : Shard} {stranded : List OrderLocation}
    (accounts : Accounts shard stranded)
    (regular : ∀ done item rest, items = done ++ item :: rest → Regular (done.foldl apply shard) item) :
    Accounts (items.foldl apply shard) (stranded ++ strandedBy shard items) := by
  induction items generalizing shard stranded with
  | nil => simpa [strandedBy] using accounts
  | cons item rest ih =>
    have first := apply_accounts accounts item (regular [] item rest rfl)
    rw [strandedBy,← List.append_assoc]
    exact ih first fun done item' rest' split_ => regular (item :: done) item' rest' (by rw [split_]; rfl)

/-! The totals -/

def slots (books : List OrderBook) : Finset (Fin books.length × Side × Fin kLevels) :=
  Finset.univ ×ˢ {.buy,.sell} ×ˢ Finset.univ

/-- The quantity at every level of every book. -/
def bookTotal (shard : Shard) : Int :=
  ∑ slot ∈ slots shard.books, ((shard.books.get slot.1).side slot.2.1 slot.2.2).toInt

def trackedTotal (shard : Shard) : Nat := weight (fun loc => loc.qty.toNat) shard.orders

/-- An order with a home is at exactly one level. -/
theorem spread_home (books : List OrderBook) (loc : OrderLocation) (home : HasHome books loc) :
    ∑ slot ∈ slots books, cell slot.1 slot.2.1 ((books.get slot.1).basePrice.toInt + slot.2.2) loc =
      loc.qty.toNat := by
  obtain ⟨b,placed,low,high⟩ := home
  obtain ⟨inside,rfl⟩ := List.getElem?_eq_some_iff.mp placed
  have size : (kLevels : Int) = 16384 := rfl
  let own : Fin books.length × Side × Fin kLevels := (⟨loc.localIdx.toNat,inside⟩,loc.side,
    ⟨(loc.priceTicks.toInt - books[loc.localIdx.toNat].basePrice.toInt).toNat,by omega⟩)
  rw [Finset.sum_eq_single own]
  · simp only [own,List.get_eq_getElem]
    rw [cell_own,if_pos ⟨by omega,rfl⟩]
  · rintro ⟨⟨i,bound⟩,side,k⟩ _ other
    by_contra held
    refine other ?_
    unfold cell restsAt OrderLocation.resting at held
    simp only [List.get_eq_getElem] at held
    by_cases here : loc.localIdx.toNat = i
    · subst here
      by_cases match_ : loc.side = side ∧ loc.priceTicks.toInt = books[loc.localIdx.toNat].basePrice.toInt + (k : Nat)
      · obtain ⟨rfl,price⟩ := match_
        have index : k = ⟨(loc.priceTicks.toInt - books[loc.localIdx.toNat].basePrice.toInt).toNat,by omega⟩ :=
          Fin.ext (by simp only; omega)
        rw [index]
      · simp [match_] at held
    · simp [here] at held
  · intro absent
    refine absurd ?_ absent
    simp only [slots,own,Finset.mem_product,Finset.mem_univ,true_and,and_true]
    cases loc.side <;> decide

theorem sum_strandedAt (stranded : List OrderLocation) (books : List OrderBook)
    (homes : ∀ loc ∈ stranded, HasHome books loc) :
    ∑ slot ∈ slots books, strandedAt stranded slot.1 slot.2.1 ((books.get slot.1).basePrice.toInt + slot.2.2) =
      (stranded.map fun loc => loc.qty.toNat).sum := by
  induction stranded with
  | nil => simp [strandedAt]
  | cons loc rest ih =>
    have later := ih fun other member => homes other (List.mem_cons_of_mem _ member)
    have here := spread_home books loc (homes loc List.mem_cons_self)
    simp only [strandedAt,List.map_cons,List.sum_cons,Finset.sum_add_distrib] at later ⊢
    rw [here,later]

/-- The books hold what is tracked and what is stranded. -/
theorem accounts_total {shard : Shard} {stranded : List OrderLocation} (accounts : Accounts shard stranded) :
    shard.bookTotal = ((shard.trackedTotal + (stranded.map fun loc => loc.qty.toNat).sum : Nat) : Int) := by
  have spread : ∑ slot ∈ slots shard.books,
      shard.trackedAt slot.1 slot.2.1 ((shard.books.get slot.1).basePrice.toInt + slot.2.2) = shard.trackedTotal := by
    unfold trackedAt
    rw [weight_sum]
    refine weight_congr _ _ _ _ fun id => ?_
    cases known : shard.orders.lookup id with
    | none => rfl
    | some loc => exact congrArg some (spread_home shard.books loc (accounts.homes id loc known))
  rw [← spread,← sum_strandedAt stranded shard.books accounts.strandedHomes,← Finset.sum_add_distrib,Nat.cast_sum]
  refine Finset.sum_congr rfl fun slot _ => ?_
  exact accounts.levels slot.1 _ (List.getElem?_eq_getElem slot.1.isLt) slot.2.1 slot.2.2

/-! Deleting every tracked order -/

/-- A Delete of a tracked order under its own instrument. -/
def retire (shard : Shard) (id : UInt64) : Shard :=
  match shard.orders.lookup id with
  | none => shard
  | some loc => shard.apply ⟨.del ⟨⟨0,0⟩,id⟩,loc.localIdx⟩

theorem apply_del (shard : Shard) (header : MsgHeader) (id : UInt64) (loc : OrderLocation)
    (known : shard.orders.lookup id = some loc) :
    shard.apply ⟨.del ⟨header,id⟩,loc.localIdx⟩ = shard.take id loc loc.qty := by
  rw [take_whole]
  simp only [apply,known]
  rfl

theorem retire_orders (shard : Shard) (id : UInt64) : (shard.retire id).orders = shard.orders.erase id := by
  unfold retire
  cases known : shard.orders.lookup id with
  | none => exact (erase_absent shard.orders id known).symm
  | some loc =>
    simp only [apply_del shard _ id loc known,take_whole]

theorem retire_accounts {shard : Shard} {stranded : List OrderLocation} (accounts : Accounts shard stranded)
    (id : UInt64) : Accounts (shard.retire id) stranded := by
  unfold retire
  cases known : shard.orders.lookup id with
  | none => exact accounts
  | some loc =>
    simp only [apply_del shard _ id loc known]
    exact take_accounts accounts id loc loc.qty known UInt32.le_rfl

theorem retired_accounts (ids : List UInt64) {shard : Shard} {stranded : List OrderLocation}
    (accounts : Accounts shard stranded) : Accounts (ids.foldl retire shard) stranded := by
  induction ids generalizing shard with
  | nil => exact accounts
  | cons id rest ih => exact ih (retire_accounts accounts id)

theorem retired_orders (ids : List UInt64) (shard : Shard)
    (all : ∀ id loc, shard.orders.lookup id = some loc → id ∈ ids) : (ids.foldl retire shard).orders = ∅ := by
  induction ids generalizing shard with
  | nil =>
    refine Finmap.ext_lookup fun id => ?_
    cases known : shard.orders.lookup id with
    | none => exact known
    | some loc => exact absurd (all id loc known) List.not_mem_nil
  | cons id rest ih =>
    refine ih _ fun other loc known => ?_
    rw [retire_orders,lookup_erase_if] at known
    split at known
    next => cases known
    next apart => exact (List.mem_cons.mp (all other loc known)).resolve_left apart

/-- The books hold what is tracked, and deleting all that is tracked empties every level. -/
structure NothingStranded (shard : Shard) : Prop where
  totals : shard.bookTotal = shard.trackedTotal
  emptied : ∀ ids : List UInt64, (∀ id loc, shard.orders.lookup id = some loc → id ∈ ids) →
    ∀ b ∈ (ids.foldl retire shard).books, ∀ side k, b.side side k = 0

theorem nothingStranded_of_blank {shard : Shard} {stranded : List OrderLocation} (accounts : Accounts shard stranded)
    (blank : ∀ loc ∈ stranded, loc.qty = 0) : NothingStranded shard := by
  have nothing (i : Nat) (side : Side) (price : Int) : strandedAt stranded i side price = 0 := by
    refine List.sum_eq_zero fun n member => ?_
    obtain ⟨loc,inside,rfl⟩ := List.mem_map.mp member
    simp [cell,restsAt,OrderLocation.resting,blank loc inside]
  refine ⟨?_,fun ids all b member side k => ?_⟩
  · have none_ : (stranded.map fun loc => loc.qty.toNat).sum = 0 := by
      refine List.sum_eq_zero fun n member => ?_
      obtain ⟨loc,inside,rfl⟩ := List.mem_map.mp member
      rw [blank loc inside]
      rfl
    rw [accounts_total accounts,none_,Nat.add_zero]
  · obtain ⟨i,placed⟩ := List.mem_iff_getElem?.mp member
    have level := (retired_accounts ids accounts).levels i b placed side k
    rw [nothing,trackedAt,retired_orders ids shard all,weight_empty] at level
    exact (eq_zero_iff _).mpr level

theorem accounts_opened (shard : Shard) (opened : ∀ b ∈ shard.books, ∀ side k, b.side side k = 0)
    (empty : shard.orders = ∅) : Accounts shard [] := by
  refine ⟨fun i b placed side k => ?_,fun id loc known => ?_,fun loc member => absurd member List.not_mem_nil⟩
  · rw [opened b (List.mem_of_getElem? placed) side k,trackedAt,empty,weight_empty]
    rfl
  · rw [empty,Finmap.lookup_empty] at known
    cases known

/-- Along a run of messages in the band of their orders' books nothing is ever stranded exactly
when every live order that a message displaces has no quantity left. -/
theorem reuse_strands_iff (shard : Shard) (opened : ∀ b ∈ shard.books, ∀ side k, b.side side k = 0)
    (empty : shard.orders = ∅) (items : List QueueItem)
    (regular : ∀ done item rest, items = done ++ item :: rest → Regular (done.foldl apply shard) item) :
    (∀ done, done <+: items → NothingStranded (done.foldl apply shard)) ↔
      ∀ done item rest, items = done ++ item :: rest →
        ∀ loc, (done.foldl apply shard).displaced item.msg = some loc → loc.qty = 0 := by
  have reached (done : List QueueItem) (before : done <+: items) :
      Accounts (done.foldl apply shard) (strandedBy shard done) := by
    obtain ⟨rest,rfl⟩ := before
    refine run_accounts done (accounts_opened shard opened empty) fun done' item rest' split_ => ?_
    exact regular done' item (rest' ++ rest) (by rw [split_]; simp)
  constructor
  · intro holds done item rest split_ loc lost
    have before := (Prefix.prefix_of_split split_).2
    have totals := (holds _ before).totals
    rw [accounts_total (reached _ before)] at totals
    have member : loc ∈ strandedBy shard (done ++ [item]) :=
      (mem_strandedBy _ shard loc).mpr ⟨done,item,[],rfl,lost⟩
    have part := List.single_le_sum (fun _ _ => Nat.zero_le _) _
      (List.mem_map_of_mem (f := fun loc : OrderLocation => loc.qty.toNat) member)
    rw [← UInt32.toNat_inj,UInt32.toNat_zero]
    omega
  · intro blank done before
    refine nothingStranded_of_blank (reached done before) fun loc member => ?_
    obtain ⟨done',item,rest',split_,lost⟩ := (mem_strandedBy done shard loc).mp member
    obtain ⟨rest,rfl⟩ := before
    exact blank done' item (rest' ++ rest) (by rw [split_]; simp) loc lost

/-- A buy of order 1 in the only book of a shard. -/
def buy (priceTicks : Int64) (qty : UInt32) : QueueItem := ⟨.add ⟨⟨0,0⟩,1,.buy,priceTicks,qty⟩,0⟩

theorem buy_regular (shard : Shard) (b : OrderBook) (p : Int64) (qty : UInt32) (placed : shard.books[0]? = some b)
    (inBand : InBand b.basePrice p) (low : ∀ k, (b.bidQty k).toInt < 2^32) : Regular shard (buy p qty) := by
  refine ⟨⟨b,placed,?_,⟨fun k _ => ?_,trivial⟩⟩,?_⟩
  · intro c member
    rw [List.mem_singleton.mp member]
    exact inBand
  · have level := low k
    have bound := qty.toNat_lt
    change (b.bidQty k).toInt + qty.toNat < _
    omega
  · intro loc contra
    cases contra

theorem bought_twice (p q : Int64) (m n : UInt32) (first : InBand (init {} 10000).basePrice p)
    (second : InBand (init {} 10000).basePrice q) : ∀ done item rest, [buy p m,buy q n] = done ++ item :: rest →
    Regular (done.foldl apply fresh) item := by
  intro done item rest split_
  have short : done = [] ∧ item = buy p m ∨ done = [buy p m] ∧ item = buy q n := by
    rcases done with _ | ⟨one,_ | ⟨two,more⟩⟩ <;> simp_all
  rcases short with ⟨rfl,rfl⟩ | ⟨rfl,rfl⟩
  · exact buy_regular fresh _ p m rfl first fun k => by simp [init]
  · refine buy_regular _ ((init {} 10000).call (.add .buy p m)) q n rfl (by rwa [call_basePrice]) fun k => ?_
    have level := add_side (init {} 10000) .buy .buy p m k
    have bound := m.toNat_lt
    change ((add (init {} 10000) .buy p m).2.bidQty k).toInt < 2^32
    change (add (init {} 10000) .buy p m).2.bidQty k = _ at level
    rw [level]
    split
    · simp [OrderBook.side,init]
      omega
    · simp [OrderBook.side,init]

theorem fresh_opened : ∀ b ∈ fresh.books, ∀ side k, b.side side k = 0 := by
  intro b member side k
  rw [List.mem_singleton.mp member]
  cases side <;> rfl

theorem reuse_strands_iff_blank : NothingStranded ([buy 10000 0,buy 10001 3].foldl apply fresh) := by
  have regular := bought_twice 10000 10001 0 3 ⟨by decide,by decide⟩ ⟨by decide,by decide⟩
  refine (reuse_strands_iff fresh fresh_opened rfl _ regular).mpr ?_ _ (List.prefix_refl _)
  intro done item rest split_ loc lost
  have member := (mem_strandedBy _ fresh loc).mpr ⟨done,item,rest,split_,lost⟩
  have only : strandedBy fresh [buy 10000 0,buy 10001 3] = [⟨0,.buy,10000,0⟩] := by
    simp [strandedBy,displaced,buy,apply,onBook,fresh]
  rw [only] at member
  rw [List.mem_singleton.mp member]

/-- Order 1 added twice: the first five lots stay in the book, tracked by nobody. -/
theorem readded_strands :
    (∀ done item rest, [buy 10000 5,buy 10001 3] = done ++ item :: rest → Regular (done.foldl apply fresh) item) ∧
    ([buy 10000 5,buy 10001 3].foldl apply fresh).bookTotal = 8 ∧
    ([buy 10000 5,buy 10001 3].foldl apply fresh).trackedTotal = 3 ∧
    ¬NothingStranded ([buy 10000 5,buy 10001 3].foldl apply fresh) := by
  have regular := bought_twice 10000 10001 5 3 ⟨by decide,by decide⟩ ⟨by decide,by decide⟩
  have total := accounts_total (run_accounts _ (accounts_opened fresh fresh_opened rfl) regular)
  have only : strandedBy fresh [buy 10000 5,buy 10001 3] = [⟨0,.buy,10000,5⟩] := by
    simp [strandedBy,displaced,buy,apply,onBook,fresh]
  have tracked : ([buy 10000 5,buy 10001 3].foldl apply fresh).trackedTotal = 3 := by
    change weight (fun loc : OrderLocation => loc.qty.toNat)
      ((Finmap.insert 1 _ ∅).insert 1 (⟨0,.buy,10001,3⟩ : OrderLocation)) = 3
    rw [Finmap.insert_insert,weight_insert_absent _ _ _ _ (Finmap.lookup_empty _),weight_empty]
    rfl
  rw [only,tracked] at total
  refine ⟨regular,total,tracked,fun nothing => ?_⟩
  have same := nothing.totals
  rw [total,tracked] at same
  exact absurd same (by decide)

end MarketFeed.Shard
