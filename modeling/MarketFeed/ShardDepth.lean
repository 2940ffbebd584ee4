import MarketFeed.Depth

/-! Depth and orders of one book of a shard under `Normalizer::apply`, over a stream
whose messages all go to that book. -/
namespace MarketFeed.Shard
open FiniteMap OrderBook

def run (shard : Shard) (localIdx : UInt16) (messages : List WireMsg) : Shard :=
  messages.foldl (fun s m => s.apply ⟨m,localIdx⟩) shard

def depthAt (shard : Shard) (side : Side) (price : Int) : Nat :=
  weight (fun loc => restsAt side price loc.resting) shard.orders

theorem run_concat (shard : Shard) (localIdx : UInt16) (done : List WireMsg) (m : WireMsg) :
    shard.run localIdx (done ++ [m]) = (shard.run localIdx done).apply ⟨m,localIdx⟩ :=
  Prefix.foldl_concat _ _ _ _

theorem depthAt_eq (shard : Shard) (orders : OrderMap) (agrees : shard.AgreesOn Set.univ orders)
    (side : Side) (price : Int) : shard.depthAt side price = MarketFeed.depthAt orders side price := by
  apply weight_congr
  intro id
  have same := congrArg (Option.map (restsAt side price)) (agrees id trivial)
  simpa [find,Option.map_map,Function.comp_def] using same

/-- The book an initialised shard keeps at one index, tied to a single-book order map. -/
structure Tracks (shard : Shard) (localIdx : UInt16) (base : Int64) (book : OrderBook)
    (orders : OrderMap) : Prop where
  placed : shard.books[localIdx.toNat]? = some book
  agrees : shard.AgreesOn Set.univ orders
  depth : Depth book orders
  base_eq : book.basePrice = base

theorem Tracks.find_eq {shard : Shard} {localIdx : UInt16} {base : Int64} {book : OrderBook}
    {orders : OrderMap} (tracks : shard.Tracks localIdx base book orders) : shard.find = orders.lookup :=
  funext fun id => tracks.agrees id trivial

theorem tracks_init (shard : Shard) (localIdx : UInt16) (b : OrderBook) (reference : Int64)
    (placed : shard.books[localIdx.toNat]? = some (b.init reference)) (empty : shard.orders = ∅) :
    shard.Tracks localIdx (b.init reference).basePrice (b.init reference) ∅ := by
  refine ⟨placed,fun id _ => ?_,depth_init b reference,rfl⟩
  simp [find,empty]

theorem agrees_apply (shard : Shard) (item : QueueItem) (orders : OrderMap)
    (agrees : shard.AgreesOn Set.univ orders) :
    (shard.apply item).AgreesOn Set.univ (trackOrders item.msg orders) :=
  fun id _ => apply_find shard item orders id (fun k _ => agrees k trivial) (agrees id trivial)

theorem tracks_apply (shard : Shard) (localIdx : UInt16) (base : Int64) (book : OrderBook)
    (orders : OrderMap) (tracks : shard.Tracks localIdx base book orders) (m : WireMsg)
    (admissible : Admissible base shard.find m)
    (fits : ∀ side (k : Fin kLevels), (shard.apply ⟨m,localIdx⟩).depthAt side (base.toInt + k) < 2^63) :
    book.Sound (bookCalls m shard.find) ∧
      (shard.apply ⟨m,localIdx⟩).Tracks localIdx base (book.calls (bookCalls m shard.find))
        (trackOrders m orders) := by
  have agrees := agrees_apply shard ⟨m,localIdx⟩ orders tracks.agrees
  have fits : ∀ side (k : Fin kLevels),
      MarketFeed.depthAt (trackOrders m orders) side (book.basePrice.toInt + k) < 2^63 := by
    intro side k
    rw [tracks.base_eq,← depthAt_eq _ _ agrees]
    exact fits side k
  have admissible : Admissible book.basePrice orders.lookup m := by
    rw [tracks.base_eq,← tracks.find_eq]
    exact admissible
  have step := depth_step book orders tracks.depth m admissible fits
  rw [← tracks.find_eq] at step
  refine ⟨step.1,?_,agrees,step.2,(calls_basePrice _ _).trans tracks.base_eq⟩
  rw [apply_books]
  simp [tracks.placed]

structure DepthReport (shard : Shard) (book : OrderBook) : Prop where
  levels : ∀ side (k : Fin kLevels),
    (book.side side k).toInt = shard.depthAt side (book.basePrice.toInt + k)
  live : ∀ id loc, shard.orders.lookup id = some loc → 1 ≤ loc.qty.toNat
  bestBid : (book.hasBid = true ∧
      IsGreatest (touchPrices book.basePrice shard.find .buy) book.bestBidTicks.toInt) ∨
    (book.hasBid = false ∧ touchPrices book.basePrice shard.find .buy = ∅)
  bestAsk : (book.hasAsk = true ∧
      IsLeast (touchPrices book.basePrice shard.find .sell) book.bestAskTicks.toInt) ∨
    (book.hasAsk = false ∧ touchPrices book.basePrice shard.find .sell = ∅)

theorem Tracks.report {shard : Shard} {localIdx : UInt16} {base : Int64} {book : OrderBook}
    {orders : OrderMap} (tracks : shard.Tracks localIdx base book orders) : shard.DepthReport book := by
  refine ⟨fun side k => ?_,fun id loc found => ?_,?_,?_⟩
  · rw [tracks.depth.exact,depthAt_eq shard orders tracks.agrees]
  · have entry : orders.lookup id = some loc.resting := by
      rw [← tracks.agrees id trivial,find,found]
      rfl
    exact nonzero_of_toNat loc.qty (tracks.depth.live id loc.resting entry).1
  · rw [tracks.find_eq]
    exact bestBid_spec book orders tracks.depth
  · rw [tracks.find_eq]
    exact bestAsk_spec book orders tracks.depth

def StreamAdmissible (shard : Shard) (localIdx : UInt16) (base : Int64) (messages : List WireMsg) : Prop :=
  ∀ done m rest, messages = done ++ m :: rest → Admissible base (shard.run localIdx done).find m

def StreamFits (shard : Shard) (localIdx : UInt16) (base : Int64) (messages : List WireMsg) : Prop :=
  ∀ done, done <+: messages → ∀ side (k : Fin kLevels),
    (shard.run localIdx done).depthAt side (base.toInt + k) < 2^63

theorem run_tracks (shard : Shard) (localIdx : UInt16) (b : OrderBook) (reference : Int64)
    (placed : shard.books[localIdx.toNat]? = some (b.init reference)) (empty : shard.orders = ∅)
    (messages : List WireMsg)
    (admissible : shard.StreamAdmissible localIdx (b.init reference).basePrice messages)
    (fits : shard.StreamFits localIdx (b.init reference).basePrice messages) :
    ∀ done, done <+: messages → ∃ book orders,
      (shard.run localIdx done).Tracks localIdx (b.init reference).basePrice book orders := by
  apply Prefix.invariant_prefix messages
  · exact ⟨_,_,tracks_init shard localIdx b reference placed empty⟩
  · intro done m rest split ⟨book,orders,tracks⟩
    rw [run_concat]
    have next := tracks_apply _ _ _ book orders tracks m (admissible done m rest split) (by
      rw [← run_concat]
      exact fits _ (Prefix.prefix_of_split split).2)
    exact ⟨_,_,next.2⟩

/-- After every message each level is the exact sum of the live orders at its price, orders outside
the band touch no level, no reduction clamps, and the touch is the best tracked in-band price. -/
theorem aggregated_depth (shard : Shard) (localIdx : UInt16) (b : OrderBook) (reference : Int64)
    (placed : shard.books[localIdx.toNat]? = some (b.init reference)) (empty : shard.orders = ∅)
    (messages : List WireMsg)
    (admissible : shard.StreamAdmissible localIdx (b.init reference).basePrice messages)
    (fits : shard.StreamFits localIdx (b.init reference).basePrice messages) :
    (∀ done, done <+: messages → ∃ book,
      (shard.run localIdx done).books[localIdx.toNat]? = some book ∧
      book.basePrice = (b.init reference).basePrice ∧
      (shard.run localIdx done).DepthReport book) ∧
    (∀ done m rest, messages = done ++ m :: rest → ∃ book,
      (shard.run localIdx done).books[localIdx.toNat]? = some book ∧
      (shard.run localIdx (done ++ [m])).books[localIdx.toNat]? =
        some (book.calls (bookCalls m (shard.run localIdx done).find)) ∧
      book.Sound (bookCalls m (shard.run localIdx done).find)) := by
  have tracked := run_tracks shard localIdx b reference placed empty messages admissible fits
  refine ⟨?_,?_⟩
  · intro done before
    obtain ⟨book,orders,tracks⟩ := tracked done before
    exact ⟨book,tracks.placed,tracks.base_eq,tracks.report⟩
  · intro done m rest split
    obtain ⟨book,orders,tracks⟩ := tracked done (Prefix.prefix_of_split split).1
    have next := tracks_apply _ _ _ book orders tracks m (admissible done m rest split) (by
      rw [← run_concat]
      exact fits _ (Prefix.prefix_of_split split).2)
    rw [run_concat]
    exact ⟨book,tracks.placed,next.2.placed,next.1⟩

theorem depthAt_run (shard : Shard) (localIdx : UInt16) (empty : shard.orders = ∅)
    (messages : List WireMsg) (side : Side) (price : Int) :
    (shard.run localIdx messages).depthAt side price ≤ messages.length * (2^32 - 1) := by
  have bounded : ∃ orders, (shard.run localIdx messages).AgreesOn Set.univ orders ∧
      MarketFeed.depthAt orders side price ≤ messages.length * (2^32 - 1) := by
    induction messages using List.reverseRecOn with
    | nil => exact ⟨∅,fun id _ => by simp [run,find,empty],by simp [MarketFeed.depthAt,weight_empty]⟩
    | append_singleton done m ih =>
      obtain ⟨orders,agrees,bound⟩ := ih
      rw [run_concat]
      refine ⟨_,agrees_apply _ ⟨m,localIdx⟩ orders agrees,?_⟩
      have step := depthAt_track m orders side price
      simp only [List.length_append,List.length_singleton]
      omega
  obtain ⟨orders,agrees,bound⟩ := bounded
  rwa [depthAt_eq _ orders agrees]

theorem short_streamFits (shard : Shard) (localIdx : UInt16) (base : Int64) (empty : shard.orders = ∅)
    (messages : List WireMsg) (short : messages.length ≤ 2^31) :
    shard.StreamFits localIdx base messages := by
  intro done before side k
  have bound := depthAt_run shard localIdx empty done side (base.toInt + k)
  have length := before.length_le
  omega

def fresh : Shard := { books := [init {} 10000] }

/-- Two orders, both reduced, one of them replaced and the other deleted. -/
def traded : List WireMsg :=
  [.add ⟨⟨0,0⟩,7,.sell,10001,5⟩,.add ⟨⟨0,0⟩,8,.buy,9999,9⟩,.exec ⟨⟨0,0⟩,7,2⟩,.replace ⟨⟨0,0⟩,8,9,9998,6⟩,
    .cancel ⟨⟨0,0⟩,9,4⟩,.del ⟨⟨0,0⟩,7⟩]

theorem streamAdmissible_nil (shard : Shard) (localIdx : UInt16) (base : Int64) :
    shard.StreamAdmissible localIdx base [] := by
  intro done m rest split
  simp at split

theorem streamAdmissible_cons {shard : Shard} {localIdx : UInt16} {base : Int64} {m : WireMsg} {rest : List WireMsg}
    (first : Admissible base shard.find m) (later : (shard.apply ⟨m,localIdx⟩).StreamAdmissible localIdx base rest) :
    shard.StreamAdmissible localIdx base (m :: rest) := by
  intro done last after split
  cases done with
  | nil =>
    obtain ⟨rfl,_⟩ := List.cons.inj split
    exact first
  | cons head done =>
    obtain ⟨rfl,onward⟩ := List.cons.inj split
    exact later done last after onward

theorem traded_admissible : fresh.StreamAdmissible 0 (init {} 10000).basePrice traded := by
  refine streamAdmissible_cons ⟨by decide,rfl,by decide,by decide⟩ ?_
  refine streamAdmissible_cons ⟨by decide,by decide +kernel,by decide,by decide⟩ ?_
  refine streamAdmissible_cons trivial ?_
  refine streamAdmissible_cons ⟨by decide,Or.inl (by decide +kernel),by decide,by decide⟩ ?_
  exact streamAdmissible_cons trivial (streamAdmissible_cons trivial (streamAdmissible_nil _ _ _))

theorem aggregated_depth_traded :
    ((fresh.run 0 traded).depthAt .buy 9998 = 2 ∧ (fresh.run 0 traded).depthAt .sell 10001 = 0) ∧
    (∀ done, done <+: traded → ∃ book, (fresh.run 0 done).books[0]? = some book ∧
      book.basePrice = (init {} 10000).basePrice ∧ (fresh.run 0 done).DepthReport book) ∧
    ∀ done m rest, traded = done ++ m :: rest → ∃ book, (fresh.run 0 done).books[0]? = some book ∧
      (fresh.run 0 (done ++ [m])).books[0]? = some (book.calls (bookCalls m (fresh.run 0 done).find)) ∧
      book.Sound (bookCalls m (fresh.run 0 done).find) :=
  ⟨by decide +kernel,aggregated_depth fresh 0 {} 10000 rfl rfl _ traded_admissible
    (short_streamFits fresh 0 (init {} 10000).basePrice rfl traded (by decide))⟩

def flood (n : Nat) : List WireMsg :=
  (List.range n).map fun i => .add ⟨⟨0,0⟩,UInt64.ofNat i,.buy,10000,4294967295⟩

theorem flood_succ (n : Nat) :
    flood (n + 1) = flood n ++ [.add ⟨⟨0,0⟩,UInt64.ofNat n,.buy,10000,4294967295⟩] := by
  simp [flood,List.range_succ]

theorem flood_tracked (n : Nat) (few : n < 2^64) :
    (∀ i, n ≤ i → i < 2^64 → (fresh.run 0 (flood n)).find (UInt64.ofNat i) = none) ∧
    (fresh.run 0 (flood n)).depthAt .buy 10000 = n * (2^32 - 1) := by
  induction n with
  | zero => exact ⟨fun _ _ _ => rfl,by decide⟩
  | succ n ih =>
    obtain ⟨absent,sum⟩ := ih (by omega)
    have here := absent n (le_refl n) (by omega)
    rw [flood_succ,run_concat]
    refine ⟨?_,?_⟩
    · intro i above bound
      have other : UInt64.ofNat i ≠ UInt64.ofNat n := by
        intro equal
        have same := congrArg UInt64.toNat equal
        rw [UInt64.toNat_ofNat_of_lt' bound,UInt64.toNat_ofNat_of_lt' (Nat.lt_of_succ_lt few)] at same
        omega
      simp only [apply,onBook,find_insert,other,if_false]
      exact absent i (by omega) bound
    · have free : (fresh.run 0 (flood n)).orders.lookup (UInt64.ofNat n) = none := by
        simpa [find] using here
      simp only [apply,onBook,depthAt]
      rw [weight_insert_absent _ _ _ _ free]
      unfold depthAt at sum
      rw [sum]
      have own : restsAt .buy 10000 (OrderLocation.resting ⟨0,.buy,10000,4294967295⟩) = 2^32 - 1 := by
        decide
      rw [own]
      ring

theorem flood_split (n : Nat) (done rest : List WireMsg) (m : WireMsg) (split : flood n = done ++ m :: rest) :
    done.length < n ∧ done = flood done.length ∧
      m = .add ⟨⟨0,0⟩,UInt64.ofNat done.length,.buy,10000,4294967295⟩ := by
  have size : n = done.length + (rest.length + 1) := by
    simpa [flood] using congrArg List.length split
  have before : done = (flood n).take done.length := by simp [split]
  have here : (flood n)[done.length]? = some m := by simp [split]
  refine ⟨by omega,?_,?_⟩
  · rw [before]
    simp [flood,← List.map_take,List.take_range,size]
  · simpa [flood,size] using here.symm

/-- 2^31 + 1 such orders are more than a 64-bit level can hold. -/
theorem flood_overflows :
    fresh.StreamAdmissible 0 (init {} 10000).basePrice (flood (2^31 + 1)) ∧
    ¬∃ book, (fresh.run 0 (flood (2^31 + 1))).books[0]? = some book ∧
      book.basePrice = (init {} 10000).basePrice ∧
      (fresh.run 0 (flood (2^31 + 1))).DepthReport book := by
  refine ⟨?_,?_⟩
  · intro done m rest split
    obtain ⟨bound,before,rfl⟩ := flood_split _ done rest m split
    have near : Near (init {} 10000).basePrice 10000 := ⟨by decide,by decide⟩
    have quantity : (4294967295 : UInt32) ≠ 0 := by decide
    have absent := (flood_tracked done.length (by omega)).1 done.length (le_refl _) (by omega)
    rw [← before] at absent
    exact ⟨quantity,absent,near⟩
  · intro ⟨book,_,base,report⟩
    have level := report.levels .buy ⟨8192,by decide⟩
    have price : (init {} 10000).basePrice.toInt + ((8192 : Nat) : Int) = 10000 := by decide
    have bound := (book.side .buy ⟨8192,by decide⟩).toInt_lt
    rw [base,price,(flood_tracked (2^31 + 1) (by decide)).2] at level
    omega

end MarketFeed.Shard
