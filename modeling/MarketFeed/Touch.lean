import MarketFeed.BookReplay

/-! The top-of-book invariant: each best index is the extremal occupied level, or
the sentinel of an empty side. Only an add of quantity 0 beyond the touch breaks it. -/
namespace MarketFeed.OrderBook
open Word Extremum

def occupied (levels : Levels) : Set Int := {i | ∃ k : Fin kLevels, levels k ≠ 0 ∧ i = k}

abbrev BidBest (levels : Levels) (best : Int) : Prop := IsGreatest (insert (-1) (occupied levels)) best
abbrev AskBest (levels : Levels) (best : Int) : Prop :=
  IsLeast (insert (kLevels : Int) (occupied levels)) best

theorem occupied_empty : occupied (fun _ => 0) = ∅ := by
  simp [occupied]

theorem occupied_nonneg (levels : Levels) (i : Int) (member : i ∈ occupied levels) : 0 ≤ i := by
  obtain ⟨k,_,rfl⟩ := member
  omega

theorem occupied_lt (levels : Levels) (i : Int) (member : i ∈ occupied levels) : i < kLevels := by
  obtain ⟨k,_,rfl⟩ := member
  exact_mod_cast k.isLt

theorem mem_occupied (levels : Levels) (k : Fin kLevels) : (k : Int) ∈ occupied levels ↔ levels k ≠ 0 := by
  refine ⟨?_,?_⟩
  · rintro ⟨j,holds,equal⟩
    have same : k = j := Fin.ext (by omega)
    exact same ▸ holds
  · exact fun holds => ⟨k,holds,rfl⟩

theorem occupied_set (levels : Levels) (k : Fin kLevels) (q : Int64) (nonzero : q ≠ 0) :
    occupied (Function.update levels k q) = insert (k : Int) (occupied levels) := by
  ext i
  refine ⟨?_,?_⟩
  · rintro ⟨j,holds,rfl⟩
    by_cases same : j = k
    · exact Or.inl (by rw [same])
    · exact Or.inr ⟨j,by simpa [same] using holds,rfl⟩
  · rintro (rfl | ⟨j,holds,rfl⟩)
    · exact ⟨k,by simpa using nonzero,rfl⟩
    · by_cases same : j = k
      · exact ⟨j,by simpa [same] using nonzero,rfl⟩
      · exact ⟨j,by simpa [same] using holds,rfl⟩

theorem occupied_clear (levels : Levels) (k : Fin kLevels) :
    occupied (Function.update levels k 0) = occupied levels \ {(k : Int)} := by
  ext i
  refine ⟨?_,?_⟩
  · rintro ⟨j,holds,rfl⟩
    by_cases same : j = k
    · exact absurd holds (by simp [same])
    · refine ⟨⟨j,by simpa [same] using holds,rfl⟩,?_⟩
      intro equal
      exact same (Fin.ext (by simpa using equal))
  · rintro ⟨⟨j,holds,rfl⟩,other⟩
    have different : j ≠ k := fun same => other (by simp [same])
    exact ⟨j,by simpa [different] using holds,rfl⟩

theorem occupiedAt_iff (levels : Levels) (i : Nat) :
    occupiedAt levels i = true ↔ (i : Int) ∈ occupied levels := by
  unfold occupiedAt
  split
  next inside =>
    rw [decide_eq_true_iff]
    exact (mem_occupied levels ⟨i,inside⟩).symm
  next outside =>
    refine ⟨?_,?_⟩
    · intro contra
      contradiction
    · intro member
      have := occupied_lt levels i member
      omega

theorem walkBid_best (levels : Levels) (best : Int) (low : -1 ≤ best)
    (bound : ∀ i ∈ occupied levels, i ≤ best) : BidBest levels (walkBid levels best) := by
  have walked := walkDown_greatest (occupiedAt levels) (best + 1).toNat
  have same : {i : Int | ∃ k < (best + 1).toNat, occupiedAt levels k ∧ i = k} = occupied levels := by
    ext i
    refine ⟨?_,?_⟩
    · rintro ⟨k,_,found,rfl⟩
      exact (occupiedAt_iff levels k).mp found
    · intro member
      have nonneg := occupied_nonneg levels i member
      have below := bound i member
      refine ⟨i.toNat,by omega,?_,by omega⟩
      rw [occupiedAt_iff]
      simpa [nonneg] using member
  rwa [same] at walked

theorem walkAsk_best (levels : Levels) (best : Int) (low : 0 ≤ best) (high : best ≤ kLevels)
    (bound : ∀ i ∈ occupied levels, best ≤ i) : AskBest levels (walkAsk levels best) := by
  have walked := walkUp_least (occupiedAt levels) kLevels (kLevels - best).toNat (by omega)
  have same : {i : Int | ∃ k, kLevels - (kLevels - best).toNat ≤ k ∧ k < kLevels ∧
      occupiedAt levels k ∧ i = k} = occupied levels := by
    ext i
    refine ⟨?_,?_⟩
    · rintro ⟨k,_,_,found,rfl⟩
      exact (occupiedAt_iff levels k).mp found
    · intro member
      have nonneg := occupied_nonneg levels i member
      have above := bound i member
      have below := occupied_lt levels i member
      refine ⟨i.toNat,by omega,by omega,?_,by omega⟩
      rw [occupiedAt_iff]
      simpa [nonneg] using member
  rwa [same] at walked

section Bid
variable {levels : Levels} {best : Int} (k : Fin kLevels)

theorem bidBest_low (valid : BidBest levels best) : -1 ≤ best := valid.2 (Or.inl rfl)

theorem bidBest_raise (valid : BidBest levels best) (q : Int64) (nonzero : q ≠ 0) :
    BidBest (Function.update levels k q) (if (k : Int) > best then k else best) := by
  rw [BidBest,occupied_set levels k q nonzero]
  have grown := greatest_insert (k : Int) valid
  split
  next beyond => rwa [max_eq_left (le_of_lt beyond)] at grown
  next inside => rwa [max_eq_right (not_lt.mp inside)] at grown

theorem bidBest_keep (valid : BidBest levels best) (q : Int64) (nonzero : q ≠ 0)
    (held : levels k ≠ 0) : BidBest (Function.update levels k q) best := by
  rwa [BidBest,occupied_set levels k q nonzero,
    Set.insert_eq_of_mem ((mem_occupied levels k).mpr held)]

theorem bidBest_clear (valid : BidBest levels best) :
    BidBest (Function.update levels k 0)
      (if (k : Int) = best then walkBid (Function.update levels k 0) best else best) := by
  split
  next touch =>
    apply walkBid_best _ _ (bidBest_low valid)
    intro i member
    rw [occupied_clear] at member
    exact valid.2 (Or.inr member.1)
  next other =>
    rw [BidBest,occupied_clear]
    exact greatest_remove (k : Int) other valid

end Bid

section Ask
variable {levels : Levels} {best : Int} (k : Fin kLevels)

theorem askBest_high (valid : AskBest levels best) : best ≤ kLevels := valid.2 (Or.inl rfl)

theorem askBest_low (valid : AskBest levels best) : 0 ≤ best := by
  rcases valid.1 with equal | member
  · omega
  · exact occupied_nonneg levels best member

theorem askBest_lower (valid : AskBest levels best) (q : Int64) (nonzero : q ≠ 0) :
    AskBest (Function.update levels k q) (if (k : Int) < best then k else best) := by
  rw [AskBest,occupied_set levels k q nonzero]
  have grown := least_insert (k : Int) valid
  split
  next beyond => rwa [min_eq_left (le_of_lt beyond)] at grown
  next inside => rwa [min_eq_right (not_lt.mp inside)] at grown

theorem askBest_keep (valid : AskBest levels best) (q : Int64) (nonzero : q ≠ 0)
    (held : levels k ≠ 0) : AskBest (Function.update levels k q) best := by
  rwa [AskBest,occupied_set levels k q nonzero,
    Set.insert_eq_of_mem ((mem_occupied levels k).mpr held)]

theorem askBest_clear (valid : AskBest levels best) :
    AskBest (Function.update levels k 0)
      (if (k : Int) = best then walkAsk (Function.update levels k 0) best else best) := by
  split
  next touch =>
    apply walkAsk_best _ _ (askBest_low valid) (askBest_high valid)
    intro i member
    rw [occupied_clear] at member
    exact valid.2 (Or.inr member.1)
  next other =>
    rw [AskBest,occupied_clear]
    exact least_remove (k : Int) other valid

end Ask

/-- What holds of the arrays and the best indices between two calls. -/
structure TopOfBook (b : OrderBook) : Prop where
  bidNonneg : ∀ k, 0 ≤ (b.bidQty k).toInt
  askNonneg : ∀ k, 0 ≤ (b.askQty k).toInt
  bidBest : BidBest b.bidQty b.bestBidIdx
  askBest : AskBest b.askQty b.bestAskIdx

structure TouchReadings (b : OrderBook) : Prop where
  hasBid_iff : b.hasBid = true ↔ ∃ k, b.bidQty k ≠ 0
  hasAsk_iff : b.hasAsk = true ↔ ∃ k, b.askQty k ≠ 0
  bidQty_pos : b.hasBid = true → 0 < b.bestBidQty.toInt
  askQty_pos : b.hasAsk = true → 0 < b.bestAskQty.toInt

theorem readAt_coe (levels : Levels) (k : Fin kLevels) : readAt levels k = levels k := by
  have inside : (0 : Int) ≤ k ∧ (k : Int) < kLevels := ⟨by omega,by exact_mod_cast k.isLt⟩
  simp only [readAt,dif_pos inside]
  rfl

theorem pos_of_nonzero (q : Int64) (nonneg : 0 ≤ q.toInt) (nonzero : q ≠ 0) : 0 < q.toInt := by
  have := (eq_zero_iff q).not.mp nonzero
  omega

theorem bidBest_cases {levels : Levels} {best : Int} (valid : BidBest levels best) :
    (best = -1 ∧ ∀ k, levels k = 0) ∨ ∃ k : Fin kLevels, best = k ∧ levels k ≠ 0 := by
  rcases valid.1 with equal | ⟨k,held,equal⟩
  · refine Or.inl ⟨equal,fun k => ?_⟩
    by_contra held
    have := valid.2 (Or.inr ⟨k,held,rfl⟩)
    omega
  · exact Or.inr ⟨k,equal,held⟩

theorem askBest_cases {levels : Levels} {best : Int} (valid : AskBest levels best) :
    (best = kLevels ∧ ∀ k, levels k = 0) ∨ ∃ k : Fin kLevels, best = k ∧ levels k ≠ 0 := by
  rcases valid.1 with equal | ⟨k,held,equal⟩
  · refine Or.inl ⟨equal,fun k => ?_⟩
    by_contra held
    have := valid.2 (Or.inr ⟨k,held,rfl⟩)
    omega
  · exact Or.inr ⟨k,equal,held⟩

theorem TopOfBook.readings {b : OrderBook} (valid : b.TopOfBook) : b.TouchReadings := by
  obtain ⟨bidNonneg,askNonneg,bidBest,askBest⟩ := valid
  rcases bidBest_cases bidBest with ⟨noBid,bidEmpty⟩ | ⟨i,bidIdx,bidHeld⟩ <;>
    rcases askBest_cases askBest with ⟨noAsk,askEmpty⟩ | ⟨j,askIdx,askHeld⟩
  · constructor <;> simp [hasBid,hasAsk,noBid,noAsk,bidEmpty,askEmpty]
  · have ask := pos_of_nonzero _ (askNonneg j) askHeld
    constructor <;> simp [hasBid,hasAsk,noBid,bidEmpty,askIdx,bestAskQty,readAt_coe,ask]
    exact ⟨j,askHeld⟩
  · have bid := pos_of_nonzero _ (bidNonneg i) bidHeld
    constructor <;> simp [hasBid,hasAsk,noAsk,askEmpty,bidIdx,bestBidQty,readAt_coe,bid]
    exact ⟨i,bidHeld⟩
  · have ask := pos_of_nonzero _ (askNonneg j) askHeld
    have bid := pos_of_nonzero _ (bidNonneg i) bidHeld
    constructor <;> simp [hasBid,hasAsk,bidIdx,askIdx,bestBidQty,bestAskQty,readAt_coe,bid,ask]
    · exact ⟨i,bidHeld⟩
    · exact ⟨j,askHeld⟩

theorem init_topOfBook (b : OrderBook) (reference : Int64) : (b.init reference).TopOfBook := by
  constructor <;> simp [init,BidBest,AskBest,occupied_empty]

theorem reduced_toInt (q : Int64) (n : UInt32) (nonneg : 0 ≤ q.toInt) :
    (reduced q n).toInt = max 0 (q.toInt - n.toNat) := by
  have exact := toInt_sub_widen q n nonneg
  unfold reduced
  simp only
  split
  next negative =>
    rw [neg_iff] at negative
    rw [max_eq_left (by omega)]
    rfl
  next positive =>
    rw [neg_iff] at positive
    rw [max_eq_right (by omega),exact]

theorem reduced_nonneg (q : Int64) (n : UInt32) (nonneg : 0 ≤ q.toInt) : 0 ≤ (reduced q n).toInt := by
  rw [reduced_toInt q n nonneg]
  exact le_max_left _ _

theorem reduced_held (q : Int64) (n : UInt32) (nonneg : 0 ≤ q.toInt) (left : reduced q n ≠ 0) : q ≠ 0 := by
  intro empty
  apply left
  rw [eq_zero_iff,reduced_toInt q n nonneg,empty]
  simp

def Fits (b : OrderBook) (side : Side) (priceTicks : Int64) (qty : UInt32) : Prop :=
  ∀ k, b.level priceTicks = some k → (b.side side k).toInt + qty.toNat < 2^63

/-- An add of quantity 0 at a price whose `index_of` lands in the band, strictly better than the
touch. -/
def BlankTouch (b : OrderBook) (side : Side) (priceTicks : Int64) (qty : UInt32) : Prop :=
  qty = 0 ∧ ∃ k : Fin kLevels, b.level priceTicks = some k ∧
    match side with
    | .buy => b.bestBidIdx < k
    | .sell => (k : Int) < b.bestAskIdx

theorem update_nonneg (levels : Levels) (k : Fin kLevels) (q : Int64)
    (nonneg : ∀ j, 0 ≤ (levels j).toInt) (new : 0 ≤ q.toInt) :
    ∀ j, 0 ≤ (Function.update levels k q j).toInt := by
  intro j
  by_cases same : j = k
  · subst same
    simpa using new
  · simpa [same] using nonneg j

theorem nonzero_of_toNat (n : UInt32) (nonzero : n ≠ 0) : 0 < n.toNat := by
  rcases Nat.eq_zero_or_pos n.toNat with zero | positive
  · exact absurd (UInt32.toNat_inj.mp (by simpa using zero)) nonzero
  · exact positive

theorem add_topOfBook (b : OrderBook) (side : Side) (p : Int64) (qty : UInt32) (valid : b.TopOfBook)
    (fits : b.Fits side p qty) (visible : ¬b.BlankTouch side p qty) :
    (b.add side p qty).2.TopOfBook := by
  unfold add
  cases located : b.level p with
  | none => exact ⟨valid.bidNonneg,valid.askNonneg,valid.bidBest,valid.askBest⟩
  | some k =>
    have fits := fits k located
    cases side with
    | buy =>
      have sum := toInt_add_widen (b.bidQty k) qty (valid.bidNonneg k) fits
      have nonneg := update_nonneg b.bidQty k _ valid.bidNonneg (by
        have := valid.bidNonneg k
        omega : 0 ≤ (b.bidQty k + widen qty).toInt)
      refine ⟨nonneg,valid.askNonneg,?_,valid.askBest⟩
      by_cases blank : qty = 0
      · have inside : ¬(k : Int) > b.bestBidIdx := fun beyond => visible ⟨blank,k,located,beyond⟩
        simpa [blank,inside] using valid.bidBest
      · apply bidBest_raise k valid.bidBest
        rw [ne_eq,eq_zero_iff,sum]
        have := valid.bidNonneg k
        have := nonzero_of_toNat qty blank
        omega
    | sell =>
      have sum := toInt_add_widen (b.askQty k) qty (valid.askNonneg k) fits
      have nonneg := update_nonneg b.askQty k _ valid.askNonneg (by
        have := valid.askNonneg k
        omega : 0 ≤ (b.askQty k + widen qty).toInt)
      refine ⟨valid.bidNonneg,nonneg,valid.bidBest,?_⟩
      by_cases blank : qty = 0
      · have inside : ¬(k : Int) < b.bestAskIdx := fun beyond => visible ⟨blank,k,located,beyond⟩
        simpa [blank,inside] using valid.askBest
      · apply askBest_lower k valid.askBest
        rw [ne_eq,eq_zero_iff,sum]
        have := valid.askNonneg k
        have := nonzero_of_toNat qty blank
        omega

theorem reduce_topOfBook (b : OrderBook) (side : Side) (p : Int64) (qty : UInt32)
    (valid : b.TopOfBook) : (b.reduce side p qty).2.TopOfBook := by
  unfold reduce
  cases located : b.level p with
  | none => exact ⟨valid.bidNonneg,valid.askNonneg,valid.bidBest,valid.askBest⟩
  | some k =>
    cases side with
    | buy =>
      have nonneg := valid.bidNonneg k
      refine ⟨update_nonneg _ k _ valid.bidNonneg (reduced_nonneg _ qty nonneg),valid.askNonneg,?_,
        valid.askBest⟩
      by_cases emptied : reduced (b.bidQty k) qty = 0
      · simpa [emptied] using bidBest_clear k valid.bidBest
      · simpa [emptied] using bidBest_keep k valid.bidBest _ emptied (reduced_held _ qty nonneg emptied)
    | sell =>
      have nonneg := valid.askNonneg k
      refine ⟨valid.bidNonneg,update_nonneg _ k _ valid.askNonneg (reduced_nonneg _ qty nonneg),
        valid.bidBest,?_⟩
      by_cases emptied : reduced (b.askQty k) qty = 0
      · simpa [emptied] using askBest_clear k valid.askBest
      · simpa [emptied] using askBest_keep k valid.askBest _ emptied (reduced_held _ qty nonneg emptied)

theorem add_blankTouch (b : OrderBook) (side : Side) (p : Int64) (qty : UInt32) (valid : b.TopOfBook)
    (blank : b.BlankTouch side p qty) : ¬(b.add side p qty).2.TopOfBook := by
  obtain ⟨rfl,k,located,beyond⟩ := blank
  intro after
  unfold add at after
  rw [located] at after
  cases side with
  | buy =>
    have empty : b.bidQty k = 0 := by
      by_contra held
      have := valid.bidBest.2 (Or.inr ⟨k,held,rfl⟩)
      change b.bestBidIdx < k at beyond
      omega
    have best := after.bidBest
    simp only [gt_iff_lt,beyond,if_true,empty,widen_zero] at best
    rcases bidBest_cases best with ⟨none,_⟩ | ⟨j,same,held⟩
    · omega
    · have same : j = k := Fin.ext (by omega)
      simp [same] at held
  | sell =>
    have empty : b.askQty k = 0 := by
      by_contra held
      have := valid.askBest.2 (Or.inr ⟨k,held,rfl⟩)
      change (k : Int) < b.bestAskIdx at beyond
      omega
    have best := after.askBest
    simp only [beyond,if_true,empty,widen_zero] at best
    rcases askBest_cases best with ⟨none,_⟩ | ⟨j,same,held⟩
    · have := k.isLt
      omega
    · have same : j = k := Fin.ext (by omega)
      simp [same] at held

def SumsFit (b : OrderBook) : List Call → Prop
  | [] => True
  | .add side p qty :: cs => b.Fits side p qty ∧ SumsFit (b.call (.add side p qty)) cs
  | .reduce side p qty :: cs => SumsFit (b.call (.reduce side p qty)) cs

def NoBlankTouch (b : OrderBook) : List Call → Prop
  | [] => True
  | .add side p qty :: cs => ¬b.BlankTouch side p qty ∧ NoBlankTouch (b.call (.add side p qty)) cs
  | .reduce side p qty :: cs => NoBlankTouch (b.call (.reduce side p qty)) cs

theorem prefixes_cons (b : OrderBook) (c : Call) (cs : List Call) (property : OrderBook → Prop) :
    (∀ done, done <+: c :: cs → property (b.calls done)) ↔
      property b ∧ ∀ done, done <+: cs → property ((b.call c).calls done) := by
  refine ⟨?_,?_⟩
  · intro all
    exact ⟨all [] List.nil_prefix,fun done before => all (c :: done) (List.cons_prefix_cons.mpr ⟨rfl,before⟩)⟩
  · rintro ⟨here,later⟩ done before
    cases done with
    | nil => exact here
    | cons first done =>
      obtain ⟨rfl,inside⟩ := List.cons_prefix_cons.mp before
      exact later done inside

theorem calls_topOfBook_iff (b : OrderBook) (cs : List Call) (valid : b.TopOfBook) (fits : b.SumsFit cs) :
    (∀ done, done <+: cs → (b.calls done).TopOfBook) ↔ b.NoBlankTouch cs := by
  induction cs generalizing b with
  | nil => simpa [NoBlankTouch,calls] using valid
  | cons c cs ih =>
    rw [prefixes_cons b c cs OrderBook.TopOfBook]
    cases c with
    | add side p qty =>
      refine ⟨?_,?_⟩
      · rintro ⟨_,later⟩
        have next := later [] List.nil_prefix
        refine ⟨fun blank => add_blankTouch b side p qty valid blank next,?_⟩
        exact (ih _ next fits.2).mp later
      · rintro ⟨visible,rest⟩
        have next := add_topOfBook b side p qty valid fits.1 visible
        exact ⟨valid,(ih _ next fits.2).mpr rest⟩
    | reduce side p qty =>
      have next := reduce_topOfBook b side p qty valid
      exact ⟨fun later => (ih _ next fits).mp later.2,fun rest => ⟨valid,(ih _ next fits).mpr rest⟩⟩

/-- After `init` the top-of-book invariant, with what a caller reads off it, holds after
every call exactly when no add of quantity 0 lands beyond the touch. -/
theorem touch_invariant_iff (b : OrderBook) (reference : Int64) (cs : List Call)
    (fits : (b.init reference).SumsFit cs) :
    (∀ done, done <+: cs →
      ((b.init reference).calls done).TopOfBook ∧ ((b.init reference).calls done).TouchReadings) ↔
      (b.init reference).NoBlankTouch cs := by
  rw [← calls_topOfBook_iff _ cs (init_topOfBook b reference) fits]
  exact ⟨fun all done before => (all done before).1,
    fun all done before => ⟨all done before,(all done before).readings⟩⟩

theorem touch_invariant_iff_bought :
    ((init {} 10000).calls [.add .buy 10000 5,.reduce .buy 10000 9]).TopOfBook ∧
      ((init {} 10000).calls [.add .buy 10000 5,.reduce .buy 10000 9]).TouchReadings := by
  have located : (init {} 10000).level 10000 = some ⟨8192,by decide⟩ := by decide
  have fits : (init {} 10000).SumsFit [.add .buy 10000 5,.reduce .buy 10000 9] := by
    refine ⟨fun k found => ?_,trivial⟩
    obtain rfl := Option.some.inj (located.symm.trans found)
    decide
  exact (touch_invariant_iff {} 10000 _ fits).mpr ⟨fun blank => absurd blank.1 (by decide),trivial⟩ _
    (List.prefix_refl _)

/-- The zero-quantity add makes the book show a bid of size 0. -/
theorem blank_add_shows_bid :
    (init {} 10000).SumsFit [.add .buy 10000 0] ∧
    ((init {} 10000).calls [.add .buy 10000 0]).hasBid = true ∧
    ((init {} 10000).calls [.add .buy 10000 0]).bestBidQty = 0 ∧
    ¬((init {} 10000).calls [.add .buy 10000 0]).TopOfBook := by
  have located : (init {} 10000).level 10000 = some ⟨8192,by decide⟩ := by decide
  refine ⟨⟨?_,trivial⟩,by decide,by decide,?_⟩
  · intro k found
    obtain rfl := Option.some.inj (located.symm.trans found)
    decide
  · exact add_blankTouch _ .buy 10000 0 (init_topOfBook {} 10000) ⟨rfl,_,located,by decide⟩

end MarketFeed.OrderBook
