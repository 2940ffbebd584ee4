import Mathlib.Data.Int.CardIntervalMod
import MarketFeed.BacktestFates

/-! The results of a run: every placed order is resolved once and in time, and the naive
order of a pair never does worse than the queue-tracked one. -/
namespace MarketFeed.BacktestEngine
open Lifetimes

/-- An order is first looked at by the message after the one that placed it, so it lives
through one message even under a time to live of 0. -/
def lifetime (cfg : Config) : Nat := max cfg.ttlMessages.toNat 1

def Timely (cfg : Config) (r : SimOrderResult) : Prop :=
  match r.outcome with
  | .filled => r.placedMsgIdx < r.resolvedMsgIdx ∧ r.resolvedMsgIdx ≤ r.placedMsgIdx + lifetime cfg
  | .canceled => r.resolvedMsgIdx = r.placedMsgIdx + lifetime cfg ∧ r.resolvedMsgIdx < cfg.numMessages.toNat
  | .resting => r.resolvedMsgIdx = cfg.numMessages.toNat ∧ cfg.numMessages.toNat ≤ r.placedMsgIdx + lifetime cfg

section Fate
variable (cfg : Config) (closing : OrderBook)

theorem fateOf_cons (tick : Tick) (later : List Tick) (ao : ActiveOrder) :
    ((observe tick.eff ao).1 = true ∧
      fateOf cfg closing (tick :: later) ao = finish tick.book ao .filled tick.msgIdx) ∨
    ((observe tick.eff ao).1 = false ∧ cfg.ttlMessages.toNat ≤ tick.msgIdx - ao.placedMsgIdx ∧
      fateOf cfg closing (tick :: later) ao = finish tick.book ao .canceled tick.msgIdx) ∨
    ((observe tick.eff ao).1 = false ∧ tick.msgIdx - ao.placedMsgIdx < cfg.ttlMessages.toNat ∧
      fateOf cfg closing (tick :: later) ao = fateOf cfg closing later (observe tick.eff ao).2) := by
  have attends := attend_attends cfg tick ao
  have unfolded : fateOf cfg closing (tick :: later) ao =
      match attend cfg tick ao with
      | .inl result => result
      | .inr ao => fateOf cfg closing later ao := by
    simp only [fateOf,fate]
    cases attend cfg tick ao <;> rfl
  rw [unfolded]
  generalize attend cfg tick ao = outcome at attends
  cases attends with
  | filled fill => exact Or.inl ⟨fill,rfl⟩
  | canceled unfilled expired => exact Or.inr (Or.inl ⟨unfilled,expired,rfl⟩)
  | stays unfilled young => exact Or.inr (Or.inr ⟨unfilled,young,rfl⟩)

theorem fateOf_finish (ticks : List Tick) (ao : ActiveOrder) :
    ∃ book outcome msgIdx, fateOf cfg closing ticks ao = finish book ao outcome msgIdx := by
  induction ticks generalizing ao with
  | nil => exact ⟨_,_,_,rfl⟩
  | cons tick later ih =>
    rcases fateOf_cons cfg closing tick later ao with ⟨_,fate⟩ | ⟨_,_,fate⟩ | ⟨_,_,fate⟩
    · exact ⟨_,_,_,fate⟩
    · exact ⟨_,_,_,fate⟩
    · obtain ⟨tracker,framed⟩ := observe_frame tick.eff ao
      obtain ⟨book,outcome,msgIdx,later⟩ := ih (observe tick.eff ao).2
      refine ⟨book,outcome,msgIdx,?_⟩
      rw [fate,later,framed]
      rfl

theorem fateOf_timely (ticks : List Tick) (msgIdx : Nat) (ao : ActiveOrder)
    (consecutive : ticks.map Tick.msgIdx = List.range' msgIdx ticks.length)
    (ends : msgIdx + ticks.length = cfg.numMessages.toNat) (placed : ao.placedMsgIdx < msgIdx)
    (young : msgIdx ≤ ao.placedMsgIdx + lifetime cfg) : Timely cfg (fateOf cfg closing ticks ao) := by
  induction ticks generalizing msgIdx ao with
  | nil => exact ⟨rfl,by rw [← ends]; exact young⟩
  | cons tick later ih =>
    rw [List.length_cons,List.range'_succ,List.map_cons] at consecutive
    obtain ⟨here,consecutive⟩ := List.cons.inj consecutive
    rw [List.length_cons] at ends
    unfold lifetime at young
    rcases fateOf_cons cfg closing tick later ao with ⟨_,fate⟩ | ⟨_,expired,fate⟩ | ⟨_,kept,fate⟩
    · rw [fate]
      simp only [Timely,finish,lifetime]
      omega
    · rw [fate]
      simp only [Timely,finish,lifetime]
      omega
    · obtain ⟨tracker,framed⟩ := observe_frame tick.eff ao
      rw [fate]
      refine ih (msgIdx + 1) _ consecutive (by omega) ?_ ?_
      · rw [framed]
        exact Nat.lt_succ_of_lt placed
      · rw [framed,lifetime]
        change msgIdx + 1 ≤ ao.placedMsgIdx + _
        omega

theorem fateOf_filled (ticks : List Tick) (ao : ActiveOrder)
    (filled : (fateOf cfg closing ticks ao).outcome = .filled) :
    (fateOf cfg closing ticks ao).resolvedMsgIdx ∈ ticks.map Tick.msgIdx := by
  induction ticks generalizing ao with
  | nil => simp [fateOf,fate,finish] at filled
  | cons tick later ih =>
    rcases fateOf_cons cfg closing tick later ao with ⟨_,fate⟩ | ⟨_,_,fate⟩ | ⟨_,_,fate⟩
    · rw [fate]
      exact List.mem_cons_self ..
    · simp [fate,finish] at filled
    · rw [fate] at filled ⊢
      exact List.mem_cons_of_mem _ (ih _ filled)

end Fate

theorem consume_fills (t : FastAheadTracker) (eff : ApplyEffect) (fills : (t.consume eff).1 = true) :
    naiveFill eff t.level = true := by
  unfold FastAheadTracker.consume at fills
  unfold naiveFill
  cases reported : eff.reduction with
  | none => simp [reported] at fills
  | some r =>
    simp only [reported] at fills ⊢
    by_cases ours : r.level = t.level
    · simp only [ours,ne_eq,not_true_eq_false,if_false] at fills
      split at fills <;> simp_all
    · simp [ours] at fills

theorem consume_level (t : FastAheadTracker) (eff : ApplyEffect) : (t.consume eff).2.level = t.level := by
  unfold FastAheadTracker.consume
  split
  · rfl
  · split
    · rfl
    · simp only
      split <;> rfl

/-- Two orders of one pair, the second with a tracker of its level. -/
structure Twins (naive tracked : ActiveOrder) : Prop where
  isNaive : naive.isNaive = true
  isTracked : tracked.isNaive = false
  level : tracked.level = naive.level
  placed : tracked.placedMsgIdx = naive.placedMsgIdx
  tracker : ∃ t, tracked.tracker = some t ∧ t.level = tracked.level

theorem Twins.observed {naive tracked : ActiveOrder} (twins : Twins naive tracked) (eff : ApplyEffect) :
    (observe eff naive).2 = naive ∧ Twins naive (observe eff tracked).2 ∧
      ((observe eff tracked).1 = true → (observe eff naive).1 = true) := by
  obtain ⟨isNaive,isTracked,level,placed,t,tracker,own⟩ := twins
  have stays : observe eff naive = (naiveFill eff naive.level,naive) := by
    simp [observe,isNaive]
  have moves : observe eff tracked =
      ((t.consume eff).1,{ tracked with tracker := some (t.consume eff).2 }) := by
    simp [observe,isTracked,tracker]
  rw [stays,moves]
  refine ⟨rfl,⟨isNaive,isTracked,level,placed,_,rfl,(consume_level t eff).trans own⟩,?_⟩
  intro fills
  rw [← level,← own]
  exact consume_fills t eff fills

/-- The queue-tracked order fills no earlier than the naive one and outlives it only when
the naive one fills. -/
structure Dominates (naive tracked : SimOrderResult) : Prop where
  filled : tracked.outcome = .filled →
    naive.outcome = .filled ∧ naive.resolvedMsgIdx ≤ tracked.resolvedMsgIdx
  canceled : naive.outcome = .canceled →
    tracked.outcome = .canceled ∧ tracked.resolvedMsgIdx = naive.resolvedMsgIdx

theorem fateOf_dominates (cfg : Config) (closing : OrderBook) (ticks : List Tick) (msgIdx : Nat)
    {naive tracked : ActiveOrder} (twins : Twins naive tracked)
    (consecutive : ticks.map Tick.msgIdx = List.range' msgIdx ticks.length) :
    Dominates (fateOf cfg closing ticks naive) (fateOf cfg closing ticks tracked) := by
  induction ticks generalizing msgIdx tracked with
  | nil => constructor <;> simp [fateOf,fate,finish]
  | cons tick later ih =>
    have filledIn := fateOf_filled cfg closing (tick :: later) tracked
    rw [consecutive,List.mem_range'_1] at filledIn
    rw [List.length_cons,List.range'_succ,List.map_cons] at consecutive
    obtain ⟨here,consecutive⟩ := List.cons.inj consecutive
    obtain ⟨still,next,follows⟩ := twins.observed tick.eff
    rcases fateOf_cons cfg closing tick later naive with ⟨_,fate⟩ | ⟨unfilled,expired,fate⟩ | ⟨unfilled,young,fate⟩
    · rw [fate]
      refine ⟨fun filled => ⟨rfl,?_⟩,by simp [finish]⟩
      rw [← here] at filledIn
      exact (filledIn filled).1
    · have waits : (observe tick.eff tracked).1 = false := by
        rw [Bool.eq_false_iff]
        exact fun fills => Bool.eq_false_iff.mp unfilled (follows fills)
      rw [← twins.placed] at expired
      rcases fateOf_cons cfg closing tick later tracked with ⟨fills,_⟩ | ⟨_,_,other⟩ | ⟨_,kept,_⟩
      · simp [waits] at fills
      · rw [fate,other]
        exact ⟨by simp [finish],fun _ => ⟨rfl,rfl⟩⟩
      · omega
    · have waits : (observe tick.eff tracked).1 = false := by
        rw [Bool.eq_false_iff]
        exact fun fills => Bool.eq_false_iff.mp unfilled (follows fills)
      rw [← twins.placed] at young
      rcases fateOf_cons cfg closing tick later tracked with ⟨fills,_⟩ | ⟨_,expired,_⟩ | ⟨_,_,other⟩
      · simp [waits] at fills
      · omega
      · rw [fate,other,still]
        exact ih (msgIdx + 1) next consecutive

/-- The two results of the pair that `point` names by the index of its message and its number. -/
structure Paired (point : Nat × Nat) (p : SimOrderResult × SimOrderResult) : Prop where
  naive : p.1.isNaive = true
  tracked : p.2.isNaive = false
  ids : p.1.id + 1 = 2 * .ofNat point.2 ∧ p.2.id = 2 * .ofNat point.2
  pairId : p.1.pairId = .ofNat point.2 ∧ p.2.pairId = .ofNat point.2
  placed : p.1.placedMsgIdx = point.1 ∧ p.2.placedMsgIdx = point.1
  side : p.1.side = p.2.side
  priceTicks : p.1.priceTicks = p.2.priceTicks
  touch : p.1.bidAtPlace = p.2.bidAtPlace ∧ p.1.askAtPlace = p.2.askAtPlace

theorem results_paired (cfg : Config) (closing : OrderBook) (p : Placement) {number : Nat}
    (counted : p.engine.nextPairId = .ofNat number) (numbered : p.engine.nextId + 1 = 2 * p.engine.nextPairId) :
    Paired (p.msgIdx,number) (p.results cfg closing) := by
  obtain ⟨_,_,_,naive⟩ := fateOf_finish cfg closing p.later (p.engine.pair p.msgIdx).1
  obtain ⟨_,_,_,tracked⟩ := fateOf_finish cfg closing p.later (p.engine.pair p.msgIdx).2
  unfold Placement.results
  rw [naive,tracked]
  rw [counted] at numbered
  exact ⟨rfl,rfl,⟨numbered,numbered⟩,⟨counted,counted⟩,⟨rfl,rfl⟩,rfl,rfl,⟨rfl,rfl⟩⟩

theorem construct_level (level : LevelKey) (ourSeq ahead : UInt64) :
    (FastAheadTracker.construct level ourSeq ahead).level = level := by
  unfold FastAheadTracker.construct
  simp only
  split <;> rfl

theorem pair_twins (e : BacktestEngine) (msgIdx : Nat) : Twins (e.pair msgIdx).1 (e.pair msgIdx).2 :=
  ⟨rfl,rfl,rfl,rfl,_,rfl,construct_level _ _ _⟩

section Run
variable (cfg : Config) (reference : Int64) (message : Nat → WireMsg)

def points : List Nat := placementPoints cfg (OrderBook.init {} reference,∅) 0 (stream cfg message)

theorem points_length : (points cfg reference message).length ≤ cfg.numMessages.toNat := by
  have fewer := placementPoints_length cfg (OrderBook.init {} reference,∅) 0 (stream cfg message)
  rw [stream,List.length_map,List.length_range] at fewer
  exact fewer

/-- The run said pair by pair. -/
structure Reports (pairs : List (SimOrderResult × SimOrderResult)) : Prop where
  results : (runOn cfg reference message).1.Perm (pairs.flatMap fun p => [p.1,p.2])
  paired : List.Forall₂ Paired ((points cfg reference message).zipIdx 1) pairs
  timely : ∀ p ∈ pairs, Timely cfg p.1 ∧ Timely cfg p.2
  dominates : ∀ p ∈ pairs, Dominates p.1 p.2

theorem run_reports : ∃ pairs, Reports cfg reference message pairs := by
  have placed := placements_placed (stream cfg message) (start cfg reference) 0
  have numbers : ((start cfg reference).placements 0 (stream cfg message)).map
      (fun p => (p.msgIdx,p.engine.nextPairId)) = ((points cfg reference message).zipIdx 1).map (Prod.map id UInt64.ofNat) :=
    placements_points (stream cfg message) (start cfg reference) 0 1 rfl
  have length : (stream cfg message).length = cfg.numMessages.toNat := by simp [stream]
  refine ⟨_,replay_perm (stream cfg message) (start cfg reference) 0 rfl,?_,?_,?_⟩
  · rw [List.forall₂_map_right_iff]
    have matched : List.Forall₂ Eq (((points cfg reference message).zipIdx 1).map (Prod.map id UInt64.ofNat))
        (((start cfg reference).placements 0 (stream cfg message)).map fun p => (p.msgIdx,p.engine.nextPairId)) := by
      rw [List.forall₂_eq_eq_eq,numbers]
    rw [List.forall₂_map_left_iff,List.forall₂_map_right_iff] at matched
    refine List.forall₂_iff_zip.mpr ⟨matched.length_eq,fun {point p} both => ?_⟩
    obtain ⟨same,counted⟩ := Prod.ext_iff.mp (List.forall₂_zip matched both)
    have numbered := (placed p (List.of_mem_zip both).2).numbered rfl
    have idx : p.msgIdx = point.1 := same.symm
    rw [← Prod.mk.eta (p := point),← idx]
    exact results_paired _ _ p counted.symm numbered
  · intro results member
    obtain ⟨p,chosen,rfl⟩ := List.mem_map.mp member
    have known := placed p chosen
    have high := known.high
    have consecutive := known.consecutive
    rw [length,Nat.zero_add] at high consecutive
    have size : p.later.length = cfg.numMessages.toNat - (p.msgIdx + 1) := by
      simpa using congrArg List.length consecutive
    rw [← size] at consecutive
    have timely (ao : ActiveOrder) (here : ao.placedMsgIdx = p.msgIdx) (closing : OrderBook) :
        Timely cfg (fateOf cfg closing p.later ao) := by
      refine fateOf_timely cfg closing p.later (p.msgIdx + 1) ao consecutive (by omega) ?_ ?_
      · rw [here]
        exact Nat.lt_succ_self _
      · rw [here,lifetime]
        omega
    exact ⟨timely _ rfl _,timely _ rfl _⟩
  · intro results member
    obtain ⟨p,chosen,rfl⟩ := List.mem_map.mp member
    have consecutive := (placed p chosen).consecutive
    have size := congrArg List.length consecutive
    rw [List.length_map,List.length_range'] at size
    rw [← size] at consecutive
    exact fateOf_dominates _ _ p.later _ (pair_twins p.engine p.msgIdx) consecutive

end Run

/-- Every result of a replay is of an order placed in it. -/
theorem replay_placed (messages : List WireMsg) (e : BacktestEngine) (msgIdx : Nat) (idle : e.active = [])
    (r : SimOrderResult) (member : r ∈ (e.replay msgIdx messages).1) :
    ∃ p ∈ e.placements msgIdx messages, Placed e msgIdx messages p ∧
      ∃ ao, (ao = (p.engine.pair p.msgIdx).1 ∨ ao = (p.engine.pair p.msgIdx).2) ∧
        ∃ book outcome msgIdx, r = finish book ao outcome msgIdx := by
  have all := replay_perm messages e msgIdx idle
  obtain ⟨results,chosen,own⟩ := List.mem_flatMap.mp (all.mem_iff.mp member)
  obtain ⟨p,placed,rfl⟩ := List.mem_map.mp chosen
  refine ⟨p,placed,placements_placed _ _ _ p placed,?_⟩
  rcases List.mem_pair.mp own with rfl | rfl
  · exact ⟨_,Or.inl rfl,fateOf_finish _ _ _ _⟩
  · exact ⟨_,Or.inr rfl,fateOf_finish _ _ _ _⟩

/-- What both orders of a pair record of the moment they are placed. -/
theorem pair_recorded {e : BacktestEngine} {msgIdx : Nat} {ao : ActiveOrder}
    (own : ao = (e.pair msgIdx).1 ∨ ao = (e.pair msgIdx).2) :
    ao.level = ⟨0,.buy,e.book.bestBidTicks⟩ ∧ ao.placedMsgIdx = msgIdx ∧
      ao.aheadQtyAtPlace = (e.qbook.levelTotalQty ⟨0,.buy,e.book.bestBidTicks⟩).toUInt64 := by
  rcases own with rfl | rfl <;> exact ⟨rfl,rfl,rfl⟩

theorem results_placed (cfg : Config) (reference : Int64) (message : Nat → WireMsg) (r : SimOrderResult)
    (member : r ∈ (runOn cfg reference message).1) :
    ∃ p, Placed (start cfg reference) 0 (stream cfg message) p ∧
      ∃ ao, (ao = (p.engine.pair p.msgIdx).1 ∨ ao = (p.engine.pair p.msgIdx).2) ∧
        ∃ book outcome msgIdx, r = finish book ao outcome msgIdx := by
  obtain ⟨p,_,placed⟩ := replay_placed (stream cfg message) (start cfg reference) 0 rfl r member
  exact ⟨p,placed⟩

section Pairs
variable {marks : List Nat} {pairs : List (SimOrderResult × SimOrderResult)}

theorem paired_ids (first : Nat) (paired : List.Forall₂ Paired (marks.zipIdx (first + 1)) pairs) :
    (pairs.flatMap fun p => [p.1,p.2]).map (fun r => r.id) =
      (List.range' (2 * first + 1) (2 * marks.length)).map UInt64.ofNat := by
  induction marks generalizing first pairs with
  | nil =>
    cases paired
    rfl
  | cons mark marks ih =>
    cases paired
    next p pairs here later =>
      obtain ⟨left,right⟩ := here.ids
      have tracked : 2 * UInt64.ofNat (first + 1) = .ofNat (2 * first + 1 + 1) :=
        (UInt64.ofNat_mul 2 (first + 1)).symm
      have naive : p.1.id = .ofNat (2 * first + 1) := by
        rw [← UInt64.add_left_inj 1,left,tracked,UInt64.ofNat_add]
        rfl
      have double : 2 * (mark :: marks).length = 2 * marks.length + 1 + 1 := by
        rw [List.length_cons]
        omega
      rw [double,List.range'_succ,List.range'_succ]
      simp only [List.flatMap_cons,List.map_cons,List.cons_append,List.nil_append,
        ih (first + 1) later,naive,right,tracked]
      congr 3

theorem paired_numbers (first : Nat) (paired : List.Forall₂ Paired (marks.zipIdx first) pairs) :
    pairs.map (fun p => p.1.pairId) = (List.range' first marks.length).map UInt64.ofNat := by
  induction marks generalizing first pairs with
  | nil =>
    cases paired
    rfl
  | cons mark marks ih =>
    cases paired
    next p pairs here later =>
      rw [List.map_cons,List.length_cons,List.range'_succ,List.map_cons,ih (first + 1) later,here.pairId.1]

theorem numbers_toNat {first count : Nat} (bound : first + count ≤ 2^64) :
    ((List.range' first count).map UInt64.ofNat).map UInt64.toNat = List.range' first count := by
  rw [List.map_map]
  refine (List.map_congr_left fun number member => ?_).trans (List.map_id _)
  rw [List.mem_range'_1] at member
  exact UInt64.toNat_ofNat_of_lt' (show number < 2^64 by omega)

theorem paired_mem (first : Nat) (paired : List.Forall₂ Paired (marks.zipIdx first) pairs) :
    ∀ p ∈ pairs, ∃ point, Paired point p := by
  intro p member
  obtain ⟨i,inside,rfl⟩ := List.mem_iff_getElem.mp member
  exact ⟨_,paired.get (by rw [paired.length_eq]; exact inside) inside⟩

theorem dominates_count (first : Nat) (paired : List.Forall₂ Paired (marks.zipIdx first) pairs)
    (dominates : ∀ p ∈ pairs, Dominates p.1 p.2) :
    (pairs.flatMap fun p => [p.1,p.2]).countP (fun r => !r.isNaive && r.outcome = .filled) ≤
      (pairs.flatMap fun p => [p.1,p.2]).countP fun r => r.isNaive && r.outcome = .filled := by
  have known := paired_mem first paired
  clear paired
  induction pairs with
  | nil => exact Nat.le_refl _
  | cons p pairs ih =>
    obtain ⟨point,here⟩ := known p (List.mem_cons_self ..)
    have filled := (dominates p (List.mem_cons_self ..)).filled
    have rest := ih (fun q member => dominates q (List.mem_cons_of_mem _ member))
      fun q member => known q (List.mem_cons_of_mem _ member)
    simp only [List.flatMap_cons,List.countP_append,List.countP_cons,List.countP_nil,here.naive,here.tracked,
      Bool.not_true,Bool.not_false,Bool.false_and,Bool.true_and,decide_eq_true_eq,Bool.false_eq_true,if_false]
    by_cases wins : p.2.outcome = .filled
    · simp only [wins,(filled wins).1,if_true]
      omega
    · simp only [wins,if_false]
      omega

end Pairs

section Run
variable (cfg : Config) (reference : Int64) (message : Nat → WireMsg)

/-- Fills under the naive model dominate the queue-tracked ones, pair by pair, whatever the
stream. -/
theorem naive_dominates :
    let results := (runOn cfg reference message).1
    (∀ r ∈ results, ∃ other ∈ results, other.isNaive = !r.isNaive ∧ other.pairId = r.pairId) ∧
    (∀ naive ∈ results, ∀ tracked ∈ results, naive.isNaive = true → tracked.isNaive = false →
      naive.pairId = tracked.pairId →
      (tracked.outcome = .filled →
        naive.outcome = .filled ∧ naive.resolvedMsgIdx ≤ tracked.resolvedMsgIdx) ∧
      (naive.outcome = .canceled →
        tracked.outcome = .canceled ∧ tracked.resolvedMsgIdx = naive.resolvedMsgIdx)) ∧
    results.countP (fun r => !r.isNaive && r.outcome = .filled) ≤
      results.countP fun r => r.isNaive && r.outcome = .filled := by
  intro results
  obtain ⟨pairs,reports⟩ := run_reports cfg reference message
  have known := paired_mem 1 reports.paired
  have member (r : SimOrderResult) : r ∈ results ↔ ∃ p ∈ pairs, r = p.1 ∨ r = p.2 := by
    rw [reports.results.mem_iff]
    simp [List.mem_flatMap]
  refine ⟨?_,?_,?_⟩
  · intro r here
    obtain ⟨p,chosen,own⟩ := (member r).mp here
    obtain ⟨point,paired⟩ := known p chosen
    have same : p.1.pairId = p.2.pairId := paired.pairId.1.trans paired.pairId.2.symm
    rcases own with rfl | rfl
    · exact ⟨p.2,(member _).mpr ⟨p,chosen,Or.inr rfl⟩,by rw [paired.naive,paired.tracked]; rfl,same.symm⟩
    · exact ⟨p.1,(member _).mpr ⟨p,chosen,Or.inl rfl⟩,by rw [paired.naive,paired.tracked]; rfl,same⟩
  · intro naive left tracked right isNaive isTracked same
    obtain ⟨p,chosen,own⟩ := (member naive).mp left
    obtain ⟨q,picked,other⟩ := (member tracked).mp right
    obtain ⟨point,paired⟩ := known p chosen
    obtain ⟨mark,matched⟩ := known q picked
    have own : naive = p.1 := own.resolve_right fun contra => by simp [contra,paired.tracked] at isNaive
    have other : tracked = q.2 := other.resolve_left fun contra => by simp [contra,matched.naive] at isTracked
    rw [own,other] at same
    -- the numbers of the pairs are distinct, so both results are of one pair
    have distinct : (pairs.map fun p => p.1.pairId).Nodup := by
      have fewer := points_length cfg reference message
      have bound := cfg.numMessages.toNat_lt
      rw [paired_numbers 1 reports.paired]
      refine List.Nodup.of_map UInt64.toNat ?_
      rw [numbers_toNat (by omega)]
      exact List.nodup_range'
    have one : p = q := List.inj_on_of_nodup_map distinct chosen picked
      (same.trans (matched.pairId.2.trans matched.pairId.1.symm))
    subst one
    rw [own,other]
    exact ⟨(reports.dominates p chosen).filled,(reports.dominates p chosen).canceled⟩
  · rw [reports.results.countP_eq,reports.results.countP_eq]
    exact dominates_count 1 reports.paired reports.dominates

/-- Where the reservation does not wrap, the results fit in it. -/
theorem points_reserved (interval : cfg.placementInterval ≠ 0)
    (unwrapped : cfg.numMessages.toNat / cfg.placementInterval.toNat * 2 + 16 < 2^64) :
    2 * (points cfg reference message).length ≤ (reservation cfg).toNat := by
  have positive : 0 < cfg.placementInterval.toNat := by
    rw [Nat.pos_iff_ne_zero]
    exact fun zero => interval (UInt64.toNat_inj.mp zero)
  have multiples := placementPoints_count cfg (OrderBook.init {} reference,∅) 0 (stream cfg message)
  have size : (stream cfg message).length = cfg.numMessages.toNat := by simp [stream]
  have every : Nat.count (· % cfg.placementInterval.toNat = 0) cfg.numMessages.toNat =
      cfg.numMessages.toNat / cfg.placementInterval.toNat +
        if 0 < cfg.numMessages.toNat % cfg.placementInterval.toNat then 1 else 0 := by
    convert Nat.count_modEq_card cfg.numMessages.toNat positive 0 using 2
    · simp [Nat.ModEq]
    · rw [Nat.zero_mod]
  rw [Nat.count_zero,Nat.add_zero,Nat.zero_add,size,every] at multiples
  have asked : (reservation cfg).toNat = cfg.numMessages.toNat / cfg.placementInterval.toNat * 2 + 16 := by
    simp only [reservation,UInt64.toNat_add,UInt64.toNat_mul,UInt64.toNat_div,UInt64.reduceToNat]
    omega
  rw [asked]
  change (points cfg reference message).length ≤ _ at multiples
  split at multiples <;> omega

theorem results_length :
    (runOn cfg reference message).1.length = 2 * (points cfg reference message).length := by
  obtain ⟨pairs,reports⟩ := run_reports cfg reference message
  have count := reports.paired.length_eq
  rw [List.length_zipIdx] at count
  rw [reports.results.length_eq,List.length_flatMap,count]
  simp [Nat.mul_comm]

theorem run_peak :
    (start cfg reference).peak 0 (stream cfg message) ≤ 2 * (points cfg reference message).length := by
  have count := congrArg List.length (placements_points (stream cfg message) (start cfg reference) 0 1 rfl)
  simp only [List.length_map,List.length_zipIdx] at count
  have most := peak_le (stream cfg message) (start cfg reference) 0 rfl
  rw [count] at most
  exact most

/-- A run returns what its loop yields if its reservation and its vectors stay within the limits. -/
theorem run_returns (limits : Limits) (interval : cfg.placementInterval ≠ 0)
    (reserved : reservation cfg ≤ limits.results)
    (held : 2 * (points cfg reference message).length ≤ min limits.results.toNat limits.active.toNat) :
    (construct cfg).runFrom limits reference message = .ok (runOn cfg reference message) := by
  have peak := run_peak cfg reference message
  have length := results_length cfg reference message
  rw [← length] at held
  rw [← length] at peak
  refine (runFrom_ok _ _ _ _ _).mpr ⟨interval,reserved,?_,?_,rfl⟩
  · change (runOn cfg reference message).1.length ≤ _
    omega
  · change (start cfg reference).peak 0 (stream cfg message) ≤ _
    omega

/-- A run that returns has resolved every order placed exactly once and at the right message, and
leaves none; and a run that its vectors can hold returns. -/
theorem resolved_once (limits : Limits) :
    let placed := points cfg reference message
    (∀ results e, (construct cfg).runFrom limits reference message = .ok (results,e) →
      e.active = [] ∧
      results.length = 2 * placed.length ∧
      (results.map fun r => r.id.toNat).Perm (List.range' 1 (2 * placed.length)) ∧
      (∃ pairs : List (SimOrderResult × SimOrderResult),
        results.Perm (pairs.flatMap fun p => [p.1,p.2]) ∧ List.Forall₂ Paired (placed.zipIdx 1) pairs) ∧
      ∀ r ∈ results, Timely cfg r) ∧
    (cfg.placementInterval ≠ 0 → reservation cfg ≤ limits.results →
      2 * placed.length ≤ min limits.results.toNat limits.active.toNat →
      ∃ results e, (construct cfg).runFrom limits reference message = .ok (results,e)) := by
  intro placed
  refine ⟨fun results e returned => ?_,fun interval reserved held =>
    ⟨_,_,run_returns cfg reference message limits interval reserved held⟩⟩
  obtain ⟨_,_,held,_,yielded⟩ := (runFrom_ok _ _ _ _ _).mp returned
  obtain ⟨rfl,rfl⟩ : (runOn cfg reference message).1 = results ∧ (runOn cfg reference message).2 = e :=
    Prod.mk.inj yielded
  have length := results_length cfg reference message
  change (runOn cfg reference message).1.length ≤ _ at held
  have bound := limits.results.toNat_lt
  obtain ⟨pairs,reports⟩ := run_reports cfg reference message
  have ids := reports.results.map fun r => r.id
  rw [paired_ids 0 reports.paired] at ids
  replace ids := ids.map UInt64.toNat
  rw [numbers_toNat (by omega),List.map_map] at ids
  refine ⟨replay_active _ _ _,length,ids,⟨pairs,reports.results,reports.paired⟩,?_⟩
  intro r member
  obtain ⟨p,chosen,own⟩ := List.mem_flatMap.mp (reports.results.mem_iff.mp member)
  have timely := reports.timely p chosen
  rcases List.mem_pair.mp own with rfl | rfl
  · exact timely.1
  · exact timely.2

end Run

theorem run_reserved {e : BacktestEngine} {limits : Limits} {rng : Nat → Draw}
    {out : List SimOrderResult × BacktestEngine} (returned : e.run limits rng = .ok out) :
    reservation e.cfg ≤ limits.results :=
  ((runFrom_ok _ _ _ _ _).mp returned).2.1

/-- `max_size()` of the two vectors on a 64-bit machine: their elements take 104 and 128 bytes. -/
def limits64 : Limits := ⟨9223372036854775807 / 104,9223372036854775807 / 128⟩

def trade : Nat → WireMsg
  | 0 => .add ⟨⟨0,0⟩,1,.buy,10000,5⟩
  | 1 => .add ⟨⟨0,0⟩,2,.sell,10001,5⟩
  | 2 => .exec ⟨⟨0,0⟩,1,2⟩
  | 3 => .exec ⟨⟨0,0⟩,1,3⟩
  | _ => .add ⟨⟨0,0⟩,3,.buy,9999,5⟩

def tradedRun : Config := { numMessages := 5, placementInterval := 1, ttlMessages := 2 }

/-- Three pairs: the naive orders of two are filled while the tracked ones expire, and the third rests. -/
theorem resolved_once_traded : points tradedRun 10000 trade = [1,2,4] ∧
    ∃ results e, (construct tradedRun).runFrom limits64 10000 trade = .ok (results,e) ∧
      e.active = [] ∧ results.length = 2 * 3 ∧
      (results.map fun r => r.id.toNat).Perm [1,2,3,4,5,6] ∧ ∀ r ∈ results, Timely tradedRun r := by
  have placed : points tradedRun 10000 trade = [1,2,4] := by decide +kernel
  obtain ⟨resolved,returns⟩ := resolved_once tradedRun 10000 trade limits64
  obtain ⟨results,e,returned⟩ := returns (by decide) (by decide +kernel) (by rw [placed]; decide +kernel)
  obtain ⟨idle,length,ids,_,timely⟩ := resolved results e returned
  rw [placed] at length ids
  exact ⟨placed,results,e,returned,idle,length,ids,timely⟩

/-- 2^60 messages. -/
def vastRun : Config := { numMessages := 1152921504606846976, placementInterval := 1 }

/-- A run that places at each of them asks for more than a vector can hold. -/
theorem vast_run_refused :
    ¬∃ results e, (construct vastRun).run limits64 (fun _ => ⟨0,le_rfl,one_pos⟩) = .ok (results,e) := by
  rintro ⟨results,e,returned⟩
  exact absurd (run_reserved returned) (by decide +kernel)

end MarketFeed.BacktestEngine
