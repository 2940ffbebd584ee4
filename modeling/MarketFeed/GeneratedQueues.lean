import MarketFeed.BacktestReference
import MarketFeed.QueueInvariant
import MarketFeed.SimulatorStep

/-! The generator brings at most 500 shares a message, so no level of a short run holds 2^32, and
nothing the trackers and the backtest rest on is narrowed away. -/
namespace MarketFeed
open FiniteMap

def broughtQty : WireMsg → Nat
  | .add a => a.qty.toNat
  | .replace r => r.qty.toNat
  | _ => 0

namespace QueuePositionBook

theorem held_resting (book : QueuePositionBook) (key : LevelKey) : held (book.level key) ≤ book.resting := by
  unfold level resting
  cases stored : book.levels.lookup key with
  | none => exact Nat.zero_le _
  | some nodes => exact weight_ge held book.levels key nodes stored

theorem apply_resting (book : QueuePositionBook) (m : WireMsg) :
    (book.apply m).2.resting ≤ book.resting + broughtQty m := by
  obtain ⟨eff,mid,withdraws,_,after,_⟩ := apply_withdraws book m
  have left := withdraws.resting
  rw [after]
  cases brought : book.arrival m with
  | none => exact Nat.le_add_right_of_le (by simp only [Option.elim_none]; omega)
  | some new =>
    have pushed := resting_pushBack mid new.1 new.2.1 new.2.2
    have quantity : new.2.2.toNat = broughtQty m := by
      cases m with
      | add a =>
        obtain rfl := Option.some.inj brought
        rfl
      | replace r =>
        obtain ⟨_,_,rfl⟩ := Option.map_eq_some_iff.mp brought
        rfl
      | zero | exec | cancel | del => simp [arrival] at brought
    simp only [Option.elim_some]
    omega

theorem applyAll_resting (messages : List WireMsg) (book : QueuePositionBook) :
    (book.applyAll messages).resting ≤ book.resting + (messages.map broughtQty).sum := by
  induction messages generalizing book with
  | nil => exact Nat.le_refl _
  | cons m rest ih =>
    have first := apply_resting book m
    have later := ih (book.apply m).2
    rw [List.map_cons,List.sum_cons]
    change ((book.apply m).2.applyAll rest).resting ≤ _
    omega

end QueuePositionBook

namespace MarketSimulator
open QueuePositionBook

theorem addOrder_brings (sim : MarketSimulator) (instr : Nat) : broughtQty (sim.addOrder instr).1 ≤ 500 :=
  (uniformQty 1 500 (by omega) (by omega) _).2

theorem actOn_brings (sim : MarketSimulator) (instr idx : Nat) (lo : LiveOrder) :
    broughtQty (sim.actOn instr idx lo).1 ≤ 500 := by
  simp only [actOn]
  split
  · exact Nat.zero_le _
  · split
    · exact Nat.zero_le _
    · split
      · exact Nat.zero_le _
      · exact (uniformQty 1 500 (by omega) (by omega) _).2

theorem nextMessage_brings (sim : MarketSimulator) : broughtQty sim.nextMessage.1 ≤ 500 := by
  simp only [nextMessage,emit]
  split
  · exact addOrder_brings _ _
  · split
    · exact Nat.zero_le _
    · exact actOn_brings _ _ _ _

/-- What rests after `k` messages, whatever was drawn. -/
theorem generated_resting (sim : MarketSimulator) (k : Nat) :
    (({} : QueuePositionBook).applyAll (sim.generated k)).resting ≤ 500 * k := by
  have brought : ((sim.generated k).map broughtQty).sum ≤ 500 * k := by
    have bounded := List.sum_le_card_nsmul ((sim.generated k).map broughtQty) 500 (by
      intro qty member
      obtain ⟨m,inside,rfl⟩ := List.mem_map.mp member
      obtain ⟨j,_,rfl⟩ := List.mem_map.mp inside
      exact nextMessage_brings _)
    simpa [generated,Nat.mul_comm] using bounded
  have rests := applyAll_resting (sim.generated k) {}
  have empty : ({} : QueuePositionBook).resting = 0 := weight_empty held
  omega

theorem generated_length (sim : MarketSimulator) (k : Nat) : (sim.generated k).length = k := by simp [generated]

theorem generated_take (sim : MarketSimulator) {j k : Nat} (early : j ≤ k) :
    (sim.generated k).take j = sim.generated j := by
  rw [generated,generated,← List.map_take,List.take_range,Nat.min_eq_left early]

theorem generated_held (sim : MarketSimulator) {k : Nat} (short : k ≤ 8589934) (key : LevelKey) :
    held ((({} : QueuePositionBook).applyAll (sim.generated k)).level key) < 2^32 := by
  have rests := sim.generated_resting k
  have part := held_resting (({} : QueuePositionBook).applyAll (sim.generated k)) key
  omega

end MarketSimulator

namespace BacktestEngine
open QueuePositionBook MarketSimulator

theorem generated_tracked (sim : MarketSimulator) {k : Nat} (short : k ≤ 8589934) (reference : Int64) :
    Tracked reference (sim.generated k) := by
  refine ⟨?_,fun i inside => ?_⟩
  · have counted := List.countP_le_length (p := introduces) (l := sim.generated k)
    rw [generated_length] at counted
    omega
  · rw [generated_length] at inside
    rw [queueAt,generated_take sim (by omega)]
    exact generated_held sim (by omega) _

/-- What `run` reports is what the generated stream tells, for a run of up to 8,589,934 messages
whose vectors can hold what it reserves. -/
theorem generated_told (limits : Limits) (cfg : Config) (rng : Nat → Draw) (interval : cfg.placementInterval ≠ 0)
    (short : cfg.numMessages.toNat ≤ 8589934)
    (reserved : reservation cfg ≤ limits.results ∧ reservation cfg ≤ limits.active) :
    let sim := MarketSimulator.construct rng 1
    let messages := sim.generated cfg.numMessages.toNat
    ∃ results e, (construct cfg).run limits rng = .ok (results,e) ∧
      results.Perm (toldAll (sim.refPrice 0) messages cfg) ∧ results.Pairwise Before := by
  intro sim messages
  have fewer := Nat.div_le_self cfg.numMessages.toNat cfg.placementInterval.toNat
  have held := points_reserved cfg (sim.refPrice 0) sim.message interval (by omega)
  have results := UInt64.le_iff_toNat_le.mp reserved.1
  have active := UInt64.le_iff_toNat_le.mp reserved.2
  have told := run_told cfg (sim.refPrice 0) sim.message (generated_tracked _ short _) (by omega)
  exact ⟨_,_,run_returns cfg (sim.refPrice 0) sim.message limits interval reserved.1 (by omega),told⟩

def eightMessages : Config := { numMessages := 8, placementInterval := 1, ttlMessages := 3 }

/-- Of its four pairs three orders are filled, one expires and four rest. -/
theorem generated_told_engine : ∃ results e, (construct eightMessages).run limits64 (engine 5) = .ok (results,e) ∧
    results.Perm (toldAll ((MarketSimulator.construct (engine 5) 1).refPrice 0)
      ((MarketSimulator.construct (engine 5) 1).generated 8) eightMessages) ∧
    results.countP (fun r => r.outcome = .filled) = 3 ∧ results.countP (fun r => r.outcome = .canceled) = 1 ∧
    results.Pairwise Before := by
  obtain ⟨results,e,returned,told,ordered⟩ := generated_told limits64 eightMessages (engine 5) (by decide) (by decide)
    ⟨by decide +kernel,by decide +kernel⟩
  refine ⟨results,e,returned,told,told.countP_eq _ ▸ ?_,told.countP_eq _ ▸ ?_,ordered⟩
  · decide +kernel
  · decide +kernel

end BacktestEngine
end MarketFeed
