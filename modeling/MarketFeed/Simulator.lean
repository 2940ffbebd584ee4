import MarketFeed.BookReplay
import MarketFeed.Library.SwapRemove
import Mathlib.Data.Int.ConditionallyCompleteOrder
import Mathlib.Data.Rat.Floor
import Mathlib.Tactic.Linarith
import Mathlib.Tactic.NormNum
import Mathlib.Tactic.Positivity

/-! The order-flow generator. The random engine is an arbitrary sequence of draws, each
spread over its distribution's range: `uniformInt_range` says that every value is drawn. -/
namespace MarketFeed
open SwapRemove

structure Draw where
  value : ℚ
  nonneg : 0 ≤ value
  below : value < 1

/-- A roll of a `std::uniform_real_distribution(0.0,1.0)` against a constant. -/
def Draw.under (d : Draw) (bound : ℚ) : Bool := d.value < bound

/-- `std::uniform_int_distribution(a,b)`, both ends included. -/
def uniformInt (a b : Int) (d : Draw) : Int := a + ⌊d.value * (b - a + 1)⌋

/-- `std::uniform_real_distribution(a,b)`, the upper end excluded. -/
def uniformReal (a b : ℚ) (d : Draw) : ℚ := a + d.value * (b - a)

theorem uniformInt_range (a b : Int) (ordered : a ≤ b) : Set.range (uniformInt a b) = Set.Icc a b := by
  have width : (0 : ℚ) < b - a + 1 := by
    have ordered : (a : ℚ) ≤ b := by exact_mod_cast ordered
    linarith
  ext c
  refine ⟨?_,?_⟩
  · rintro ⟨d,rfl⟩
    have low : 0 ≤ d.value * (b - a + 1) := mul_nonneg d.nonneg width.le
    have high : d.value * (b - a + 1) < ((b - a + 1 : Int) : ℚ) := by
      push_cast
      exact mul_lt_of_lt_one_left width d.below
    have floor_low := Int.floor_nonneg.mpr low
    have floor_high := Int.floor_lt.mpr high
    unfold uniformInt
    exact ⟨by omega,by omega⟩
  · intro member
    obtain ⟨low,high⟩ := member
    have low : (a : ℚ) ≤ c := by exact_mod_cast low
    have high : (c : ℚ) ≤ b := by exact_mod_cast high
    refine ⟨⟨(c - a) / (b - a + 1),div_nonneg (by linarith) width.le,?_⟩,?_⟩
    · rw [div_lt_one width]
      linarith
    · unfold uniformInt
      rw [div_mul_cancel₀ _ width.ne',← Int.cast_sub,Int.floor_intCast]
      omega

theorem uniformInt_mem (a b : Int) (ordered : a ≤ b) (d : Draw) :
    a ≤ uniformInt a b d ∧ uniformInt a b d ≤ b := by
  have member : uniformInt a b d ∈ Set.range (uniformInt a b) := ⟨d,rfl⟩
  rwa [uniformInt_range a b ordered] at member

/-- A draw of so many tenths of the range. -/
def tenths (k : Nat) : Draw :=
  ⟨(k % 10 : Nat) / 10,by positivity,by rw [div_lt_one (by norm_num)]; exact_mod_cast Nat.mod_lt k (by norm_num)⟩

/-- Draws that soon bring messages of all five kinds. -/
def mixed (n : Nat) : Draw := tenths (2 + 3 * n + n * n / 11)

/-- An engine for each seed, whose first draw puts the first reference price at 24800. -/
def engine (seed n : Nat) : Draw := if n = 0 then tenths 6 else mixed (n + seed)

structure LiveOrder where
  orderId : UInt64
  side : Side
  priceTicks : Int64
  qty : UInt32
  deriving DecidableEq, Repr

def LiveOrder.resting (lo : LiveOrder) : RestingLoc := ⟨lo.side,lo.priceTicks,lo.qty⟩

/-- The vectors are tables over the instruments below `numInstruments`. -/
structure MarketSimulator where
  rng : Nat → Draw
  numInstruments : Nat
  refPrice : Nat → Int64 := fun _ => 0
  liveOrders : Nat → List LiveOrder := fun _ => []
  nextOrderId : UInt64 := 1

namespace MarketSimulator

abbrev draw (sim : MarketSimulator) : Draw × MarketSimulator :=
  (sim.rng 0,{ sim with rng := fun n => sim.rng (n + 1) })

/-- `static_cast<int64_t>(price_dist(rng_) * 100.0)`. -/
def initialPrice (d : Draw) : Int64 := Int64.ofInt ⌊uniformReal 20 400 d * 100⌋

def priceInstrument (sim : MarketSimulator) (i : Nat) : MarketSimulator :=
  let (price,sim) := sim.draw
  { sim with refPrice := Function.update sim.refPrice i (initialPrice price) }

def construct (rng : Nat → Draw) (numInstruments : Nat) : MarketSimulator :=
  (List.range numInstruments).foldl priceInstrument { rng := rng, numInstruments := numInstruments }

def setBook (sim : MarketSimulator) (instr : Nat) (book : List LiveOrder) : MarketSimulator :=
  { sim with liveOrders := Function.update sim.liveOrders instr book }

def header (instr : Nat) : MsgHeader := ⟨UInt16.ofNat instr,0⟩

/-- `ref_price_[instr] + (side == Side::Buy ? -off : off)`. -/
def quote (sim : MarketSimulator) (instr : Nat) (side : Side) (off : Int) : Int64 :=
  sim.refPrice instr + Int64.ofInt (if side = .buy then -off else off)

def drift (sim : MarketSimulator) (instr : Nat) : MarketSimulator :=
  let (roll,sim) := sim.draw
  if roll.under 0.0005 then
    let (step,sim) := sim.draw
    { sim with
      refPrice := Function.update sim.refPrice instr
        (sim.refPrice instr + Int64.ofInt (uniformInt (-3) 3 step)) }
  else sim

def addOrder (sim : MarketSimulator) (instr : Nat) : WireMsg × MarketSimulator :=
  let orderId := sim.nextOrderId
  let (action,sim) := sim.draw
  let side := if action.under 0.5 then Side.buy else Side.sell
  let (offset,sim) := sim.draw
  let priceTicks := sim.quote instr side (uniformInt 1 200 offset)
  let (quantity,sim) := sim.draw
  let qty := UInt32.ofNat (uniformInt 1 500 quantity).toNat
  let sim := { sim with nextOrderId := orderId + 1 }
  (.add ⟨header instr,orderId,side,priceTicks,qty⟩,
   sim.setBook instr (sim.liveOrders instr ++ [⟨orderId,side,priceTicks,qty⟩]))

/-- What follows the branches that leave `lo.qty` at `left`. -/
def writeBack (sim : MarketSimulator) (instr idx : Nat) (left : UInt32) : MarketSimulator :=
  let book := sim.liveOrders instr
  if left = 0 then sim.setBook instr (swapRemove book idx)
  else sim.setBook instr (book.modify idx fun lo => { lo with qty := left })

def partialQty (lo : LiveOrder) (d : Draw) : UInt32 := UInt32.ofNat (uniformInt 1 lo.qty.toNat d).toNat

def replaceOrder (sim : MarketSimulator) (instr idx : Nat) (lo : LiveOrder) : WireMsg × MarketSimulator :=
  let (offset,sim) := sim.draw
  let (quantity,sim) := sim.draw
  let newOrderId := sim.nextOrderId
  let priceTicks := sim.quote instr lo.side (uniformInt 1 200 offset)
  let qty := UInt32.ofNat (uniformInt 1 500 quantity).toNat
  let sim := { sim with nextOrderId := newOrderId + 1 }
  (.replace ⟨header instr,lo.orderId,newOrderId,priceTicks,qty⟩,
   sim.setBook instr (swapRemove (sim.liveOrders instr) idx ++ [⟨newOrderId,lo.side,priceTicks,qty⟩]))

def actOn (sim : MarketSimulator) (instr idx : Nat) (lo : LiveOrder) : WireMsg × MarketSimulator :=
  let (subRoll,sim) := sim.draw
  if subRoll.under 0.40 then
    let (d,sim) := sim.draw
    let execQty := partialQty lo d
    (.exec ⟨header instr,lo.orderId,execQty⟩,sim.writeBack instr idx (lo.qty - execQty))
  else if subRoll.under 0.65 then
    let (d,sim) := sim.draw
    let cancelQty := partialQty lo d
    (.cancel ⟨header instr,lo.orderId,cancelQty⟩,sim.writeBack instr idx (lo.qty - cancelQty))
  else if subRoll.under 0.85 then
    (.del ⟨header instr,lo.orderId⟩,sim.writeBack instr idx 0)
  else sim.replaceOrder instr idx lo

/-- `next_message` from the roll on, with the instrument drawn and drifted. -/
def emit (sim : MarketSimulator) (instr : Nat) : WireMsg × MarketSimulator :=
  let book := sim.liveOrders instr
  let (roll,sim) := sim.draw
  if book.isEmpty || roll.under 0.55 then sim.addOrder instr
  else
    let (pick,sim) := sim.draw
    let idx := (uniformInt 0 (book.length - 1) pick).toNat
    match book[idx]? with
    | none => (.zero,sim) -- `pick_dist` stays inside the vector
    | some lo => sim.actOn instr idx lo

def nextMessage (sim : MarketSimulator) : WireMsg × MarketSimulator :=
  let (d,sim) := sim.draw
  let instr := (uniformInt 0 (sim.numInstruments - 1) d).toNat
  (sim.drift instr).emit instr

def after (sim : MarketSimulator) : Nat → MarketSimulator
  | 0 => sim
  | k + 1 => (sim.after k).nextMessage.2

def message (sim : MarketSimulator) (k : Nat) : WireMsg := (sim.after k).nextMessage.1

def generated (sim : MarketSimulator) (calls : Nat) : List WireMsg := (List.range calls).map sim.message

theorem generated_succ (sim : MarketSimulator) (k : Nat) :
    sim.generated (k + 1) = sim.generated k ++ [sim.message k] := by
  simp [generated,List.range_succ]

end MarketSimulator
end MarketFeed
