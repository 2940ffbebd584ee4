import MarketFeed.Simulator

/-! What one call of the generator can do, said once: up to the order of the live list a
message adds, lessens, removes or exchanges one order of the instrument it carries. -/
namespace MarketFeed.MarketSimulator
open SwapRemove

def Around (ref : Int64) (side : Side) (price : Int64) : Prop :=
  ∃ off : Int, 1 ≤ off ∧ off ≤ 200 ∧ price = ref + Int64.ofInt (if side = .buy then -off else off)

def leftover (lo : LiveOrder) (qty : UInt32) : List LiveOrder :=
  if lo.qty - qty = 0 then [] else [{ lo with qty := lo.qty - qty }]

inductive Emits (next : UInt64) (ref : Int64) (live : List LiveOrder) : WireMsg → List LiveOrder → Prop
  | add (header side price qty live') (quantity : qty ≠ 0) (around : Around ref side price)
      (lists : live'.Perm (⟨next,side,price,qty⟩ :: live)) :
      Emits next ref live (.add ⟨header,next,side,price,qty⟩) live'
  | exec (header lo rest qty live') (rests : live.Perm (lo :: rest)) (quantity : qty ≠ 0)
      (enough : qty ≤ lo.qty) (lists : live'.Perm (leftover lo qty ++ rest)) :
      Emits next ref live (.exec ⟨header,lo.orderId,qty⟩) live'
  | cancel (header lo rest qty live') (rests : live.Perm (lo :: rest)) (quantity : qty ≠ 0)
      (enough : qty ≤ lo.qty) (lists : live'.Perm (leftover lo qty ++ rest)) :
      Emits next ref live (.cancel ⟨header,lo.orderId,qty⟩) live'
  | del (header lo rest live') (rests : live.Perm (lo :: rest)) (lists : live'.Perm rest) :
      Emits next ref live (.del ⟨header,lo.orderId⟩) live'
  | replace (header lo rest price qty live') (rests : live.Perm (lo :: rest)) (quantity : qty ≠ 0)
      (around : Around ref lo.side price) (lists : live'.Perm (⟨next,lo.side,price,qty⟩ :: rest)) :
      Emits next ref live (.replace ⟨header,lo.orderId,next,price,qty⟩) live'

def introduced : WireMsg → List UInt64
  | .add a => [a.orderId]
  | .replace r => [r.newOrderId]
  | _ => []

structure Writes (sim : MarketSimulator) (i : Nat) (m : WireMsg) (next : MarketSimulator) : Prop where
  header : m.header = header i
  numInstruments : next.numInstruments = sim.numInstruments
  refPrice : next.refPrice = sim.refPrice
  others : ∀ j, j ≠ i → next.liveOrders j = sim.liveOrders j
  emits : Emits sim.nextOrderId (sim.refPrice i) (sim.liveOrders i) m (next.liveOrders i)
  nextOrderId : next.nextOrderId = sim.nextOrderId + UInt64.ofNat (introduced m).length

theorem uniformQty (a b : Nat) (ordered : a ≤ b) (fits : b < 2^32) (d : Draw) :
    a ≤ (UInt32.ofNat (uniformInt a b d).toNat).toNat ∧ (UInt32.ofNat (uniformInt a b d).toNat).toNat ≤ b := by
  obtain ⟨low,high⟩ := uniformInt_mem a b (by exact_mod_cast ordered) d
  have exact_ : (UInt32.ofNat (uniformInt a b d).toNat).toNat = (uniformInt a b d).toNat :=
    UInt32.toNat_ofNat_of_lt' (by change _ < 2^32; omega)
  omega

theorem introducedQty_nonzero (d : Draw) : UInt32.ofNat (uniformInt 1 500 d).toNat ≠ 0 := by
  intro contra
  have range := uniformQty 1 500 (by omega) (by omega) d
  rw [Nat.cast_one,Nat.cast_ofNat,contra] at range
  exact Nat.not_succ_le_zero 0 range.1

theorem partialQty_range (lo : LiveOrder) (d : Draw) (nonzero : lo.qty ≠ 0) :
    partialQty lo d ≠ 0 ∧ partialQty lo d ≤ lo.qty := by
  have positive : 1 ≤ lo.qty.toNat := Nat.pos_of_ne_zero fun contra =>
    nonzero (UInt32.toNat_inj.mp contra)
  obtain ⟨low,high⟩ := uniformQty 1 lo.qty.toNat positive lo.qty.toNat_lt d
  refine ⟨fun contra => ?_,UInt32.le_iff_toNat_le.mpr high⟩
  unfold partialQty at contra
  rw [Nat.cast_one,contra] at low
  exact Nat.not_succ_le_zero 0 low

theorem quote_around (sim : MarketSimulator) (instr : Nat) (side : Side) (d : Draw) :
    Around (sim.refPrice instr) side (sim.quote instr side (uniformInt 1 200 d)) := by
  obtain ⟨low,high⟩ := uniformInt_mem 1 200 (by omega) d
  exact ⟨_,low,high,rfl⟩

/-! The draws still to come, `rng`, are no part of what a message does. -/

theorem addOrder_writes (sim : MarketSimulator) (rng : Nat → Draw) (instr : Nat) :
    Writes sim instr (addOrder { sim with rng := rng } instr).1 (addOrder { sim with rng := rng } instr).2 := by
  refine ⟨rfl,rfl,rfl,?_,?_,rfl⟩
  · intro j other
    exact Function.update_of_ne other _ _
  · simp only [addOrder,setBook,Function.update_self]
    exact .add _ _ _ _ _ (introducedQty_nonzero _) (quote_around sim instr _ _) (List.perm_append_singleton _ _)

section Act
variable (sim : MarketSimulator) (rng : Nat → Draw) (instr idx : Nat)

theorem writeBack_writes (left : UInt32) (m : WireMsg) (carried : m.header = header instr)
    (plain : introduced m = [])
    (emits : Emits sim.nextOrderId (sim.refPrice instr) (sim.liveOrders instr) m
      ((writeBack { sim with rng := rng } instr idx left).liveOrders instr)) :
    Writes sim instr m (writeBack { sim with rng := rng } instr idx left) := by
  refine ⟨carried,?_,?_,?_,emits,?_⟩
  · unfold writeBack
    split <;> rfl
  · unfold writeBack
    split <;> rfl
  · intro j other
    unfold writeBack
    split <;> exact Function.update_of_ne other _ _
  · rw [plain]
    unfold writeBack
    split <;> simp [setBook]

variable {sim instr idx} {lo : LiveOrder} (found : (sim.liveOrders instr)[idx]? = some lo)
include found

theorem found_perm : (sim.liveOrders instr).Perm (lo :: (sim.liveOrders instr).eraseIdx idx) := by
  obtain ⟨inside,rfl⟩ := List.getElem?_eq_some_iff.mp found
  exact (List.getElem_cons_eraseIdx_perm inside).symm

theorem removed_perm :
    (swapRemove (sim.liveOrders instr) idx).Perm ((sim.liveOrders instr).eraseIdx idx) := by
  obtain ⟨inside,_⟩ := List.getElem?_eq_some_iff.mp found
  exact swapRemove_perm _ _ inside

theorem writeBack_perm (left : UInt32) : ((writeBack { sim with rng := rng } instr idx left).liveOrders instr).Perm
    ((if left = 0 then [] else [{ lo with qty := left }]) ++ (sim.liveOrders instr).eraseIdx idx) := by
  unfold writeBack
  split
  · simp only [setBook,Function.update_self]
    exact removed_perm found
  · obtain ⟨inside,rfl⟩ := List.getElem?_eq_some_iff.mp found
    simp only [setBook,Function.update_self]
    exact modify_perm _ _ _ inside

theorem replaceOrder_writes : Writes sim instr (replaceOrder { sim with rng := rng } instr idx lo).1
    (replaceOrder { sim with rng := rng } instr idx lo).2 := by
  refine ⟨rfl,rfl,rfl,?_,?_,rfl⟩
  · intro j other
    exact Function.update_of_ne other _ _
  · simp only [replaceOrder,setBook,Function.update_self]
    refine .replace _ lo _ _ _ _ (found_perm found) (introducedQty_nonzero _) (quote_around sim instr _ _) ?_
    exact (List.perm_append_singleton _ _).trans ((removed_perm found).cons _)

theorem actOn_writes (nonzero : lo.qty ≠ 0) : Writes sim instr (actOn { sim with rng := rng } instr idx lo).1
    (actOn { sim with rng := rng } instr idx lo).2 := by
  obtain ⟨quantity,enough⟩ := partialQty_range lo (rng 1) nonzero
  simp only [actOn]
  split
  · exact writeBack_writes _ _ _ _ _ _ rfl rfl
      (.exec _ lo _ _ _ (found_perm found) quantity enough (writeBack_perm _ found _))
  · split
    · exact writeBack_writes _ _ _ _ _ _ rfl rfl
        (.cancel _ lo _ _ _ (found_perm found) quantity enough (writeBack_perm _ found _))
    · split
      · exact writeBack_writes _ _ _ _ _ _ rfl rfl (.del _ lo _ _ (found_perm found) (writeBack_perm _ found 0))
      · exact replaceOrder_writes _ found

end Act

theorem emit_writes (sim : MarketSimulator) (rng : Nat → Draw) (instr : Nat)
    (nonzero : ∀ lo ∈ sim.liveOrders instr, lo.qty ≠ 0) :
    Writes sim instr (emit { sim with rng := rng } instr).1 (emit { sim with rng := rng } instr).2 := by
  simp only [emit]
  split
  next => exact addOrder_writes _ _ _
  next picked =>
    simp only [Bool.or_eq_true,not_or,List.isEmpty_iff] at picked
    have held := List.length_pos_of_ne_nil picked.1
    obtain ⟨low,high⟩ := uniformInt_mem 0 ((sim.liveOrders instr).length - 1) (by omega) (rng 1)
    split
    next missing =>
      have beyond := List.getElem?_eq_none_iff.mp missing
      simp only [Nat.zero_add] at beyond
      omega
    next lo found => exact actOn_writes _ found (nonzero lo (List.mem_of_getElem? found))

def drifted (sim : MarketSimulator) (i : Nat) (step : Int) : MarketSimulator :=
  { sim with refPrice := Function.update sim.refPrice i (sim.refPrice i + Int64.ofInt step) }

theorem drifted_refPrice (sim : MarketSimulator) (i : Nat) (step : Int) :
    (sim.drifted i step).refPrice i = sim.refPrice i + Int64.ofInt step := Function.update_self ..

theorem drift_drifted (sim : MarketSimulator) (i : Nat) :
    ∃ step : Int, (-3 ≤ step ∧ step ≤ 3) ∧ ∃ rng, sim.drift i = { sim.drifted i step with rng := rng } := by
  simp only [drift]
  split
  · exact ⟨_,uniformInt_mem (-3) 3 (by omega) (sim.rng 1),_,rfl⟩
  · exact ⟨0,by omega,fun n => sim.rng (n + 1),by simp [drifted]⟩

theorem nextMessage_writes (sim : MarketSimulator) (positive : 1 ≤ sim.numInstruments)
    (nonzero : ∀ i < sim.numInstruments, ∀ lo ∈ sim.liveOrders i, lo.qty ≠ 0) :
    let i := (uniformInt 0 (sim.numInstruments - 1) (sim.rng 0)).toNat
    i < sim.numInstruments ∧ ∃ step : Int, (-3 ≤ step ∧ step ≤ 3) ∧
      Writes (sim.drifted i step) i sim.nextMessage.1 sim.nextMessage.2 := by
  intro i
  have drawn := uniformInt_mem 0 (sim.numInstruments - 1) (by omega) (sim.rng 0)
  have inside : i < sim.numInstruments := by omega
  obtain ⟨step,small,rng,moved⟩ := drift_drifted { sim with rng := fun n => sim.rng (n + 1) } i
  refine ⟨inside,step,small,?_⟩
  have same : sim.nextMessage = emit { sim.drifted i step with rng := rng } i := congrArg (emit · i) moved
  rw [same]
  exact emit_writes (sim.drifted i step) rng i (nonzero i inside)

end MarketFeed.MarketSimulator
