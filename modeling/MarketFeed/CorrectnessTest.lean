import MarketFeed.OfflineBooks
import MarketFeed.WeakSimulation

/-! `correctness_test`: one generated stream through a normalizer of one shard and through one of
eight, both over their ring buffers and with their memory orders, and the two compared book by book. -/
namespace MarketFeed.CorrectnessTest
open OrderBook MarketSimulator Relation

structure Report where
  mismatches : Nat := 0
  levelsChecked : Nat := 0
  deriving DecidableEq, Repr

def Report.count (r : Report) (differs : Bool) : Report :=
  if differs then { r with mismatches := r.mismatches + 1 } else r

def bidDiffers (ref test : OrderBook) : Bool :=
  ref.hasBid != test.hasBid || (ref.hasBid && ref.bestBidTicks != test.bestBidTicks) ||
    (ref.hasBid && ref.bestBidQty != test.bestBidQty)

def askDiffers (ref test : OrderBook) : Bool :=
  ref.hasAsk != test.hasAsk || (ref.hasAsk && ref.bestAskTicks != test.bestAskTicks) ||
    (ref.hasAsk && ref.bestAskQty != test.bestAskQty)

def levelDiffers (ref test : OrderBook) (side : Side) (p : Int64) : Bool := ref.qtyAt side p != test.qtyAt side p

/-- From `ref_price - 300` to `ref_price + 300`. -/
def prices (refPrice : Int64) : List Int64 := (List.range 601).map fun k => refPrice - 300 + Int64.ofNat k

def checkLevel (ref test : OrderBook) (r : Report) (p : Int64) : Report :=
  (({ r with levelsChecked := r.levelsChecked + 1 }).count (levelDiffers ref test .buy p)).count
    (levelDiffers ref test .sell p)

def checkBook (ref test : OrderBook) (refPrice : Int64) (r : Report) : Report :=
  (prices refPrice).foldl (checkLevel ref test) ((r.count (bidDiffers ref test)).count (askDiffers ref test))

/-- The loop over the instruments; `none` is a read outside the tables. -/
def compare (reference sharded : Normalizer) (refPrice : Nat → Int64) : Option Report :=
  (List.range numInstruments).foldlM (fun r i => do
    let ref ← reference.bookForInstrument i
    let test ← sharded.bookForInstrument i
    return checkBook ref test (refPrice i) r) {}

def Report.passes (r : Report) : Bool := r.mismatches = 0

section Exact

theorem count_mismatches (r : Report) (differs : Bool) :
    (r.count differs).mismatches = r.mismatches + if differs then 1 else 0 := by
  cases differs <;> rfl

theorem count_levels (r : Report) (differs : Bool) : (r.count differs).levelsChecked = r.levelsChecked := by
  cases differs <;> rfl

variable (ref test : OrderBook)

/-- Two books agree as far as the test looks. -/
structure Alike (refPrice : Int64) : Prop where
  bid : bidDiffers ref test = false
  ask : askDiffers ref test = false
  levels : ∀ p ∈ prices refPrice, ∀ side, levelDiffers ref test side p = false

theorem checkLevel_levels (r : Report) (p : Int64) : (checkLevel ref test r p).levelsChecked = r.levelsChecked + 1 := by
  simp only [checkLevel,count_levels]

theorem checkLevel_mismatches (r : Report) (p : Int64) : (checkLevel ref test r p).mismatches = 0 ↔
    r.mismatches = 0 ∧ ∀ side, levelDiffers ref test side p = false := by
  simp only [checkLevel,count_mismatches]
  refine ⟨fun none => ?_,fun ⟨clean,same⟩ => by simp [clean,same]⟩
  refine ⟨by omega,fun side => ?_⟩
  cases side with
  | buy => cases differs : levelDiffers ref test .buy p <;> simp [differs] at none ⊢
  | sell => cases differs : levelDiffers ref test .sell p <;> simp [differs] at none ⊢

theorem checkLevels (ps : List Int64) (r : Report) :
    (ps.foldl (checkLevel ref test) r).levelsChecked = r.levelsChecked + ps.length ∧
      ((ps.foldl (checkLevel ref test) r).mismatches = 0 ↔
        r.mismatches = 0 ∧ ∀ p ∈ ps, ∀ side, levelDiffers ref test side p = false) := by
  induction ps generalizing r with
  | nil => simp
  | cons p ps ih =>
    obtain ⟨levels,none⟩ := ih (checkLevel ref test r p)
    rw [List.foldl_cons,levels,none,checkLevel_levels,checkLevel_mismatches]
    refine ⟨by simp; omega,?_⟩
    simp [and_assoc]

theorem checkBook_exact (refPrice : Int64) (r : Report) :
    (checkBook ref test refPrice r).levelsChecked = r.levelsChecked + 601 ∧
      ((checkBook ref test refPrice r).mismatches = 0 ↔ r.mismatches = 0 ∧ Alike ref test refPrice) := by
  obtain ⟨levels,none⟩ := checkLevels ref test (prices refPrice) ((r.count (bidDiffers ref test)).count (askDiffers ref test))
  refine ⟨by simpa [checkBook,count_levels,prices] using levels,?_⟩
  rw [checkBook,none,count_mismatches,count_mismatches]
  refine ⟨fun ⟨before,same⟩ => ?_,fun ⟨before,alike⟩ => ⟨by simp [before,alike.bid,alike.ask],alike.levels⟩⟩
  refine ⟨by omega,?_,?_,same⟩
  · cases differs : bidDiffers ref test <;> simp [differs] at before ⊢
  · cases differs : askDiffers ref test <;> simp [differs] at before ⊢

theorem compare_exact (reference sharded : Normalizer) (refPrice : Nat → Int64) (n : Nat) (r report : Report)
    (compared : (List.range n).foldlM (fun r i => do
      let ref ← reference.bookForInstrument i
      let test ← sharded.bookForInstrument i
      return checkBook ref test (refPrice i) r) r = some report) :
    report.levelsChecked = r.levelsChecked + 601 * n ∧ (report.mismatches = 0 ↔ r.mismatches = 0 ∧ ∀ i < n, ∃ ref test,
      reference.bookForInstrument i = some ref ∧ sharded.bookForInstrument i = some test ∧
        Alike ref test (refPrice i)) := by
  induction n generalizing report with
  | zero =>
    cases compared
    simp
  | succ n ih =>
    rw [List.range_succ,List.foldlM_append] at compared
    obtain ⟨middle,before,last⟩ := Option.bind_eq_some_iff.mp compared
    obtain ⟨levels,none⟩ := ih middle before
    simp only [List.foldlM_cons,List.foldlM_nil] at last
    cases left : reference.bookForInstrument n with
    | none => simp [left] at last
    | some ref =>
      cases right : sharded.bookForInstrument n with
      | none => simp [left,right] at last
      | some test =>
        obtain rfl : checkBook ref test (refPrice n) middle = report := by simpa [left,right] using last
        obtain ⟨checked,exact_⟩ := checkBook_exact ref test (refPrice n) middle
        refine ⟨by rw [checked,levels,Nat.mul_succ,Nat.add_assoc],?_⟩
        rw [exact_,none,and_assoc]
        refine and_congr_right fun _ => ⟨?_,?_⟩
        · intro ⟨earlier,alike⟩ i inside
          rcases Nat.lt_succ_iff_lt_or_eq.mp inside with earlier_ | rfl
          · exact earlier i earlier_
          · exact ⟨ref,test,left,right,alike⟩
        · intro all
          refine ⟨fun i inside => all i (by omega),?_⟩
          obtain ⟨ref',test',left',right',alike⟩ := all n (by omega)
          cases left.symm.trans left'
          cases right.symm.trans right'
          exact alike

end Exact

theorem alike_self (b : OrderBook) (refPrice : Int64) : Alike b b refPrice := by
  refine ⟨?_,?_,fun p _ side => ?_⟩
  · simp [bidDiffers]
  · simp [askDiffers]
  · simp [levelDiffers]

theorem compare_total (reference sharded : Normalizer) (refPrice : Nat → Int64) (n : Nat) (r : Report)
    (left : ∀ i < n, ∃ b, reference.bookForInstrument i = some b)
    (right : ∀ i < n, ∃ b, sharded.bookForInstrument i = some b) : ∃ report, (List.range n).foldlM (fun r i => do
      let ref ← reference.bookForInstrument i
      let test ← sharded.bookForInstrument i
      return checkBook ref test (refPrice i) r) r = some report := by
  induction n with
  | zero => exact ⟨r,rfl⟩
  | succ n ih =>
    obtain ⟨middle,before⟩ := ih (fun i inside => left i (by omega)) fun i inside => right i (by omega)
    obtain ⟨ref,left⟩ := left n (by omega)
    obtain ⟨test,right⟩ := right n (by omega)
    refine ⟨checkBook ref test (refPrice n) middle,?_⟩
    rw [List.range_succ,List.foldlM_append,before]
    simp [left,right]

section Program
variable (rng : Nat → Draw) (buffer : UInt64 → QueueItem) (numMessages : UInt64)

/-- `sim.reference_price_ticks(i)`, which the program reads when the stream has been generated. -/
def references : Nat → Int64 := ((MarketSimulator.construct rng numInstruments).after numMessages.toNat).refPrice

def messages : List WireMsg := (MarketSimulator.construct rng numInstruments).generated numMessages.toNat

/-- What `run_normalizer` can leave, one normalizer for each schedule of its threads. -/
def Ran (numShards : Nat) (nz : Normalizer) : Prop :=
  ∃ c, ReflTransGen WeakReplay.Steps
    (WeakReplay.init numShards (references rng numMessages) buffer (messages rng numMessages)) c ∧
    c.main = .returned ∧ c.normalizer = nz

/-- What the program can print. -/
def Prints (report : Report) : Prop :=
  ∃ reference sharded, Ran rng buffer numMessages 1 reference ∧ Ran rng buffer numMessages 8 sharded ∧
    compare reference sharded (references rng numMessages) = some report

variable {rng buffer numMessages}

theorem known : ∀ m ∈ messages rng numMessages, instrumentOf m < numInstruments := fun m member =>
  (generated_known rng numInstruments (by decide) (by decide) _ numMessages.toNat_lt m member).1

theorem owned : Replay.OneInstrument (messages rng numMessages) :=
  generated_owned rng numInstruments (by decide) (by decide) _ numMessages.toNat_lt

theorem ran_books {numShards : Nat} {nz : Normalizer} (positive : 1 ≤ numShards)
    (ran : Ran rng buffer numMessages numShards nz) (i : Nat) (inside : i < numInstruments) :
    nz.bookForInstrument i = some (Replay.sequential (references rng numMessages) (messages rng numMessages) i) := by
  obtain ⟨c,run,returned,rfl⟩ := ran
  exact (WeakReplay.sound_returned positive known (WeakReplay.sound_run run) owned returned).2.2.2 i inside

theorem ran_some {numShards : Nat} (positive : 1 ≤ numShards) : ∃ nz, Ran rng buffer numMessages numShards nz := by
  have known : ∀ m ∈ messages rng numMessages, instrumentOf m < numInstruments := known
  obtain ⟨c,run,returned⟩ := WeakReplay.sound_can_return positive known (WeakReplay.sound_run .refl)
  exact ⟨_,c,run,returned,rfl⟩

/-- Whatever the generator draws and the threads do, the program can end, and where it ends it passes,
having looked at every level it means to look at; and on other normalizers it would pass where they
are alike, and only there. -/
theorem correctness_passes (rng : Nat → Draw) (buffer : UInt64 → QueueItem) (numMessages : UInt64) :
    (∃ report, Prints rng buffer numMessages report) ∧
    (∀ report, Prints rng buffer numMessages report → report.passes = true ∧ report.levelsChecked = 601 * numInstruments) ∧
    ∀ reference sharded refPrice report, compare reference sharded refPrice = some report →
      (report.passes = true ↔ ∀ i < numInstruments, ∃ ref test, reference.bookForInstrument i = some ref ∧
        sharded.bookForInstrument i = some test ∧ Alike ref test (refPrice i)) := by
  refine ⟨?_,?_,?_⟩
  · obtain ⟨reference,left⟩ : ∃ nz, Ran rng buffer numMessages 1 nz := ran_some (by decide)
    obtain ⟨sharded,right⟩ : ∃ nz, Ran rng buffer numMessages 8 nz := ran_some (by decide)
    obtain ⟨report,compared⟩ := compare_total reference sharded (references rng numMessages) numInstruments {}
      (fun i inside => ⟨_,ran_books (by decide) left i inside⟩) fun i inside => ⟨_,ran_books (by decide) right i inside⟩
    exact ⟨report,reference,sharded,left,right,compared⟩
  · intro report prints
    obtain ⟨reference,sharded,left,right,compared⟩ := prints
    obtain ⟨levels,none⟩ := compare_exact _ _ _ _ _ _ compared
    refine ⟨decide_eq_true (none.mpr ⟨rfl,fun i inside => ?_⟩),by rw [levels,Nat.zero_add]⟩
    exact ⟨_,_,ran_books (by decide) left i inside,ran_books (by decide) right i inside,alike_self _ _⟩
  · intro reference sharded refPrice report compared
    obtain ⟨_,none⟩ := compare_exact _ _ _ _ _ _ compared
    exact decide_eq_true_iff.trans (none.trans (and_iff_right rfl))

end Program

end MarketFeed.CorrectnessTest
