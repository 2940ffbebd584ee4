import MarketFeed.OfflineBooks
import MarketFeed.LiveWait

/-! The whole of a live run: what the generator made, stamped, packed, sent, received, decoded and
dispatched, shows in the books as it shows in an offline replay of the same draws. -/
namespace MarketFeed
open MarketSimulator

/-- `publish_loop` stamps a message before it packs it. -/
def WireMsg.stamped (timestampNs : UInt64) : WireMsg → WireMsg
  | .zero => .zero
  | .add a => .add { a with header := { a.header with timestampNs := timestampNs } }
  | .exec e => .exec { e with header := { e.header with timestampNs := timestampNs } }
  | .cancel c => .cancel { c with header := { c.header with timestampNs := timestampNs } }
  | .del d => .del { d with header := { d.header with timestampNs := timestampNs } }
  | .replace r => .replace { r with header := { r.header with timestampNs := timestampNs } }

section Stamped
variable (m : WireMsg) (ns : UInt64)

theorem instrumentOf_stamped : instrumentOf (m.stamped ns) = instrumentOf m := by
  cases m <;> rfl

theorem orderIds_stamped : (m.stamped ns).orderIds = m.orderIds := by
  cases m <;> rfl

theorem stamped_zero : m.stamped ns = .zero ↔ m = .zero := by
  cases m <;> simp [WireMsg.stamped]

/-- No book looks at the time. -/
theorem applyToBook_stamped (book : OrderBook) (orders : OrderMap) :
    applyToBook (m.stamped ns) book orders = applyToBook m book orders := by
  cases m <;> rfl

end Stamped

namespace MarketSimulator

/-- What `publish_loop` sends, with its clock read before each message. -/
def published (sim : MarketSimulator) (clock : Nat → UInt64) (calls : Nat) : List WireMsg :=
  (List.range calls).map fun k => (sim.message k).stamped (clock k)

theorem published_succ (sim : MarketSimulator) (clock : Nat → UInt64) (k : Nat) :
    sim.published clock (k + 1) = sim.published clock k ++ [(sim.message k).stamped (clock k)] := by
  simp [published,List.range_succ]

theorem mem_published {sim : MarketSimulator} {clock : Nat → UInt64} {calls : Nat} {m : WireMsg} :
    m ∈ sim.published clock calls ↔ ∃ k < calls, (sim.message k).stamped (clock k) = m := by
  simp [published]

theorem replayed_published (sim : MarketSimulator) (clock : Nat → UInt64) (reference : Nat → Int64) (i calls : Nat) :
    replayed reference (sim.published clock calls) i = replayed reference (sim.generated calls) i := by
  induction calls with
  | zero => rfl
  | succ k ih =>
    rw [published_succ,generated_succ,replayed_concat,replayed_concat,ih,instrumentOf_stamped]
    rw [← applyToBook_eq,← applyToBook_eq,applyToBook_stamped]

theorem published_known {sim : MarketSimulator} (clock : Nat → UInt64) {calls n : Nat}
    (known : ∀ m ∈ sim.generated calls, instrumentOf m < n ∧ m ≠ .zero) :
    ∀ m ∈ sim.published clock calls, instrumentOf m < n ∧ m ≠ .zero := by
  intro m member
  obtain ⟨k,before,rfl⟩ := mem_published.mp member
  obtain ⟨inside,typed⟩ := known (sim.message k) (List.mem_map_of_mem (List.mem_range.mpr before))
  rw [instrumentOf_stamped,ne_eq,stamped_zero]
  exact ⟨inside,typed⟩

theorem published_owned {sim : MarketSimulator} (clock : Nat → UInt64) {calls : Nat}
    (owned : Replay.OneInstrument (sim.generated calls)) : Replay.OneInstrument (sim.published clock calls) := by
  intro m member other member' id carried carried'
  obtain ⟨k,before,rfl⟩ := mem_published.mp member
  obtain ⟨k',before',rfl⟩ := mem_published.mp member'
  rw [orderIds_stamped] at carried carried'
  rw [instrumentOf_stamped,instrumentOf_stamped]
  exact owned _ (List.mem_map_of_mem (List.mem_range.mpr before)) _ (List.mem_map_of_mem (List.mem_range.mpr before')) id
    carried carried'

end MarketSimulator

namespace LiveFeed
open OfflineBooks

/-- The feed's `price_ref_` has the seed of its publisher's generator: the same draws. -/
def origin (rng : Nat → Draw) (clock : Nat → UInt64) (numMessages numShards : Nat) : LiveFeed :=
  init ((MarketSimulator.construct rng numInstruments).published clock numMessages) numShards (references rng)

/-- What the bindings read of the feed: `price_ref_` is never drawn from again. -/
def books (f : LiveFeed) (rng : Nat → Draw) : Books := ⟨f.pool.toNormalizer,prices rng⟩

theorem books_refPrice (f : LiveFeed) (rng : Nat → Draw) : (f.books rng).refPrice = prices rng := by
  simp only [books]

section Run
variable {rng : Nat → Draw} {clock : Nat → UInt64} {numMessages numShards : Nat} (positive : 1 ≤ numShards)
  {actions : List Action} (lossless : ∀ action ∈ actions, Lossless action)
  {final : LiveFeed} (ran : (origin rng clock numMessages numShards).run actions = some final)
  (returned : final.pool.drain = .returned) (quiet : (origin rng clock numMessages numShards).Along QuietBreak actions)
  (dispatched : (origin rng clock numMessages numShards).Along RoomyDispatch actions)
include lossless ran returned quiet dispatched

/-- Every message sent was taken by its queue, in the order sent. -/
theorem run_delivers (typed : ∀ m ∈ (MarketSimulator.construct rng numInstruments).published clock numMessages, m ≠ .zero) :
    ∃ pending, Delivers ((MarketSimulator.construct rng numInstruments).published clock numMessages)
      (Normalizer.ready numShards (references rng)) final pending
      ((MarketSimulator.construct rng numInstruments).published clock numMessages) := by
  obtain ⟨pending,accepted,delivers,_,along⟩ := delivers_run actions
    (delivers_init _ typed numShards (references rng)) ran
  obtain ⟨_,_,accounted⟩ := accounted_run actions (accounted_init _ typed numShards (references rng)) lossless ran
  have left := delivers.joined (by rw [returned]; exact DrainPc.noConfusion)
  have ended := accounted.done.mp (accounted.left left)
  have everything := (received_iff_quiet _ typed numShards (references rng) actions lossless final ran ended left).mpr quiet
  have nothing : final.lost accepted = 0 := along.mp dispatched
  have shorter := delivers.kept.length_le
  have all : accepted = final.decoded := delivers.kept.eq_of_length_le (by unfold lost at nothing; omega)
  rw [all,everything.2.2] at delivers
  exact ⟨pending,delivers⟩

include positive in
theorem run_book (short : numMessages < 2^64) (i : Nat) (inside : i < numInstruments) :
    final.pool.bookForInstrument i = some (replayed (references rng) (messages rng numMessages) i).1 := by
  have some_ : 1 ≤ numInstruments := by decide
  have few : numInstruments ≤ 65536 := by decide
  have known := published_known clock (generated_known rng numInstruments some_ few numMessages short)
  have owned := published_owned clock (generated_owned rng numInstruments some_ few numMessages short)
  obtain ⟨pending,delivers⟩ := run_delivers lossless ran returned quiet dispatched fun m member => (known m member).2
  have priced := Normalizer.priced_ready numShards (references rng)
  have shard : ((Normalizer.ready numShards (references rng)).instrumentToShard i).toNat < numShards := by
    rw [priced.addressed.shard i inside]
    exact Nat.mod_lt _ positive
  rw [Replay.shared_book priced delivers.sound (fun m member => (known m member).1) owned i inside
    (returned_applied positive delivers returned _ shard)]
  exact congrArg (fun replayed => some replayed.1) (replayed_published _ clock (references rng) i numMessages)

include positive in
/-- What is read of a feed after its wait is what the generator keeps live, and what is read of an
offline replay of the same draws by any number of shards. -/
theorem live_shows_generator (roomy : Roomy numMessages) :
    (∀ instrument : Int32, 0 ≤ instrument.toInt → instrument.toInt < numInstruments →
      ∃ b, Accessor.Shows (final.books rng) instrument (references rng instrument.toInt.toNat) b ∧
        Images b (live rng numMessages instrument.toInt.toNat)) ∧
    ∀ otherShards ≥ 1, ∀ o, Constructs numMessages otherShards rng o → Accessor.Same (final.books rng) o := by
  have short : numMessages < 2^64 := by unfold Roomy at roomy; omega
  have book := run_book positive lossless ran returned quiet dispatched short
  refine ⟨fun instrument low high => ?_,fun otherShards positive' o constructs => ?_⟩
  · have bound : instrument.toInt.toNat < numInstruments := by omega
    have images := generated_images rng numInstruments (by decide) (by decide) numMessages roomy _ bound
    have sized : (final.books rng).refPrice.length = numInstruments := by rw [books_refPrice,prices_length]
    have priced := prices_known rng _ bound
    rw [← books_refPrice final rng] at priced
    exact ⟨_,Accessor.shows_book sized low high priced (book _ bound) images.top,images⟩
  · refine Accessor.same_books ((books_refPrice final rng).trans (constructed_prices constructs).symm) fun i inside => ?_
    exact (book i inside).trans (constructed_book positive' roomy constructs i inside).symm

end Run

theorem quiet_closable : Closable QuietBreak where
  publisher _ contra := by cases contra
  receiver _ awake _ timedOut := absurd timedOut awake
  stops _ empty _ _ _ _ := empty
  worker _ _ contra := by cases contra
  main _ contra := by cases contra

theorem live_shows_generator_mixed : ∃ final actions,
    (origin mixed (fun k => UInt64.ofNat k) 16 2).run actions = some final ∧
    ∃ b, Accessor.Shows (final.books mixed) 153 (references mixed 153) b ∧
      Images b [⟨6,.sell,36221,30⟩,⟨10,.buy,36039,251⟩] := by
  have known := published_known (fun k => UInt64.ofNat k)
    (generated_known mixed numInstruments (by decide) (by decide) 16 (by decide))
  have typed := fun m member => (known m member).2
  obtain ⟨final,⟨actions,lossless,quiet,ran⟩,returned⟩ := init_returns typed 2 (references mixed) quiet_closable
  have dispatched := short_run_roomy actions (by simp [published,kQueueCapacity]) (accounted_init _ typed 2 _)
    (delivers_init _ typed 2 _) lossless ran
  obtain ⟨b,shown,images⟩ := (live_shows_generator (by omega) lossless ran returned quiet dispatched
    (by unfold Roomy kHalf; decide)).1 153 (by decide) (by decide)
  exact ⟨final,actions,ran,b,shown,live_mixed ▸ images⟩

end LiveFeed
end MarketFeed
