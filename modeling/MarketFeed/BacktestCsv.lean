import MarketFeed.BacktestResults
import MarketFeed.Library.Csv
import MarketFeed.Library.Decimal

/-! The table of finished orders: the command line tool writes it, the analysis script reads it
back. Fill rates, P&L and Sharpe ratios are floating point and left out. -/
namespace MarketFeed.BacktestCli
open BacktestEngine Decimal

def outcomeName : Outcome → List Char
  | .filled => "FILLED".toList
  | .canceled => "CANCELED".toList
  | .resting => "RESTING".toList

def columns : List (List Char) :=
  ["id".toList,"pair_id".toList,"model".toList,"side".toList,"price_ticks".toList,"qty".toList,
    "placed_msg_idx".toList,"resolved_msg_idx".toList,"outcome".toList,"bid_at_place".toList,
    "ask_at_place".toList,"bid_at_fill".toList,"ask_at_fill".toList,"ahead_qty_at_place".toList]

def modelName (isNaive : Bool) : List Char := if isNaive then "naive".toList else "queue".toList

def fields (r : SimOrderResult) : List (List Char) :=
  [unsigned r.id.toNat,unsigned r.pairId.toNat,modelName r.isNaive,[if r.side = .buy then 'B' else 'S'],
    signed r.priceTicks.toInt,unsigned r.qty.toNat,unsigned r.placedMsgIdx,unsigned r.resolvedMsgIdx,
    outcomeName r.outcome,signed r.bidAtPlace.toInt,signed r.askAtPlace.toInt,signed r.bidAtFill.toInt,
    signed r.askAtFill.toInt,unsigned r.aheadQtyAtPlace.toNat]

def file (results : List SimOrderResult) : List Char := Csv.write (columns :: results.map fields)

/-- The counters of one model. -/
structure Counters where
  total : Nat := 0
  filled : Nat := 0
  canceled : Nat := 0
  resting : Nat := 0
  deriving DecidableEq, Repr

def Counters.count (t : Counters) : Outcome → Counters
  | .filled => { t with total := t.total + 1, filled := t.filled + 1 }
  | .canceled => { t with total := t.total + 1, canceled := t.canceled + 1 }
  | .resting => { t with total := t.total + 1, resting := t.resting + 1 }

/-- The summary the tool prints, the naive model first. -/
def summary (results : List SimOrderResult) : Counters × Counters :=
  results.foldl (fun t r =>
    if r.isNaive then (t.1.count r.outcome,t.2) else (t.1,t.2.count r.outcome)) ({},{})

end MarketFeed.BacktestCli

namespace MarketFeed.AnalyzeBacktest
open BacktestEngine BacktestCli Decimal Csv

/-- `int` of a cell: an error when the column is missing or holds no integer. -/
def int (r : Record) (column : String) : Option Int :=
  (r.get column.toList).bind fun cell => cell.bind parseInt

/-- One model's numbers; an order with a spread to capture counts with its spread in ticks and
its quantity. -/
structure ModelReport where
  total : Nat
  filled : Nat
  crossed : Nat
  valid : List (Int × Int)
  deriving DecidableEq, Repr

def isFilled (r : Record) : Option Bool :=
  (r.get "outcome".toList).map fun cell => decide (cell = some "FILLED".toList)

def isCrossed (r : Record) : Option Bool := do
  let bid ← int r "bid_at_fill"
  let ask ← int r "ask_at_fill"
  return decide (bid ≥ ask)

def isValid (r : Record) : Option Bool := do
  let bid ← int r "bid_at_fill"
  let ask ← int r "ask_at_fill"
  return decide (bid < ask)

def captured (r : Record) : Option (Int × Int) := do
  let qty ← int r "qty"
  let ask ← int r "ask_at_fill"
  let bid ← int r "bid_at_fill"
  return (ask - bid,qty)

def report (rows : List Record) : Option ModelReport := do
  let filled ← rows.filterM isFilled
  let crossed ← filled.filterM isCrossed
  let valid ← filled.filterM isValid
  let pnls ← valid.mapM captured
  return ⟨rows.length,filled.length,crossed.length,pnls⟩

/-- `rows[r["model"]].append(r)` -/
def sortRow (rows : List Record × List Record) (r : Record) : Option (List Record × List Record) :=
  (r.get "model".toList).bind fun cell =>
    if cell = some "naive".toList then some (rows.1 ++ [r],rows.2)
    else if cell = some "queue".toList then some (rows.1,rows.2 ++ [r])
    else none

/-- The reports on the naive and on the queue-tracked model; an error of the script is `none`. -/
def analyze (text : List Char) : Option (ModelReport × ModelReport) := do
  let table ← dictReader text
  let rows ← table.foldlM sortRow ([],[])
  let naive ← report rows.1
  let queue ← report rows.2
  return (naive,queue)

/-- The record `DictReader` yields for a result. -/
def row (r : SimOrderResult) : Record := record columns (fields r)

/-- The columns of integers, with their values. -/
def numbers (r : SimOrderResult) : List (String × Int) :=
  [("id",r.id.toNat),("pair_id",r.pairId.toNat),("price_ticks",r.priceTicks.toInt),("qty",r.qty.toNat),
    ("placed_msg_idx",r.placedMsgIdx),("resolved_msg_idx",r.resolvedMsgIdx),
    ("bid_at_place",r.bidAtPlace.toInt),("ask_at_place",r.askAtPlace.toInt),
    ("bid_at_fill",r.bidAtFill.toInt),("ask_at_fill",r.askAtFill.toInt),
    ("ahead_qty_at_place",r.aheadQtyAtPlace.toNat)]

/-- The report on the results of one model, without the file. -/
def reportOf (results : List SimOrderResult) : ModelReport :=
  let filled := results.filter fun r => r.outcome = .filled
  { total := results.length
    filled := filled.length
    crossed := (filled.filter fun r => r.bidAtFill.toInt ≥ r.askAtFill.toInt).length
    valid := (filled.filter fun r => r.bidAtFill.toInt < r.askAtFill.toInt).map fun r =>
      (r.askAtFill.toInt - r.bidAtFill.toInt,(r.qty.toNat : Int)) }

section Written

theorem word_plain (word : List Char) (is_plain : word.all Csv.plain = true) : ∀ c ∈ word, Csv.plain c = true :=
  List.all_eq_true.mp is_plain

theorem columns_plain : Plain columns := by
  have words : columns.all (fun name => name.all Csv.plain) = true := by decide
  exact ⟨fun name member => word_plain name (List.all_eq_true.mp words name member),_,_,rfl,List.cons_ne_nil _ _⟩

theorem plain_digit {c : Char} (digit : c.isDigit = true) : Csv.plain c = true := by
  have ne (d : Char) (other : d.isDigit = false) : c ≠ d := digit_ne digit other
  simp [Csv.plain,ne delimiter (by decide),ne quotechar (by decide),ne newline (by decide),
    ne carriageReturn (by decide)]

theorem unsigned_plain (n : Nat) : ∀ c ∈ unsigned n, Csv.plain c = true :=
  fun _ member => plain_digit (unsigned_digit member)

theorem signed_plain (z : Int) : ∀ c ∈ signed z, Csv.plain c = true := by
  intro c member
  rcases signed_chars member with rfl | digit
  · decide
  · exact plain_digit digit

theorem fields_plain (r : SimOrderResult) : Plain (fields r) := by
  have model : ∀ c ∈ modelName r.isNaive, Csv.plain c = true := word_plain _ (by cases r.isNaive <;> decide)
  have side : Csv.plain (if r.side = .buy then 'B' else 'S') = true := by cases r.side <;> decide
  have outcome : ∀ c ∈ outcomeName r.outcome, Csv.plain c = true := word_plain _ (by cases r.outcome <;> decide)
  refine ⟨?_,_,_,rfl,Nat.toDigits_ne_nil⟩
  simp only [fields,List.forall_mem_cons]
  exact ⟨unsigned_plain _,unsigned_plain _,model,⟨side,by simp⟩,signed_plain _,unsigned_plain _,unsigned_plain _,
    unsigned_plain _,outcome,signed_plain _,signed_plain _,signed_plain _,signed_plain _,unsigned_plain _,by simp⟩

theorem dictReader_file (results : List SimOrderResult) : dictReader (file results) = some (results.map row) := by
  have is_plain : ∀ fields ∈ results.map BacktestCli.fields, Plain fields := by
    intro fields member
    obtain ⟨r,_,rfl⟩ := List.mem_map.mp member
    exact fields_plain r
  rw [file,dictReader_write _ _ columns_plain is_plain,List.map_map]
  rfl

end Written

section Cells
variable (r : SimOrderResult)

theorem row_model : (row r).get "model".toList = some (some (modelName r.isNaive)) := rfl

theorem row_outcome : (row r).get "outcome".toList = some (some (outcomeName r.outcome)) := rfl

theorem row_side : (row r).get "side".toList = some (some [if r.side = .buy then 'B' else 'S']) := rfl

theorem row_numbers : ∀ cell ∈ numbers r, int (row r) cell.1 = some cell.2 := by
  simp only [numbers,List.forall_mem_cons]
  exact ⟨parseInt_unsigned _,parseInt_unsigned _,parseInt_signed _,parseInt_unsigned _,parseInt_unsigned _,
    parseInt_unsigned _,parseInt_signed _,parseInt_signed _,parseInt_signed _,parseInt_signed _,
    parseInt_unsigned _,by simp⟩

end Cells

theorem numbers_read (r : SimOrderResult) :
    ((numbers r).map Prod.fst).map (int (row r)) = ((numbers r).map Prod.snd).map some := by
  rw [List.map_map,List.map_map]
  exact List.map_congr_left (row_numbers r)

/-- A line of the file tells its result. -/
theorem row_injective {r other : SimOrderResult} (same : row r = row other) : r = other := by
  have names : (numbers other).map Prod.fst = (numbers r).map Prod.fst := rfl
  have values : (numbers r).map Prod.snd = (numbers other).map Prod.snd := by
    refine List.map_injective_iff.mpr (Option.some_injective Int) ?_
    rw [← numbers_read,← numbers_read,names,same]
  have model : modelName r.isNaive = modelName other.isNaive := by
    have cell := row_model r
    rw [same,row_model] at cell
    exact (Option.some.inj (Option.some.inj cell)).symm
  have side : [if r.side = .buy then 'B' else 'S'] = [if other.side = .buy then 'B' else 'S'] := by
    have cell := row_side r
    rw [same,row_side] at cell
    exact (Option.some.inj (Option.some.inj cell)).symm
  have outcome : outcomeName r.outcome = outcomeName other.outcome := by
    have cell := row_outcome r
    rw [same,row_outcome] at cell
    exact (Option.some.inj (Option.some.inj cell)).symm
  have isNaive : r.isNaive = other.isNaive := by
    revert model
    cases r.isNaive <;> cases other.isNaive <;> decide
  have side : r.side = other.side := by
    revert side
    cases r.side <;> cases other.side <;> decide
  have outcome : r.outcome = other.outcome := by
    revert outcome
    cases r.outcome <;> cases other.outcome <;> decide
  simp only [numbers,List.map_cons,List.map_nil,List.cons.injEq,Int.natCast_inj,Int64.toInt_inj,UInt32.toNat_inj,
    UInt64.toNat_inj,and_true] at values
  cases r
  cases other
  simp_all

theorem file_injective {results others : List SimOrderResult} (same : file results = file others) :
    results = others := by
  have read := dictReader_file results
  rw [same,dictReader_file] at read
  exact (List.map_injective_iff.mpr (fun _ _ => row_injective) (Option.some.inj read)).symm

section Script
variable {α : Type}

theorem filterM_map (p : Record → Option Bool) (q : α → Bool) (f : α → Record) (rows : List α)
    (known : ∀ a ∈ rows, p (f a) = some (q a)) : (rows.map f).filterM p = some ((rows.filter q).map f) := by
  have aux (done : List Record) :
      (rows.map f).filterAuxM p done = some (((rows.filter q).map f).reverse ++ done) := by
    induction rows generalizing done with
    | nil => rfl
    | cons a rest ih =>
      have later := ih (fun b member => known b (List.mem_cons_of_mem _ member))
      rw [List.map_cons,List.filterAuxM,known a List.mem_cons_self]
      refine (later _).trans ?_
      cases picked : q a <;> simp [picked]
  rw [List.filterM,aux]
  simp

theorem mapM_map {β : Type} (p : Record → Option β) (q : α → β) (f : α → Record) (rows : List α)
    (known : ∀ a ∈ rows, p (f a) = some (q a)) : (rows.map f).mapM p = some (rows.map q) := by
  induction rows with
  | nil => rfl
  | cons a rest ih =>
    have later := ih fun b member => known b (List.mem_cons_of_mem _ member)
    simp [List.mapM_cons,known a List.mem_cons_self,later]

end Script

theorem report_rows (results : List SimOrderResult) : report (results.map row) = some (reportOf results) := by
  have number (r : SimOrderResult) {column : String} {value : Int} (member : (column,value) ∈ numbers r) :
      int (row r) column = some value := row_numbers r _ member
  have bid (r : SimOrderResult) : int (row r) "bid_at_fill" = some r.bidAtFill.toInt := number r (by simp [numbers])
  have ask (r : SimOrderResult) : int (row r) "ask_at_fill" = some r.askAtFill.toInt := number r (by simp [numbers])
  have qty (r : SimOrderResult) : int (row r) "qty" = some r.qty.toNat := number r (by simp [numbers])
  have filled (r : SimOrderResult) : isFilled (row r) = some (decide (r.outcome = .filled)) := by
    rw [isFilled,row_outcome]
    cases r.outcome <;> rfl
  have crossed (r : SimOrderResult) : isCrossed (row r) = some (decide (r.bidAtFill.toInt ≥ r.askAtFill.toInt)) := by
    rw [isCrossed,bid,ask]
    rfl
  have valid (r : SimOrderResult) : isValid (row r) = some (decide (r.bidAtFill.toInt < r.askAtFill.toInt)) := by
    rw [isValid,bid,ask]
    rfl
  have spread (r : SimOrderResult) : captured (row r) =
      some (r.askAtFill.toInt - r.bidAtFill.toInt,(r.qty.toNat : Int)) := by
    rw [captured,qty,bid,ask]
    rfl
  rw [report,filterM_map _ _ row results fun r _ => filled r]
  simp only [Option.bind_eq_bind,Option.bind_some]
  rw [filterM_map _ _ row _ fun r _ => crossed r,filterM_map _ _ row _ fun r _ => valid r]
  simp only [Option.bind_some]
  rw [mapM_map _ _ row _ fun r _ => spread r]
  simp only [Option.bind_some,List.length_map]
  rfl

theorem sortRow_row (results : List SimOrderResult) (naive queue : List Record) :
    (results.map row).foldlM sortRow (naive,queue) =
      some (naive ++ (results.filter fun r => r.isNaive).map row,queue ++ (results.filter fun r => !r.isNaive).map row) := by
  induction results generalizing naive queue with
  | nil => simp
  | cons r rest ih =>
    have step : sortRow (naive,queue) (row r) =
        some (if r.isNaive then (naive ++ [row r],queue) else (naive,queue ++ [row r])) := by
      rw [sortRow,row_model]
      cases r.isNaive <;> rfl
    rw [List.map_cons,List.foldlM_cons,step]
    cases own : r.isNaive
    · simpa [own] using ih naive (queue ++ [row r])
    · simpa [own] using ih (naive ++ [row r]) queue

theorem analyze_file (results : List SimOrderResult) :
    analyze (file results) =
      some (reportOf (results.filter fun r => r.isNaive),reportOf (results.filter fun r => !r.isNaive)) := by
  rw [analyze,dictReader_file]
  simp only [Option.bind_eq_bind,Option.bind_some,sortRow_row,List.nil_append,report_rows]
  rfl

/-- The counters of one model, counted on its own results. -/
def countersOf (results : List SimOrderResult) : Counters where
  total := results.length
  filled := results.countP fun r => r.outcome = .filled
  canceled := results.countP fun r => r.outcome = .canceled
  resting := results.countP fun r => r.outcome = .resting

theorem countersOf_concat (results : List SimOrderResult) (r : SimOrderResult) :
    countersOf (results ++ [r]) = (countersOf results).count r.outcome := by
  cases own : r.outcome <;> simp [countersOf,Counters.count,own]

theorem summary_models (results : List SimOrderResult) :
    summary results =
      (countersOf (results.filter fun r => r.isNaive),countersOf (results.filter fun r => !r.isNaive)) := by
  induction results using List.reverseRecOn with
  | nil => rfl
  | append_singleton results r ih =>
    have step : summary (results ++ [r]) =
        if r.isNaive then ((summary results).1.count r.outcome,(summary results).2)
        else ((summary results).1,(summary results).2.count r.outcome) := by
      rw [summary,List.foldl_append]
      rfl
    rw [step,ih]
    cases own : r.isNaive <;> simp [own,countersOf_concat]

/-- What a report says of the results it is on. -/
theorem reportOf_counts (results : List SimOrderResult) :
    (reportOf results).total = (countersOf results).total ∧
    (reportOf results).filled = (countersOf results).filled ∧
    (reportOf results).crossed + (reportOf results).valid.length = (reportOf results).filled := by
  refine ⟨rfl,List.countP_eq_length_filter.symm,?_⟩
  simp only [reportOf,List.length_map]
  generalize results.filter (fun r => r.outcome = .filled) = filled
  have split : filled.length = _ + _ :=
    List.length_eq_length_filter_add fun r => decide (r.bidAtFill.toInt ≥ r.askAtFill.toInt)
  have swap : (fun r : SimOrderResult => !decide (r.bidAtFill.toInt ≥ r.askAtFill.toInt)) =
      fun r => decide (r.bidAtFill.toInt < r.askAtFill.toInt) := by
    funext r
    rw [← decide_not]
    exact decide_eq_decide.mpr Int.not_le
  rw [swap] at split
  exact split.symm

theorem reportOf_spread {results : List SimOrderResult} {pnl : Int × Int} (member : pnl ∈ (reportOf results).valid) :
    0 < pnl.1 ∧ ∃ r ∈ results, pnl.2 = r.qty.toNat := by
  obtain ⟨r,picked,rfl⟩ := List.mem_map.mp member
  obtain ⟨filled,ordered⟩ := List.mem_filter.mp picked
  have wide := of_decide_eq_true ordered
  exact ⟨by omega,r,(List.mem_filter.mp filled).1,rfl⟩

/-- The table in the file is the results', nothing lost, and the script computes from it what
the results have; its totals are those the tool printed. -/
theorem file_analyzed :
    (∀ results others, file results = file others → results = others) ∧
    ∀ results : List SimOrderResult,
      dictReader (file results) = some (results.map row) ∧
      (∀ r ∈ results, ∀ cell ∈ numbers r, int (row r) cell.1 = some cell.2) ∧
      ∃ naive queue, analyze (file results) = some (naive,queue) ∧
        naive = reportOf (results.filter fun r => r.isNaive) ∧ queue = reportOf (results.filter fun r => !r.isNaive) ∧
        (naive.total,naive.filled) = ((summary results).1.total,(summary results).1.filled) ∧
        (queue.total,queue.filled) = ((summary results).2.total,(summary results).2.filled) := by
  refine ⟨fun results others same => file_injective same,fun results => ?_⟩
  have naive := reportOf_counts (results.filter fun r => r.isNaive)
  have queue := reportOf_counts (results.filter fun r => !r.isNaive)
  refine ⟨dictReader_file results,fun r _ => row_numbers r,_,_,analyze_file results,rfl,rfl,?_,?_⟩
  · rw [summary_models,naive.1,naive.2.1]
  · rw [summary_models,queue.1,queue.2.1]

section Run
variable (cfg : Config) (reference : Int64) (message : Nat → WireMsg)

theorem results_qty (r : SimOrderResult) (member : r ∈ (runOn cfg reference message).1) : r.qty = cfg.orderQty := by
  obtain ⟨p,placed,ao,own,book,outcome,msgIdx,rfl⟩ := results_placed cfg reference message r member
  have asked : p.engine.cfg.orderQty = cfg.orderQty := by
    rw [placed.cfg]
    rfl
  rcases own with rfl | rfl <;> exact asked

theorem models_paired (pairs : List (SimOrderResult × SimOrderResult))
    (known : ∀ p ∈ pairs, p.1.isNaive = true ∧ p.2.isNaive = false) :
    (pairs.flatMap fun p => [p.1,p.2]).filter (fun r => r.isNaive) = pairs.map Prod.fst ∧
    (pairs.flatMap fun p => [p.1,p.2]).filter (fun r => !r.isNaive) = pairs.map Prod.snd := by
  induction pairs with
  | nil => exact ⟨rfl,rfl⟩
  | cons p pairs ih =>
    obtain ⟨naive,tracked⟩ := known p List.mem_cons_self
    obtain ⟨first,second⟩ := ih fun q member => known q (List.mem_cons_of_mem _ member)
    simp [naive,tracked,first,second]

/-- What the script reports on the file of any run: the two models have as many orders as pairs
were placed, and the queue-tracked one never the more fills; every fill is crossed or has a spread. -/
theorem run_analyzed :
    ∃ naive queue, analyze (file (runOn cfg reference message).1) = some (naive,queue) ∧
      naive.total = (points cfg reference message).length ∧ queue.total = (points cfg reference message).length ∧
      queue.filled ≤ naive.filled ∧
      naive.crossed + naive.valid.length = naive.filled ∧ queue.crossed + queue.valid.length = queue.filled ∧
      ∀ pnl ∈ naive.valid ++ queue.valid, 0 < pnl.1 ∧ pnl.2 = cfg.orderQty.toNat := by
  obtain ⟨pairs,reports⟩ := run_reports cfg reference message
  have known := paired_mem 1 reports.paired
  have flags : ∀ p ∈ pairs, p.1.isNaive = true ∧ p.2.isNaive = false := by
    intro p member
    obtain ⟨_,paired⟩ := known p member
    exact ⟨paired.naive,paired.tracked⟩
  obtain ⟨first,second⟩ := models_paired pairs flags
  have count : pairs.length = (points cfg reference message).length := by
    simpa using reports.paired.length_eq.symm
  have naives := (reports.results.filter fun r => r.isNaive).trans (.of_eq first)
  have queues := (reports.results.filter fun r => !r.isNaive).trans (.of_eq second)
  have fewer := dominates_count 1 reports.paired reports.dominates
  have asked := results_qty cfg reference message
  rw [← reports.results.countP_eq,← reports.results.countP_eq] at fewer
  have filled := reportOf_counts ((runOn cfg reference message).1.filter fun r => r.isNaive)
  have tracked := reportOf_counts ((runOn cfg reference message).1.filter fun r => !r.isNaive)
  refine ⟨_,_,analyze_file _,?_,?_,?_,filled.2.2,tracked.2.2,?_⟩
  · rw [filled.1]
    simpa [countersOf,count] using naives.length_eq
  · rw [tracked.1]
    simpa [countersOf,count] using queues.length_eq
  · rw [filled.2.1,tracked.2.1]
    simpa only [countersOf,List.countP_filter,Bool.and_comm] using fewer
  · intro pnl member
    rcases List.mem_append.mp member with own | own
    · obtain ⟨wide,r,picked,qty⟩ := reportOf_spread own
      exact ⟨wide,by rw [qty,asked r (List.mem_filter.mp picked).1]⟩
    · obtain ⟨wide,r,picked,qty⟩ := reportOf_spread own
      exact ⟨wide,by rw [qty,asked r (List.mem_filter.mp picked).1]⟩

end Run

end MarketFeed.AnalyzeBacktest
