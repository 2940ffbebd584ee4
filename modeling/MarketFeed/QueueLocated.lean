import MarketFeed.QueueBook

/-! No iterator of the order map dangles: whatever the stream, each known order points at a
node of its level that carries its id. -/
namespace MarketFeed.QueuePositionBook
open FiniteMap

theorem reduceBy_reduction (book : QueuePositionBook) (orderId : UInt64) (qty : UInt32) (isExecute : Bool) :
    (book.reduceBy orderId qty isExecute {}).1.reduction =
      (book.find orderId).map fun found => ⟨found.1.level,found.2.seq,min qty found.2.qty,isExecute⟩ := by
  unfold reduceBy find
  cases book.orders.lookup orderId with
  | none => rfl
  | some loc =>
    cases here : book.deref loc with
    | none => simp [here]
    | some e =>
      simp only [here]
      split <;> simp [here]

theorem find_entry (book : QueuePositionBook) (orderId : UInt64) (loc : Loc) (e : QEntry)
    (found : book.find orderId = some (loc,e)) : ∃ node ∈ book.level loc.level, node.entry = e := by
  obtain ⟨loc',_,shown⟩ := Option.bind_eq_some_iff.mp found
  obtain ⟨e',here,same⟩ := Option.map_eq_some_iff.mp shown
  obtain ⟨rfl,rfl⟩ := Prod.mk.inj same
  obtain ⟨node,here,entry⟩ := Option.map_eq_some_iff.mp here
  exact ⟨node,List.mem_of_find?_eq_some here,entry⟩

/-- What a message reports: the execution of an order it names, or another reduction of one. -/
inductive Reports (book : QueuePositionBook) (m : WireMsg) : ReductionEvent → Prop
  | executes (x loc e) (executed : m = .exec x) (found : book.find x.orderId = some (loc,e)) :
      Reports book m ⟨loc.level,e.seq,min x.execQty e.qty,true⟩
  | withdraws (orderId loc e qty) (found : book.find orderId = some (loc,e)) :
      Reports book m ⟨loc.level,e.seq,qty,false⟩

theorem apply_reports {book : QueuePositionBook} {m : WireMsg} {r : ReductionEvent}
    (reported : (book.apply m).1.reduction = some r) : Reports book m r := by
  have withdrawn (orderId : UInt64) (qty : UInt32)
      (reported : (book.reduceBy orderId qty false {}).1.reduction = some r) : Reports book m r := by
    rw [reduceBy_reduction] at reported
    obtain ⟨⟨loc,e⟩,found,rfl⟩ := Option.map_eq_some_iff.mp reported
    exact .withdraws orderId loc e _ found
  cases m with
  | zero | add => cases reported
  | exec x =>
    simp only [apply,reduceBy_reduction] at reported
    obtain ⟨⟨loc,e⟩,found,rfl⟩ := Option.map_eq_some_iff.mp reported
    exact .executes x loc e rfl found
  | cancel c => exact withdrawn _ _ reported
  | del d =>
    simp only [apply] at reported
    cases known : book.find d.orderId with
    | none => simp [known] at reported
    | some found =>
      rw [known] at reported
      exact withdrawn _ _ reported
  | replace x =>
    simp only [apply] at reported
    cases known : book.find x.oldOrderId with
    | none => simp [known] at reported
    | some found =>
      rw [known] at reported
      exact withdrawn _ _ reported

theorem level_setLevel (book : QueuePositionBook) (key k : LevelKey) (nodes : List Node) :
    (book.setLevel key nodes).level k = if k = key then nodes else book.level k := by
  unfold setLevel level
  cases nodes with
  | nil =>
    simp only [List.isEmpty_nil,if_true,lookup_erase_if]
    split <;> rfl
  | cons node rest =>
    simp only [List.isEmpty_cons,Bool.false_eq_true,if_false,lookup_insert_if]
    split <;> rfl

theorem level_pushBack (book : QueuePositionBook) (key k : LevelKey) (orderId : UInt64) (qty : UInt32) :
    (book.pushBack key orderId qty).level k =
      if k = key then book.level key ++ [⟨book.allocated,⟨orderId,qty,book.nextSeq⟩⟩] else book.level k := by
  unfold pushBack level
  simp only [lookup_insert_if]
  split <;> rfl

theorem settle_origin (nodes : List Node) (it : Nat) (left : UInt32) (node : Node)
    (member : node ∈ settle it left nodes) : ∃ old ∈ nodes, old.entry.seq = node.entry.seq ∧ old.id = node.id := by
  induction nodes with
  | nil => simp [settle] at member
  | cons first rest ih =>
    unfold settle at member
    split at member
    · split at member
      · exact ⟨node,List.mem_cons_of_mem _ member,rfl,rfl⟩
      · rcases List.mem_cons.mp member with rfl | later
        · exact ⟨first,List.mem_cons_self ..,rfl,rfl⟩
        · exact ⟨node,List.mem_cons_of_mem _ later,rfl,rfl⟩
    · rcases List.mem_cons.mp member with rfl | later
      · exact ⟨node,List.mem_cons_self ..,rfl,rfl⟩
      · obtain ⟨old,inside,same⟩ := ih later
        exact ⟨old,List.mem_cons_of_mem _ inside,same⟩

structure Located (book : QueuePositionBook) : Prop where
  fresh : ∀ key, ∀ node ∈ book.level key, node.id < book.allocated
  pointed : ∀ orderId loc, book.orders.lookup orderId = some loc →
    ∃ e, book.deref loc = some e ∧ e.orderId = orderId

theorem located_empty : Located {} := by
  refine ⟨?_,?_⟩
  · intro key node member
    have member : node ∈ ([] : List Node) := member
    cases member
  · intro orderId loc known
    simp at known

theorem settle_find_other (nodes : List Node) (it other : Nat) (left : UInt32) (apart : other ≠ it) :
    (settle it left nodes).find? (fun node => node.id = other) = nodes.find? fun node => node.id = other := by
  induction nodes with
  | nil => rfl
  | cons first rest ih =>
    unfold settle
    split
    next here =>
      have missed : first.id ≠ other := fun contra => apart (contra.symm.trans here)
      split <;> simp [missed]
    next => simp only [List.find?_cons,ih]

theorem settle_find_same (nodes : List Node) (it : Nat) (left : UInt32) (node : Node) (remains : left ≠ 0)
    (found : nodes.find? (fun node => node.id = it) = some node) :
    (settle it left nodes).find? (fun node => node.id = it) =
      some { node with entry := { node.entry with qty := left } } := by
  induction nodes with
  | nil => simp at found
  | cons first rest ih =>
    rw [List.find?_cons] at found
    unfold settle
    split
    next here =>
      simp only [here,decide_true] at found
      obtain rfl := Option.some.inj found
      simp [here]
    next elsewhere =>
      simp only [elsewhere,decide_false] at found
      rw [List.find?_cons]
      simpa [elsewhere] using ih found

section Preserved
variable {book : QueuePositionBook} (located : Located book)
include located

theorem find_known (orderId : UInt64) (loc : Loc) (known : book.orders.lookup orderId = some loc) :
    ∃ e, book.find orderId = some (loc,e) ∧ e.orderId = orderId := by
  obtain ⟨e,here,owner⟩ := located.pointed orderId loc known
  exact ⟨e,by simp [find,known,here],owner⟩

theorem settled_fresh (loc : Loc) (left : UInt32) (key : LevelKey) (node : Node)
    (member : node ∈ (book.setLevel loc.level (settle loc.it left (book.level loc.level))).level key) :
    node.id < book.allocated := by
  rw [level_setLevel] at member
  split at member
  next =>
    obtain ⟨old,inside,_,same⟩ := settle_origin _ _ _ _ member
    rw [← same]
    exact located.fresh _ old inside
  next => exact located.fresh key node member

/-- Two known orders never share a node, so settling one leaves the other where it was. -/
theorem settled_others (orderId other : UInt64) (loc loc' : Loc) (left : UInt32) (apart : other ≠ orderId)
    (known : book.orders.lookup orderId = some loc) (known' : book.orders.lookup other = some loc') :
    (book.setLevel loc.level (settle loc.it left (book.level loc.level))).deref loc' = book.deref loc' := by
  obtain ⟨e,here,owner⟩ := located.pointed orderId loc known
  obtain ⟨e',here',owner'⟩ := located.pointed other loc' known'
  unfold deref
  rw [level_setLevel]
  split
  next same =>
    have moved : loc'.it ≠ loc.it := by
      intro contra
      unfold deref at here here'
      rw [same,contra,here] at here'
      exact apart (by rw [← owner',← owner,Option.some.inj here'])
    rw [settle_find_other _ _ _ _ moved,same]
  next => rfl

theorem reduceBy_located (orderId : UInt64) (qty : UInt32) (isExecute : Bool) (eff : ApplyEffect) :
    Located (book.reduceBy orderId qty isExecute eff).2 := by
  unfold reduceBy
  cases known : book.orders.lookup orderId with
  | none => exact located
  | some loc =>
    obtain ⟨e,here,owner⟩ := located.pointed orderId loc known
    obtain ⟨node,found,rfl⟩ := Option.map_eq_some_iff.mp here
    simp only [here]
    generalize node.entry.qty - min qty node.entry.qty = left
    have others (other : UInt64) (loc' : Loc) (apart : other ≠ orderId)
        (known' : book.orders.lookup other = some loc') : ∃ e,
        (book.setLevel loc.level (settle loc.it left (book.level loc.level))).deref loc' = some e ∧
          e.orderId = other := by
      rw [settled_others located orderId other loc loc' left apart known known']
      exact located.pointed other loc' known'
    split
    next =>
      refine ⟨settled_fresh located loc left,?_⟩
      intro other loc' known'
      rw [lookup_erase_if] at known'
      split at known'
      next => cases known'
      next apart => exact others other loc' apart known'
    next remains =>
      refine ⟨settled_fresh located loc left,?_⟩
      intro other loc' known'
      rcases eq_or_ne other orderId with rfl | apart
      · obtain rfl : loc = loc' := Option.some.inj (known.symm.trans known')
        refine ⟨{ node.entry with qty := left },?_,owner⟩
        unfold deref
        rw [level_setLevel,if_pos rfl,settle_find_same _ _ _ node remains found]
        rfl
      · exact others other loc' apart known'

theorem pushBack_deref_new (key : LevelKey) (orderId : UInt64) (qty : UInt32) :
    (book.pushBack key orderId qty).deref ⟨key,book.allocated⟩ = some ⟨orderId,qty,book.nextSeq⟩ := by
  have absent : (book.level key).find? (fun node => node.id = book.allocated) = none := by
    rw [List.find?_eq_none]
    intro node member contra
    exact Nat.ne_of_lt (located.fresh key node member) (of_decide_eq_true contra)
  unfold deref
  rw [level_pushBack,if_pos rfl]
  simp [List.find?_append,absent]

omit located in
theorem pushBack_deref_old (key : LevelKey) (orderId : UInt64) (qty : UInt32) (loc : Loc) (e : QEntry)
    (here : book.deref loc = some e) : (book.pushBack key orderId qty).deref loc = some e := by
  obtain ⟨node,found,rfl⟩ := Option.map_eq_some_iff.mp here
  unfold deref
  rw [level_pushBack]
  split
  next same =>
    rw [same] at found
    simp [List.find?_append,found]
  next => simp [found]

theorem pushBack_located (key : LevelKey) (orderId : UInt64) (qty : UInt32) :
    Located (book.pushBack key orderId qty) := by
  refine ⟨?_,?_⟩
  · intro k node member
    rw [level_pushBack] at member
    have old : ∀ key, node ∈ book.level key → node.id < book.allocated + 1 := fun key inside =>
      Nat.lt_succ_of_lt (located.fresh key node inside)
    split at member
    next =>
      rcases List.mem_append.mp member with earlier | last
      · exact old key earlier
      · rw [List.mem_singleton.mp last]
        exact Nat.lt_succ_self _
    next => exact old k member
  · intro other loc known
    have known : (book.orders.insert orderId ⟨key,book.allocated⟩).lookup other = some loc := known
    rw [lookup_insert_if] at known
    split at known
    next same =>
      obtain rfl := Option.some.inj known
      exact ⟨_,pushBack_deref_new located key orderId qty,same.symm⟩
    next =>
      obtain ⟨e,here,owner⟩ := located.pointed other loc known
      exact ⟨e,pushBack_deref_old key orderId qty loc e here,owner⟩

theorem pushBack_find (key : LevelKey) (orderId other : UInt64) (qty : UInt32) :
    (book.pushBack key orderId qty).find other =
      if other = orderId then some (⟨key,book.allocated⟩,⟨orderId,qty,book.nextSeq⟩) else book.find other := by
  have known : (book.pushBack key orderId qty).orders = book.orders.insert orderId ⟨key,book.allocated⟩ := rfl
  unfold find
  rw [known,lookup_insert_if]
  split
  next => simp [pushBack_deref_new located]
  next =>
    cases known : book.orders.lookup other with
    | none => rfl
    | some loc =>
      obtain ⟨e,here,_⟩ := located.pointed other loc known
      simp [here,pushBack_deref_old key orderId qty loc e here]

theorem find_unknown (orderId : UInt64) (unknown : book.find orderId = none) :
    book.orders.lookup orderId = none := by
  cases known : book.orders.lookup orderId with
  | none => rfl
  | some loc =>
    obtain ⟨e,found,_⟩ := find_known located orderId loc known
    simp [found] at unknown

theorem reduceBy_find (orderId other : UInt64) (qty : UInt32) (isExecute : Bool) (eff : ApplyEffect)
    (loc : Loc) (e : QEntry) (found : book.find orderId = some (loc,e)) :
    (book.reduceBy orderId qty isExecute eff).2.find other =
      if other = orderId then
        if e.qty - min qty e.qty = 0 then none else some (loc,{ e with qty := e.qty - min qty e.qty })
      else book.find other := by
  obtain ⟨loc',known,shown⟩ := Option.bind_eq_some_iff.mp found
  obtain ⟨e',here,same⟩ := Option.map_eq_some_iff.mp shown
  obtain ⟨rfl,rfl⟩ := Prod.mk.inj same
  have others (left : UInt32) (apart : other ≠ orderId) : ((book.orders.lookup other).bind fun loc =>
      ((book.setLevel loc'.level (settle loc'.it left (book.level loc'.level))).deref loc).map (loc,·)) =
        book.find other := by
    unfold find
    cases known' : book.orders.lookup other with
    | none => rfl
    | some loc =>
      simp only [Option.bind_some,settled_others located orderId other loc' loc left apart known known']
  unfold reduceBy
  simp only [known,here]
  split
  next emptied =>
    rcases eq_or_ne other orderId with rfl | apart
    · simp [find]
    · rw [if_neg apart,find,lookup_erase_if,if_neg apart]
      exact others _ apart
  next remains =>
    rcases eq_or_ne other orderId with rfl | apart
    · obtain ⟨node,at_,rfl⟩ := Option.map_eq_some_iff.mp here
      have settled : (book.setLevel loc'.level (settle loc'.it (node.entry.qty - min qty node.entry.qty)
          (book.level loc'.level))).deref loc' =
            some { node.entry with qty := node.entry.qty - min qty node.entry.qty } := by
        unfold deref
        rw [level_setLevel,if_pos rfl,settle_find_same _ _ _ node remains at_]
        rfl
      rw [if_pos rfl,find]
      change (book.orders.lookup other).bind _ = _
      rw [known,Option.bind_some,settled]
      rfl
    · rw [if_neg apart]
      exact others _ apart

theorem apply_located (m : WireMsg) : Located (book.apply m).2 := by
  cases m with
  | zero => exact located
  | add a => exact pushBack_located located _ _ _
  | exec e => exact reduceBy_located located _ _ _ _
  | cancel c => exact reduceBy_located located _ _ _ _
  | del d =>
    simp only [apply]
    cases book.find d.orderId with
    | none => exact located
    | some found => exact reduceBy_located located _ _ _ _
  | replace r =>
    simp only [apply]
    cases book.find r.oldOrderId with
    | none => exact located
    | some found => exact pushBack_located (reduceBy_located located _ _ _ _) _ _ _

end Preserved

theorem applyAll_located (messages : List WireMsg) (book : QueuePositionBook) (located : Located book) :
    Located (book.applyAll messages) := by
  induction messages generalizing book with
  | nil => exact located
  | cons m rest ih => exact ih _ (apply_located located m)

end MarketFeed.QueuePositionBook
