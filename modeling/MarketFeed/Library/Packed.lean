import Mathlib.Data.List.Basic
import Mathlib.Data.Nat.Log
import Mathlib.Tactic.Ring

/-! Packed records: fields of fixed width laid end to end, little-endian, each reading
back what was written whatever bytes follow. -/
namespace MarketFeed.Packed

def leBytes : Nat → Nat → List UInt8
  | 0,_ => []
  | n + 1,v => UInt8.ofNat v :: leBytes n (v / 256)

def leValue : List UInt8 → Nat
  | [] => 0
  | b :: rest => b.toNat + 256 * leValue rest

@[simp] theorem length_leBytes (n v : Nat) : (leBytes n v).length = n := by
  induction n generalizing v with
  | zero => rfl
  | succ n ih => simp [leBytes,ih]

theorem leValue_leBytes (n v : Nat) : leValue (leBytes n v) = v % 256^n := by
  induction n generalizing v with
  | zero => simp [leBytes,leValue,Nat.mod_one]
  | succ n ih =>
    have low : (UInt8.ofNat v).toNat = v % 256 := by simp
    rw [leBytes,leValue,low,ih,pow_succ,Nat.mul_comm (256^n),Nat.mod_mul]

/-- The byte of index `n` is the top one of the first `n + 1`. -/
theorem leValue_top (bytes : List UInt8) (n : Nat) :
    leValue (bytes.take (n + 1)) / 256^n = (bytes.getD n 0).toNat := by
  induction n generalizing bytes with
  | zero => cases bytes <;> simp [leValue]
  | succ n ih =>
    cases bytes with
    | nil => simp [leValue]
    | cons b rest =>
      have low := b.toNat_lt
      have above : (b.toNat + 256 * leValue (rest.take (n + 1))) / 256 = leValue (rest.take (n + 1)) := by
        omega
      rw [List.take_succ_cons,leValue,pow_succ',← Nat.div_div_eq_div_mul,above,ih rest,List.getD_cons_succ]

theorem leValue_take_lt (bytes : List UInt8) (n : Nat) : leValue (bytes.take n) < 256^n := by
  induction n generalizing bytes with
  | zero => simp [leValue]
  | succ n ih =>
    cases bytes with
    | nil => simp [leValue]
    | cons b rest =>
      have low := b.toNat_lt
      have others := ih rest
      rw [List.take_succ_cons,leValue,pow_succ']
      omega

/-- A layout knows its width and that reading undoes writing. -/
structure Layout (α : Type) where
  size : Nat
  write : α → List UInt8
  read : List UInt8 → α
  length_write : ∀ a, (write a).length = size
  read_write : ∀ a rest, read (write a ++ rest) = a

namespace Layout

variable {α β : Type}

def number (n : Nat) (toNat : α → Nat) (ofNat : Nat → α) (fits : ∀ a, toNat a < 256^n)
    (inverse : ∀ a, ofNat (toNat a) = a) : Layout α where
  size := n
  write a := leBytes n (toNat a)
  read bytes := ofNat (leValue (bytes.take n))
  length_write a := length_leBytes n (toNat a)
  read_write a rest := by
    rw [List.take_append_of_le_length (by simp),List.take_of_length_le (by simp),leValue_leBytes,
      Nat.mod_eq_of_lt (fits a)]
    exact inverse a

def uint16 : Layout UInt16 := number 2 UInt16.toNat UInt16.ofNat UInt16.toNat_lt fun _ => UInt16.ofNat_toNat

def uint32 : Layout UInt32 := number 4 UInt32.toNat UInt32.ofNat UInt32.toNat_lt fun _ => UInt32.ofNat_toNat

def uint64 : Layout UInt64 := number 8 UInt64.toNat UInt64.ofNat UInt64.toNat_lt fun _ => UInt64.ofNat_toNat

def byte : Layout UInt8 where
  size := 1
  write b := [b]
  read bytes := bytes.headD 0
  length_write _ := rfl
  read_write _ _ := rfl

def pair (f : Layout α) (g : Layout β) : Layout (α × β) where
  size := f.size + g.size
  write p := f.write p.1 ++ g.write p.2
  read bytes := (f.read bytes,g.read (bytes.drop f.size))
  length_write p := by rw [List.length_append,f.length_write,g.length_write]
  read_write p rest := by
    rw [List.append_assoc,f.read_write,List.drop_left' (f.length_write _),g.read_write]

def as (f : Layout α) (make : α → β) (fields : β → α)
    (inverse : ∀ b, make (fields b) = b) : Layout β where
  size := f.size
  write b := f.write (fields b)
  read bytes := make (f.read bytes)
  length_write b := f.length_write _
  read_write b rest := by rw [f.read_write,inverse]

def int64 : Layout Int64 := uint64.as UInt64.toInt64 Int64.toUInt64 fun _ => rfl

/-- Only the first `size` bytes are read. -/
structure ReadsFront (f : Layout α) : Prop where
  front : ∀ bytes others : List UInt8, bytes.take f.size = others.take f.size → f.read bytes = f.read others

/-- The last of the `size` bytes can be told from what is read. -/
structure ShowsLast (f : Layout α) : Prop where
  occupied : 0 < f.size
  last : ∀ bytes others : List UInt8, f.read bytes = f.read others →
    bytes.getD (f.size - 1) 0 = others.getD (f.size - 1) 0

theorem ReadsFront.pair {f : Layout α} {g : Layout β} (first : f.ReadsFront) (second : g.ReadsFront) :
    (f.pair g).ReadsFront := by
  refine ⟨fun bytes others same => ?_⟩
  change bytes.take (f.size + g.size) = others.take (f.size + g.size) at same
  have front : bytes.take f.size = others.take f.size := by
    have := congrArg (List.take f.size) same
    rwa [List.take_take,List.take_take,Nat.min_eq_left (Nat.le_add_right _ _)] at this
  have back : (bytes.drop f.size).take g.size = (others.drop f.size).take g.size := by
    have := congrArg (List.drop f.size) same
    rwa [List.drop_take,List.drop_take,Nat.add_sub_cancel_left] at this
  exact Prod.ext (first.front _ _ front) (second.front _ _ back)

theorem ReadsFront.as {f : Layout α} (reads : f.ReadsFront) {make : α → β} {fields : β → α}
    {inverse : ∀ b, make (fields b) = b} : (f.as make fields inverse).ReadsFront where
  front bytes others same := congrArg make (reads.front bytes others same)

theorem ShowsLast.pair {g : Layout β} (f : Layout α) (shows : g.ShowsLast) : (f.pair g).ShowsLast where
  occupied := Nat.add_pos_right _ shows.occupied
  last bytes others same := by
    have positive := shows.occupied
    have index : (f.pair g).size - 1 = f.size + (g.size - 1) := Nat.add_sub_assoc positive _
    have told := shows.last _ _ (congrArg Prod.snd same)
    rw [index]
    simpa only [List.getD_eq_getElem?_getD,List.getElem?_drop] using told

theorem ShowsLast.as {f : Layout α} (shows : f.ShowsLast) {make : α → β} {fields : β → α}
    {inverse : ∀ b, make (fields b) = b} (injective : make.Injective) :
    (f.as make fields inverse).ShowsLast where
  occupied := shows.occupied
  last bytes others same := shows.last bytes others (injective same)

section Number

variable {n : Nat} {toNat : α → Nat} {ofNat : Nat → α} {fits : ∀ a, toNat a < 256^n}
  {inverse : ∀ a, ofNat (toNat a) = a}

theorem readsFront_number : (number n toNat ofNat fits inverse).ReadsFront where
  front _ _ same := congrArg (fun front => ofNat (leValue front)) same

theorem showsLast_number (positive : 0 < n) (exact : ∀ v < 256^n, toNat (ofNat v) = v) :
    (number n toNat ofNat fits inverse).ShowsLast where
  occupied := positive
  last bytes others same := by
    obtain ⟨k,rfl⟩ := Nat.exists_eq_succ_of_ne_zero (Nat.pos_iff_ne_zero.mp positive)
    have values : leValue (bytes.take (k + 1)) = leValue (others.take (k + 1)) := by
      rw [← exact _ (leValue_take_lt bytes (k + 1)),← exact _ (leValue_take_lt others (k + 1))]
      exact congrArg toNat same
    have top := congrArg (· / 256^k) values
    simp only [leValue_top] at top
    exact UInt8.toNat_inj.mp top

end Number

theorem readsFront_uint16 : uint16.ReadsFront := readsFront_number

theorem readsFront_uint32 : uint32.ReadsFront := readsFront_number

theorem readsFront_uint64 : uint64.ReadsFront := readsFront_number

theorem readsFront_int64 : int64.ReadsFront := readsFront_uint64.as

theorem readsFront_byte : byte.ReadsFront := by
  refine ⟨fun bytes others same => ?_⟩
  cases bytes <;> cases others <;> simp_all [byte]

theorem showsLast_uint32 : uint32.ShowsLast :=
  showsLast_number (by decide) fun _ small => Nat.mod_eq_of_lt small

theorem showsLast_uint64 : uint64.ShowsLast :=
  showsLast_number (by decide) fun _ small => Nat.mod_eq_of_lt small

end Layout

/-- `memcpy` of `bytes` into a buffer at an offset. -/
def overwrite (buffer : List UInt8) (offset : Nat) (bytes : List UInt8) : List UInt8 :=
  buffer.take offset ++ bytes ++ buffer.drop (offset + bytes.length)

@[simp] theorem length_overwrite (buffer : List UInt8) (offset : Nat) (bytes : List UInt8)
    (inside : offset + bytes.length ≤ buffer.length) :
    (overwrite buffer offset bytes).length = buffer.length := by
  simp only [overwrite,List.length_append,List.length_take,List.length_drop]
  omega

theorem overwrite_body (buffer : List UInt8) (header offset : Nat) (bytes : List UInt8)
    (after : header ≤ offset) (inside : offset ≤ buffer.length) :
    ((overwrite buffer offset bytes).drop header).take (offset - header + bytes.length) =
      (buffer.drop header).take (offset - header) ++ bytes := by
  have front : (buffer.take offset).length = offset := List.length_take_of_le inside
  rw [overwrite,List.append_assoc,List.drop_append_of_le_length (by omega),List.drop_take,← List.append_assoc]
  refine List.take_left' ?_
  simp only [List.length_append,List.length_take,List.length_drop]
  omega

theorem overwrite_front (buffer bytes : List UInt8) (n : Nat) :
    (overwrite buffer 0 bytes).take (bytes.length + n) = bytes ++ (buffer.drop bytes.length).take n := by
  simp [overwrite,List.take_append,List.take_of_length_le]

end MarketFeed.Packed
