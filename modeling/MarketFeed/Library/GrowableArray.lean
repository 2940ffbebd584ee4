import Mathlib.Order.MinMax

/-! A growable array: elements are added at the end, and the storage moves when the room in it
does not suffice. -/
namespace MarketFeed

/-- The capacity that replaces a full one. -/
structure Growth where
  next : Nat → Nat
  grows : ∀ n, n < next n

def Growth.doubling : Growth := ⟨fun n => max 1 (2 * n),by omega⟩

/-- Equal `storage` means that the elements have not been moved. -/
structure GrowableArray (α : Type*) where
  items : List α
  capacity : Nat
  storage : Nat
  room : items.length ≤ capacity

namespace GrowableArray

variable {α : Type*}

def empty : GrowableArray α := ⟨[],0,0,Nat.le_refl 0⟩

def reserve (a : GrowableArray α) (n : Nat) : GrowableArray α :=
  if more : a.capacity < n then ⟨a.items,n,a.storage + 1,a.room.trans more.le⟩ else a

def push (growth : Growth) (a : GrowableArray α) (x : α) : GrowableArray α :=
  if fits : a.items.length < a.capacity then ⟨a.items ++ [x],a.capacity,a.storage,List.length_append ▸ fits⟩
  else ⟨a.items ++ [x],growth.next a.capacity,a.storage + 1,
    List.length_append ▸ a.room.trans_lt (growth.grows a.capacity)⟩

@[simp] theorem items_reserve (a : GrowableArray α) (n : Nat) : (a.reserve n).items = a.items := by
  unfold reserve
  split <;> rfl

theorem capacity_reserve (a : GrowableArray α) (n : Nat) : (a.reserve n).capacity = max a.capacity n := by
  unfold reserve
  split
  next more => exact (max_eq_right more.le).symm
  next enough => exact (max_eq_left (Nat.le_of_not_lt enough)).symm

variable (growth : Growth)

@[simp] theorem items_push (a : GrowableArray α) (x : α) : (a.push growth x).items = a.items ++ [x] := by
  unfold push
  split <;> rfl

theorem push_fits {a : GrowableArray α} (fits : a.items.length < a.capacity) (x : α) :
    (a.push growth x).capacity = a.capacity ∧ (a.push growth x).storage = a.storage := by
  simp [push,fits]

theorem push_full {a : GrowableArray α} (full : ¬a.items.length < a.capacity) (x : α) :
    (a.push growth x).storage = a.storage + 1 := by
  simp [push,full]

theorem storage_push_le (a : GrowableArray α) (x : α) : a.storage ≤ (a.push growth x).storage := by
  by_cases fits : a.items.length < a.capacity
  · exact (push_fits growth fits x).2.ge
  · exact (Nat.le_succ _).trans (push_full growth fits x).ge

theorem items_pushes (xs : List α) (a : GrowableArray α) : (xs.foldl (push growth) a).items = a.items ++ xs := by
  induction xs generalizing a with
  | nil => simp
  | cons x rest ih => simp [ih]

theorem storage_pushes_le (xs : List α) (a : GrowableArray α) : a.storage ≤ (xs.foldl (push growth) a).storage := by
  induction xs generalizing a with
  | nil => exact Nat.le_refl _
  | cons x rest ih => exact (storage_push_le growth a x).trans (ih _)

/-- The storage stays exactly if all that is pushed fits in it. -/
theorem storage_pushes_iff (xs : List α) (a : GrowableArray α) :
    (xs.foldl (push growth) a).storage = a.storage ↔ a.items.length + xs.length ≤ a.capacity := by
  induction xs generalizing a with
  | nil => simpa using a.room
  | cons x rest ih =>
    rw [List.foldl_cons,List.length_cons]
    by_cases fits : a.items.length < a.capacity
    · obtain ⟨capacity,storage⟩ := push_fits growth fits x
      rw [← storage,ih,capacity,items_push,List.length_append,List.length_singleton,Nat.add_assoc,Nat.add_comm 1]
    · have moved := push_full growth fits x
      have later := storage_pushes_le growth rest (a.push growth x)
      constructor <;> intro <;> omega

end GrowableArray
end MarketFeed
