import Mathlib.Data.List.Basic
import Mathlib.Data.Option.Basic

/-! Integers as ASCII text: how `%llu` and `%lld` print them and what Python's `int` reads. -/
namespace MarketFeed.Decimal

def unsigned (n : Nat) : List Char := Nat.toDigits 10 n

def signed (z : Int) : List Char := if z < 0 then '-' :: unsigned z.natAbs else unsigned z.natAbs

/-- A blank, or one of the five controls from tab to carriage return. -/
def space (c : Char) : Bool := c = ' ' || (9 ≤ c.toNat && c.toNat ≤ 13)

def strip (text : List Char) : List Char := ((text.dropWhile space).reverse.dropWhile space).reverse

/-- Groups of digits with an underscore between two of them. -/
def magnitude (text : List Char) : Option Nat :=
  let groups := text.splitOnP (· == '_')
  if groups.all fun group => group ≠ [] && group.all Char.isDigit
    then some (Nat.ofDigitChars 10 groups.flatten 0) else none

/-- Python's `int` of a text in base 10. -/
def parseInt (text : List Char) : Option Int :=
  match strip text with
  | [] => none
  | sign :: rest =>
    if sign = '-' then (magnitude rest).map fun n => -(n : Int)
    else if sign = '+' then (magnitude rest).map Int.ofNat
    else (magnitude (sign :: rest)).map Int.ofNat

theorem unsigned_digit {n : Nat} {c : Char} (member : c ∈ unsigned n) : c.isDigit = true :=
  Nat.isDigit_of_mem_toDigits (by decide) (by decide) member

theorem digit_bounds {c : Char} (digit : c.isDigit = true) : 48 ≤ c.toNat ∧ c.toNat ≤ 57 := by
  simpa [Char.isDigit,UInt32.le_iff_toNat_le] using digit

theorem digit_ne {c d : Char} (digit : c.isDigit = true) (other : d.isDigit = false) : c ≠ d := by
  rintro rfl
  simp [digit] at other

theorem digit_unspaced {c : Char} (digit : c.isDigit = true) : space c = false := by
  have bounds := digit_bounds digit
  have unblank : c ≠ ' ' := digit_ne digit (by decide)
  simp only [space,unblank,decide_false,Bool.false_or,Bool.and_eq_false_iff,decide_eq_false_iff_not]
  omega

theorem magnitude_unsigned (n : Nat) : magnitude (unsigned n) = some n := by
  have one : (unsigned n).splitOnP (· == '_') = [unsigned n] := by
    refine List.splitOnP_eq_singleton fun c member => ?_
    exact beq_eq_false_iff_ne.mpr (digit_ne (unsigned_digit member) (by decide))
  have digits : ∀ c ∈ unsigned n, c.isDigit = true := fun c member => unsigned_digit member
  have filled : unsigned n ≠ [] := Nat.toDigits_ne_nil
  have accepted : ([unsigned n].all fun group => group ≠ [] && group.all Char.isDigit) = true := by
    simpa [filled] using digits
  rw [magnitude,one]
  simp only [accepted,if_true,List.flatten_singleton]
  exact congrArg some (Nat.ofDigitChars_ten_toDigits)

theorem strip_unspaced (text : List Char) (unspaced : ∀ c ∈ text, space c = false) : strip text = text := by
  have kept (l : List Char) (unspaced : ∀ c ∈ l, space c = false) : l.dropWhile space = l := by
    cases l with
    | nil => rfl
    | cons c rest => rw [List.dropWhile_cons,unspaced c List.mem_cons_self]; rfl
  rw [strip,kept text unspaced,kept _ fun c member => unspaced c (List.mem_reverse.mp member),List.reverse_reverse]

theorem parseInt_unsigned (n : Nat) : parseInt (unsigned n) = some (n : Int) := by
  have kept := strip_unspaced (unsigned n) fun c member => digit_unspaced (unsigned_digit member)
  have reads := magnitude_unsigned n
  have digits : ∀ c ∈ unsigned n, c.isDigit = true := fun c member => unsigned_digit member
  have filled : unsigned n ≠ [] := Nat.toDigits_ne_nil
  rw [parseInt,kept]
  generalize unsigned n = text at reads digits filled
  cases text with
  | nil => exact absurd rfl filled
  | cons c rest =>
    have digit := digits c List.mem_cons_self
    have minus : c ≠ '-' := digit_ne digit (by decide)
    have plus : c ≠ '+' := digit_ne digit (by decide)
    simp [minus,plus,reads]

/-- What `%lld` prints is read back. -/
theorem parseInt_signed (z : Int) : parseInt (signed z) = some z := by
  by_cases negative : z < 0
  · have unspaced : ∀ c ∈ '-' :: unsigned z.natAbs, space c = false := by
      intro c member
      rcases List.mem_cons.mp member with rfl | digit
      · decide
      · exact digit_unspaced (unsigned_digit digit)
    have value : -(z.natAbs : Int) = z := by omega
    rw [signed,if_pos negative,parseInt,strip_unspaced _ unspaced]
    simp only [if_true,magnitude_unsigned,Option.map_some]
    exact congrArg some value
  · have value : (z.natAbs : Int) = z := by omega
    rw [signed,if_neg negative,parseInt_unsigned,value]

/-- Digits and a sign only. -/
theorem signed_chars {z : Int} {c : Char} (member : c ∈ signed z) : c = '-' ∨ c.isDigit = true := by
  rw [signed] at member
  split at member
  · exact (List.mem_cons.mp member).imp id unsigned_digit
  · exact Or.inr (unsigned_digit member)

example : parseInt [' ','+','1','_','0','0',Char.ofNat 10] = some 100 := by decide

end MarketFeed.Decimal
