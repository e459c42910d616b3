/-! # Values, the two requests a container serves, and overflow-checked sums -/
namespace SharedMemory

abbrev Value := Int64

/-- Stands for "nothing there" where a client expects a plain value. -/
def emptyMark : Value := -1

inductive Request | insert (value : Value) | remove deriving DecidableEq

namespace Value

/-- `count` values, each `stride` after the one before, modulo `2 ^ 64`. -/
def progression (start : Value) (count : Nat) (stride : Value) : List Value :=
  (List.range count).map fun i => start + Int64.ofNat i * stride

def orMark (found : Option Value) : Value := found.getD emptyMark

/-- The sum modulo `2 ^ 64`, which no order of the summands changes. -/
def wrappingSum (values : List Value) : Value := values.foldl (· + ·) 0

/-- The sum of two values, if it fits the width. -/
def add? (a b : Value) : Option Value :=
  let total := a.toInt + b.toInt
  if Int64.minValue.toInt ≤ total ∧ total ≤ Int64.maxValue.toInt then some (Int64.ofInt total)
  else none

/-- Left to right; `none` as soon as one partial sum does not fit. -/
def checkedSum (values : List Value) : Option Value := values.foldlM add? 0

def sort (values : List Value) : List Value := values.mergeSort (fun a b => decide (a ≤ b))

theorem add?_eq_some_iff {a b c : Value} :
    add? a b = some c ↔ c.toInt = a.toInt + b.toInt := by
  simp only [add?]
  split
  · next h =>
    rw [Option.some_inj]
    constructor
    · rintro rfl
      exact Int64.toInt_ofInt_of_le h.1 (Int.lt_of_le_of_lt h.2 (by decide))
    · intro hc
      rw [← hc]
      exact Int64.ofInt_toInt c
  · next h =>
    simp only [reduceCtorEq, false_iff]
    intro hc
    exact h (hc ▸ ⟨Int64.minValue_le_toInt c, Int64.toInt_le c⟩)

end Value

namespace Size

/-- The product of two sizes, if it fits the width. -/
def mul? (a b : UInt64) : Option UInt64 :=
  if a.toNat * b.toNat < UInt64.size then some (UInt64.ofNat (a.toNat * b.toNat)) else none

theorem mul?_eq_some_iff {a b c : UInt64} :
    mul? a b = some c ↔ c.toNat = a.toNat * b.toNat := by
  simp only [mul?]
  split
  · next h =>
    rw [Option.some_inj]
    constructor
    · rintro rfl
      exact UInt64.toNat_ofNat_of_lt h
    · intro hc
      rw [← hc]
      exact UInt64.ofNat_toNat
  · next h =>
    simp only [reduceCtorEq, false_iff]
    intro hc
    exact h (hc ▸ c.toNat_lt)

theorem mul?_ofNat {a b : Nat} (fits : a * b < UInt64.size) :
    mul? (UInt64.ofNat a) (UInt64.ofNat b) = some (UInt64.ofNat (a * b)) := by
  rw [mul?_eq_some_iff, UInt64.toNat_ofNat_of_lt' fits, UInt64.toNat_ofNat', UInt64.toNat_ofNat']
  rcases Nat.eq_zero_or_pos a with rfl | a_pos
  · rw [Nat.zero_mod, Nat.zero_mul, Nat.zero_mul]
  rcases Nat.eq_zero_or_pos b with rfl | b_pos
  · rw [Nat.zero_mod, Nat.mul_zero, Nat.mul_zero]
  rw [Nat.mod_eq_of_lt (Nat.lt_of_le_of_lt (Nat.le_mul_of_pos_right a b_pos) fits),
    Nat.mod_eq_of_lt (Nat.lt_of_le_of_lt (Nat.le_mul_of_pos_left b a_pos) fits)]

end Size

end SharedMemory
