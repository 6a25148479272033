import Mathlib.Data.Int.Notation

/-!
# Arithmetic on `int`

An `int` of 32 bits is an integer in its range, and an operation whose exact result leaves the
range has none.

- `IsInt`: the range. `fit`: a result, where it is in the range.
- `add`, `mul`: the operations.
-/

namespace CInt

/-- The range of `int`. -/
def IsInt (n : ℤ) : Prop := -2147483648 ≤ n ∧ n ≤ 2147483647

instance (n : ℤ) : Decidable (IsInt n) := inferInstanceAs (Decidable (_ ∧ _))

/-- An exact result as an `int`. -/
def fit (n : ℤ) : Option ℤ := if IsInt n then some n else none

def add (a b : ℤ) : Option ℤ := fit (a + b)

def mul (a b : ℤ) : Option ℤ := fit (a * b)

variable {n : ℤ}

theorem fit_of_isInt (hlow : -2147483648 ≤ n) (hhigh : n ≤ 2147483647) : fit n = some n :=
  if_pos ⟨hlow, hhigh⟩

theorem fit_of_gt (h : 2147483647 < n) : fit n = none :=
  if_neg fun hrange => Int.not_lt.mpr hrange.2 h

theorem fit_isSome : (fit n).isSome = true ↔ IsInt n := by
  by_cases h : IsInt n <;> simp [fit, h]

end CInt
