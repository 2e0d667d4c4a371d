import Mathlib.Algebra.Group.Int.Defs
import Mathlib.Algebra.Group.Nat.Defs
import Mathlib.Tactic.Common

/-!
# 32-bit C integers

The value of an integer after conversion to `int` or to `unsigned int`.
-/

namespace CInt

/-- Conversion to a 32-bit `int`. -/
def int (x : ℤ) : ℤ := x.bmod (2 ^ 32)

/-- Conversion to a 32-bit `unsigned int`. -/
def unsigned (x : ℤ) : ℤ := x % 2 ^ 32

theorem int_lt (x : ℤ) : int x < 2 ^ 31 := by
  have h : x.bmod (2 ^ 32) < ((2 ^ 32 : ℕ) + 1) / 2 := Int.bmod_lt (by decide)
  rw [int]
  omega

theorem int_le {x : ℤ} (hx : 0 ≤ x) : int x ≤ x := by
  by_cases h : x < 2 ^ 31
  · rw [int, Int.bmod_eq_of_le] <;> omega
  · have hlt := int_lt x
    omega

theorem int_of_range {x : ℤ} (hlo : -2 ^ 31 ≤ x) (hhi : x < 2 ^ 31) : int x = x := by
  rw [int, Int.bmod_eq_of_le] <;> omega

theorem int_of_ge {x : ℤ} (hlo : 2 ^ 31 ≤ x) (hhi : x < 2 ^ 32) : int x = x - 2 ^ 32 := by
  rw [← int_of_range (x := x - 2 ^ 32) (by omega) (by omega)]
  exact (Int.sub_bmod_right x (2 ^ 32)).symm

theorem int_emod (x : ℤ) : int x % 2 ^ 32 = x % 2 ^ 32 := Int.bmod_emod

/-- Adding a negative `int` does not leave an `int` as it was. -/
theorem int_add_ne {x y : ℤ} (hlo : -2 ^ 31 ≤ y) (hy : y < 0) : int (x + y) ≠ x := by
  intro h
  have hemod := int_emod (x + y)
  rw [h] at hemod
  omega

theorem unsigned_of_range {x : ℤ} (hlo : 0 ≤ x) (hhi : x < 2 ^ 32) : unsigned x = x :=
  Int.emod_eq_of_lt hlo hhi

/-- A number is its own `int` value exactly within the range of `int`. -/
theorem int_eq_iff {x : ℤ} (hx : 0 ≤ x) : int x = x ↔ x < 2 ^ 31 :=
  ⟨fun h => h ▸ int_lt x, fun h => int_of_range (by omega) h⟩

/-- An unsigned sum does not see the conversion of a summand to `int`. -/
@[simp] theorem unsigned_add_int (x y : ℤ) : unsigned (x + int y) = unsigned (x + y) := by
  unfold unsigned int
  rw [Int.add_emod x (y.bmod _), Int.add_emod x y]
  congr 2
  exact int_emod y

@[simp] theorem int_int_add (x y : ℤ) : int (int x + y) = int (x + y) :=
  Int.bmod_add_bmod

@[simp] theorem int_int_sub (x y : ℤ) : int (int x - y) = int (x - y) :=
  Int.bmod_sub_bmod

end CInt
