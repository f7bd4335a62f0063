import Mathlib.Tactic

/-!
# C integer conversions

The conversions a 64-bit C compiler inserts between `int`, `unsigned int` and
`size_t`, on unbounded integers.  An `int` is an integer in `[-2³¹, 2³¹)`, an
`unsigned int` a natural number below `2³²` and a `size_t` one below `2⁶⁴`;
each conversion is the reduction modulo the width of its target, and is the
identity on the values that fit.
-/

namespace MyPthread.Lib

/-- Conversion to `int`: reduction modulo `2³²` into `[-2³¹, 2³¹)`. -/
def toI32 (z : ℤ) : ℤ := (z + 2147483648) % 4294967296 - 2147483648

/-- Conversion to `unsigned int`. -/
def toU32 (z : ℤ) : ℕ := (z % 4294967296).toNat

/-- Conversion to `size_t`. -/
def toU64 (z : ℤ) : ℕ := (z % 18446744073709551616).toNat

/-- The values of type `int` that are not negative. -/
def NonnegI32 (z : ℤ) : Prop := 0 ≤ z ∧ z < 2147483648

theorem toI32_of_nonneg {z : ℤ} (h : NonnegI32 z) : toI32 z = z := by
  obtain ⟨h₀, h₁⟩ := h
  unfold toI32
  omega

theorem toU32_of_nonneg {z : ℤ} (h : NonnegI32 z) : toU32 z = z.toNat := by
  obtain ⟨h₀, h₁⟩ := h
  unfold toU32
  omega

theorem toU64_of_nonneg {z : ℤ} (h : NonnegI32 z) : toU64 z = z.toNat := by
  obtain ⟨h₀, h₁⟩ := h
  unfold toU64
  omega

/-- Converting to `unsigned int` and back to `int` is converting to `int`. -/
@[simp] theorem toI32_toU32 (z : ℤ) : toI32 (toU32 z) = toI32 z := by
  unfold toI32 toU32
  omega

/-- Converting to `size_t` and back to `int` is converting to `int`. -/
@[simp] theorem toI32_toU64 (z : ℤ) : toI32 (toU64 z) = toI32 z := by
  unfold toI32 toU64
  omega

@[simp] theorem toI32_toI32 (z : ℤ) : toI32 (toI32 z) = toI32 z := by
  unfold toI32
  omega

@[simp] theorem toU32_toI32 (z : ℤ) : toU32 (toI32 z) = toU32 z := by
  unfold toI32 toU32
  omega

theorem toU32_lt (z : ℤ) : toU32 z < 4294967296 := by
  unfold toU32
  omega

end MyPthread.Lib
