import Mathlib.Algebra.Group.Int.Defs
import Mathlib.Algebra.Group.Nat.Defs
import Mathlib.Data.Nat.Bits

/-!
# Machine Words

Truncation to the widths of the machine. Values are plain numbers and the
wrap-around of an operation is written where it happens, so a bound is a
matter for `omega` once the truncation has been unfolded or shown to be
the identity.

## Main definitions

* `u8`, `u16`, `u32`, `u64`: Truncation to a width.
* `wrappingSub32`, `wrappingSub64`: Subtraction modulo a power of two.
* `i32`: A 32-bit value read as a signed one.
* `i64`: Wrap-around of a signed 64-bit sum.
* `asU64`: A signed value as an unsigned 64-bit one.

## Theorems

* `u32_of_lt`, `u64_of_lt`, `i32_of_lt`: Truncating a value that fits.
* `wrappingSub64_of_le`: A difference that does not wrap around.
* `lt_of_i32_nonneg`: Values that are not read as negative.
* `u32_lt`: A truncated value fits.
* `and_field`, `or_low`: Masks and disjoint bits as arithmetic.
-/

namespace SysRust

def u8 (n : Nat) : Nat := n % 2 ^ 8

def u16 (n : Nat) : Nat := n % 2 ^ 16

def u32 (n : Nat) : Nat := n % 2 ^ 32

def u64 (n : Nat) : Nat := n % 2 ^ 64

/-- The wrapping 32-bit subtraction of a release build. -/
def wrappingSub32 (a b : Nat) : Nat := u32 (a + 2 ^ 32 - u32 b)

/-- The wrapping 64-bit subtraction of a release build. -/
def wrappingSub64 (a b : Nat) : Nat := u64 (a + 2 ^ 64 - u64 b)

/-- A 32-bit value read as a signed one. -/
def i32 (n : Nat) : Int := if u32 n < 2 ^ 31 then u32 n else (u32 n : Int) - 2 ^ 32

/-- The signed 64-bit value that a sum wraps around to. -/
def i64 (n : Int) : Int := Int.bmod n (2 ^ 64)

/-- A signed value as an unsigned 64-bit one. -/
def asU64 (n : Int) : Nat := (n % 2 ^ 64).toNat

variable {n a : Nat}

theorem u32_of_lt (h : n < 2 ^ 32) : u32 n = n := Nat.mod_eq_of_lt h

theorem i32_of_lt (h : n < 2 ^ 31) : i32 n = n := by
  have hu : u32 n = n := u32_of_lt (by omega)
  rw [i32, hu, if_pos h]

/-- Only values below `2 ^ 31` are read as they are. -/
theorem lt_of_i32_nonneg (h : n < 2 ^ 32) (h0 : 0 ≤ i32 n) : n < 2 ^ 31 := by
  refine Nat.not_le.mp (fun hge => ?_)
  rw [i32, u32_of_lt h, if_neg (Nat.not_lt.mpr hge)] at h0
  omega

theorem u64_of_lt (h : n < 2 ^ 64) : u64 n = n := Nat.mod_eq_of_lt h

/-- A difference that is not negative does not wrap around. -/
theorem wrappingSub64_of_le {b : Nat} (hb : b ≤ a) (ha : a < 2 ^ 64) :
    wrappingSub64 a b = a - b := by
  have hu : u64 b = b := u64_of_lt (by omega)
  rw [wrappingSub64, hu, u64]
  omega

/-- Masking with a run of `n` ones from bit `lo` on selects that field. -/
theorem and_field (e lo n : Nat) :
    e &&& ((2 ^ n - 1) * 2 ^ lo) = e / 2 ^ lo % 2 ^ n * 2 ^ lo := by
  refine Nat.eq_of_testBit_eq (fun i => ?_)
  rw [Nat.testBit_and, ← Nat.shiftLeft_eq, ← Nat.shiftLeft_eq, Nat.testBit_shiftLeft,
    Nat.testBit_shiftLeft, Nat.testBit_two_pow_sub_one, Nat.testBit_mod_two_pow,
    Nat.testBit_div_two_pow]
  by_cases hlo : lo ≤ i
  · rw [Nat.sub_add_cancel hlo]
    cases e.testBit i <;> simp [hlo]
  · simp [hlo]

/-- Setting bits below an aligned value adds them. -/
theorem or_low {f : Nat} (k : Nat) (ha : a % 2 ^ k = 0) (hf : f < 2 ^ k) : a ||| f = a + f := by
  have hdiv : 2 ^ k * (a / 2 ^ k) = a := Nat.mul_div_cancel' (Nat.dvd_of_mod_eq_zero ha)
  have h := Nat.two_pow_add_eq_or_of_lt hf (a / 2 ^ k)
  rw [hdiv] at h
  exact h.symm

theorem u32_lt (n : Nat) : u32 n < 2 ^ 32 := Nat.mod_lt _ (Nat.two_pow_pos 32)

end SysRust
