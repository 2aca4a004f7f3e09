import Mathlib.Data.Nat.Basic
import Mathlib.Data.Nat.ModEq

/-!
# Unsigned 32-bit arithmetic

Sums, differences and products of `unsigned` values wrap at `2 ^ 32`. As
long as the exact result is in range it is what the program computes.
-/

namespace KernelLib.Word32

/-- The value an `unsigned` keeps. -/
def u32 (n : ℕ) : ℕ := n % 2 ^ 32

/-- The difference of two `unsigned` values. -/
def sub32 (a b : ℕ) : ℕ := u32 (a + (2 ^ 32 - b % 2 ^ 32))

variable {a b n : ℕ}

theorem u32_lt (n : ℕ) : u32 n < 2 ^ 32 := Nat.mod_lt _ (by decide)

theorem u32_of_lt (h : n < 2 ^ 32) : u32 n = n := Nat.mod_eq_of_lt h

theorem sub32_of_le (h : b ≤ a) (ha : a < 2 ^ 32) : sub32 a b = a - b := by
  simp only [sub32, u32, Nat.mod_eq_of_lt (h.trans_lt ha)]
  omega

theorem sub32_self (h : a < 2 ^ 32) : sub32 a a = 0 := by
  rw [sub32_of_le le_rfl h, Nat.sub_self]

/-- A sum that wraps is taken back by the difference. -/
theorem sub32_u32_add (h : b < 2 ^ 32) : sub32 (u32 (a + b)) (u32 a) = b := by
  simp only [sub32, u32]
  omega

/-- Differences of wrapped values are wrapped differences. -/
theorem sub32_u32 (h : b ≤ a) (hd : a - b < 2 ^ 32) : sub32 (u32 a) (u32 b) = a - b := by
  simp only [sub32, u32]
  omega

/-- Wrapping the summands does not change a wrapped sum. -/
theorem u32_add_u32 (a b : ℕ) : u32 (u32 a + b) = u32 (a + b) := Nat.mod_add_mod a _ b

/-- An exchange of `n` parts of length `k` for parts of length `m`, which the
program computes from the wrapped difference of the lengths. -/
theorem u32_exchange {r s k m : ℕ} (h : r + n * k = s + n * m) (hk : k < 2 ^ 32) (hr : r < 2 ^ 32) :
    u32 (s + u32 (n * sub32 m k)) = r := by
  obtain ⟨d, hd⟩ := Nat.exists_eq_add_of_le (Nat.le_of_lt hk)
  have hsub : 2 ^ 32 - k % 2 ^ 32 = d := by
    rw [Nat.mod_eq_of_lt hk]
    omega
  have hsum : s + n * (m + d) = r + n * 2 ^ 32 := by
    rw [hd, Nat.mul_add, Nat.mul_add]
    omega
  rw [sub32, hsub]
  simp only [u32, Nat.mul_mod_mod, Nat.add_mod_mod]
  rw [hsum, Nat.add_mul_mod_self_right, Nat.mod_eq_of_lt hr]

end KernelLib.Word32
