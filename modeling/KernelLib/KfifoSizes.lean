import KernelLib.KfifoRefines
import Mathlib.Order.Bounds.Basic

/-!
# The size of a fifo

`kfifo_alloc` asks for a power of two. The number of places by which
`roundup_pow_of_two` shifts is the length in bits of what comes before the
size, and an `unsigned long` has 32 bits: from `2 ^ 31 + 1` on there is no
power of two to be had and the shift is not defined.
-/

namespace KernelLib.KfifoSizes

open KfifoBytes KfifoRefines Word32

variable {n c : ℕ}

/-- The powers of two that are not less than a number. -/
def powersFrom (n : ℕ) : Set ℕ := {c | (∃ k, c = 2 ^ k) ∧ n ≤ c}

/-- A pool that gives buffers of the size asked for. -/
def Gives {B : Type} (pool : ℕ → Option (List B)) : Prop :=
  ∀ size buffer, pool size = some buffer → buffer.length = size

/-- The sizes are rounded up by a shift that is defined. -/
structure RoundsUp (B : Type) (n : ℕ) : Prop where
  /-- The size recorded by an allocation that succeeds. -/
  size : ∀ (pool : ℕ → Option (List B)) given fifo, Gives pool →
    kfifoAllocFrom pool given n = some (some fifo) → IsLeast (powersFrom n) fifo.size
  /-- The places of the shift, where there is one. -/
  shift : n &&& sub32 n 1 ≠ 0 → highestBit (sub32 n 1) < 32
  /-- What the loop of `highest_bit` ends with. -/
  bits : highestBit (sub32 n 1) = Nat.size (sub32 n 1)

/-- A power of two is the least one from itself on. -/
theorem isLeast_two_pow (k : ℕ) : IsLeast (powersFrom (2 ^ k)) (2 ^ k) :=
  ⟨⟨⟨k, rfl⟩, le_rfl⟩, fun _ hc => hc.2⟩

/-- The length in bits of the number before gives the least power of two. -/
theorem isLeast_two_pow_size (hpos : 0 < n) : IsLeast (powersFrom n) (2 ^ Nat.size (n - 1)) := by
  have hlt := Nat.lt_size_self (n - 1)
  refine ⟨⟨⟨_, rfl⟩, by omega⟩, ?_⟩
  rintro c ⟨⟨k, rfl⟩, hk⟩
  have hsize : Nat.size (n - 1) ≤ k := Nat.size_le.mpr (by omega)
  exact Nat.pow_le_pow_right two_pos hsize

/-- What is asked for is the least power of two. -/
theorem allocSize_isLeast (hpos : 0 < n) (hn : n < 2 ^ 32) (hc : allocSize n = some c) :
    IsLeast (powersFrom n) c := by
  have hsub : sub32 n 1 = n - 1 := sub32_of_le hpos hn
  rw [allocSize, hsub] at hc
  by_cases h : n &&& (n - 1) = 0
  · rw [if_neg (by simpa using h)] at hc
    obtain rfl := Option.some.inj hc
    obtain ⟨k, rfl⟩ := (Nat.and_sub_one_eq_zero_iff_isPowerOfTwo hpos.ne').mp h
    exact isLeast_two_pow k
  · rw [if_pos h, roundupPowOfTwo, hsub, highestBit_eq] at hc
    split at hc
    · obtain rfl := Option.some.inj hc
      exact isLeast_two_pow_size hpos
    · cases hc

/-- The shift is by 32 places or more exactly from `2 ^ 31 + 1` on. -/
theorem shift_lt_iff (hpos : 0 < n) (hn : n < 2 ^ 32) :
    (n &&& sub32 n 1 ≠ 0 → highestBit (sub32 n 1) < 32) ↔ n ≤ 2 ^ 31 := by
  rw [sub32_of_le hpos hn, highestBit_eq]
  constructor
  · intro h
    by_contra hlt
    have hne : n &&& (n - 1) ≠ 0 := fun hz => by
      obtain ⟨k, rfl⟩ := (Nat.and_sub_one_eq_zero_iff_isPowerOfTwo hpos.ne').mp hz
      have h₁ : k < 32 := (Nat.pow_lt_pow_iff_right one_lt_two).mp hn
      have h₂ : 31 < k := (Nat.pow_lt_pow_iff_right one_lt_two).mp (not_le.mp hlt)
      omega
    have hsize : Nat.size (n - 1) ≤ 31 := Nat.lt_succ_iff.mp (h hne)
    have := Nat.size_le.mp hsize
    omega
  · intro hle _
    exact Nat.lt_succ_iff.mpr (Nat.size_le.mpr (by omega))

/-- For a requested size: the fifo has the least power of two that is not less,
by a shift of fewer than 32 places, exactly up to `2 ^ 31`. -/
theorem roundsUp_iff (B : Type) (hpos : 1 ≤ n) (hn : n < 2 ^ 32) :
    RoundsUp B n ↔ n ≤ 2 ^ 31 := by
  refine ⟨fun h => (shift_lt_iff hpos hn).mp h.shift, fun hle => ⟨?_, ?_, highestBit_eq _⟩⟩
  · intro pool given fifo hpool halloc
    obtain ⟨c, hc, halloc⟩ := Option.map_eq_some_iff.mp halloc
    obtain ⟨buffer, hbuffer, hfifo⟩ := Option.bind_eq_some_iff.mp halloc
    have hsize : fifo.size = c := by
      split at hfifo
      · rw [← Option.some.inj hfifo]
        exact hpool c buffer hbuffer
      · cases hfifo
    rw [hsize]
    exact allocSize_isLeast hpos hn hc
  · exact (shift_lt_iff hpos hn).mpr hle

/-- A fifo for five bytes has eight. -/
theorem roundsUp_five : RoundsUp UInt8 5 := (roundsUp_iff UInt8 (by decide) (by decide)).mpr (by decide)

/-- The shift for `2 ^ 31 + 1` bytes would be by 32 places. -/
theorem not_roundsUp_next : ¬RoundsUp UInt8 (2 ^ 31 + 1) := by
  intro h
  have hsub : sub32 (2 ^ 31 + 1) 1 = 2 ^ 31 := by decide
  have hshift := h.shift (by rw [hsub]; decide)
  rw [hsub, highestBit_eq, Nat.size_pow] at hshift
  exact absurd hshift (by decide)

end KernelLib.KfifoSizes
