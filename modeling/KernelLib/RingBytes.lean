import Mathlib.Data.List.Basic
import Mathlib.Data.Nat.Bitwise
import Mathlib.Tactic.Ring

/-!
# Byte buffers used as rings

A copy between buffers fails when it leaves either of them. A range that
starts anywhere in a ring and is not longer than it is written or read by
two copies, up to the end of the buffer and from its beginning. Positions
are counted on without reduction and taken modulo the size on use.
-/

namespace KernelLib.RingBytes

variable {B : Type}

/-- `memcpy` of `n` bytes to position `i` from position `j`. -/
def memcpy (dst : List B) (i : ℕ) (src : List B) (j n : ℕ) : Option (List B) :=
  if i + n ≤ dst.length ∧ j + n ≤ src.length then
    some (dst.take i ++ (src.drop j).take n ++ dst.drop (i + n))
  else none

variable {b : List B} {i j n p k size l : ℕ}

/-- A copy within the bounds puts the bytes in place and keeps the others. -/
theorem memcpy_spec (dst src : List B) (hd : i + n ≤ dst.length) (hs : j + n ≤ src.length) :
    ∃ b, memcpy dst i src j n = some b ∧ b.length = dst.length ∧
      ∀ k, b[k]? = if i ≤ k ∧ k < i + n then src[j + (k - i)]? else dst[k]? := by
  refine ⟨_, if_pos ⟨hd, hs⟩, ?_, fun k => ?_⟩
  · simp only [List.length_append, List.length_take, List.length_drop]
    omega
  · have htake : (dst.take i).length = i := List.length_take_of_le (by omega)
    have hmid : ((src.drop j).take n).length = n := by
      simp only [List.length_take, List.length_drop]
      omega
    rw [List.append_assoc]
    by_cases h₁ : k < i
    · rw [List.getElem?_append_left (by omega), List.getElem?_take_of_lt h₁, if_neg (by omega)]
    · rw [List.getElem?_append_right (by omega), htake]
      by_cases h₂ : k < i + n
      · rw [List.getElem?_append_left (by omega), List.getElem?_take_of_lt (by omega),
          List.getElem?_drop, if_pos (by omega)]
      · rw [List.getElem?_append_right (by omega), hmid, List.getElem?_drop, if_neg (by omega)]
        congr 1
        omega

/-- A copy of nothing. -/
theorem memcpy_zero {dst src : List B} (hd : i ≤ dst.length) (hs : j ≤ src.length) :
    memcpy dst i src j 0 = some dst := by
  rw [memcpy, if_pos ⟨hd, hs⟩]
  simp

/-- The mask of a power of two takes a remainder. -/
theorem and_mask (p k : ℕ) : p &&& (2 ^ k - 1) = p % 2 ^ k := Nat.and_two_pow_sub_one_eq_mod p k

/-- Where a position lies that is less than one round ahead. -/
theorem add_mod_size (hj : j < size) :
    (p + j) % size = if p % size + j < size then p % size + j else p % size + j - size := by
  have hp : p % size < size := Nat.mod_lt _ (by omega)
  rw [Nat.add_mod, Nat.mod_eq_of_lt hj]
  split_ifs with h
  · exact Nat.mod_eq_of_lt h
  · rw [Nat.mod_eq_sub_mod (by omega), Nat.mod_eq_of_lt (by omega)]

/-- Positions less than one round apart are different. -/
theorem add_mod_inj (hi : i < size) (hj : j < size) (h : (p + i) % size = (p + j) % size) :
    i = j := by
  rw [add_mod_size hi, add_mod_size hj] at h
  have hp : p % size < size := Nat.mod_lt _ (by omega)
  split_ifs at h <;> omega

/-- Positions in one round from `p` on are different. -/
theorem mod_ne_mod (hk : p ≤ k) (hkj : k < j) (hj : j < p + size) : k % size ≠ j % size := by
  intro heq
  have hkp : p + (k - p) = k := by omega
  have hjp : p + (j - p) = j := by omega
  rw [← hkp, ← hjp] at heq
  have hij := add_mod_inj (by omega) (by omega) heq
  omega

/-- Two copies write a range of a ring. -/
theorem write_spec (src : List B) (p : ℕ) (hb : b.length = size) (hpos : 0 < size) (hn : n ≤ size)
    (hs : n ≤ src.length) (hl : l = min n (size - p % size)) :
    ∃ b₁ b₂, memcpy b (p % size) src 0 l = some b₁ ∧ memcpy b₁ 0 src l (n - l) = some b₂ ∧
      b₂.length = size ∧ (∀ j, j < n → b₂[(p + j) % size]? = src[j]?) ∧
      ∀ k, (∀ j, j < n → (p + j) % size ≠ k) → b₂[k]? = b[k]? := by
  have hp : p % size < size := Nat.mod_lt _ hpos
  obtain ⟨b₁, h₁, hlen₁, hget₁⟩ := memcpy_spec b src (i := p % size) (j := 0) (n := l)
    (by omega) (by omega)
  obtain ⟨b₂, h₂, hlen₂, hget₂⟩ := memcpy_spec b₁ src (i := 0) (j := l) (n := n - l)
    (by omega) (by omega)
  refine ⟨b₁, b₂, h₁, h₂, by omega, fun j hj => ?_, fun k hk => ?_⟩
  · rw [hget₂, hget₁, add_mod_size (by omega)]
    split_ifs <;> first
      | omega
      | exact congrArg (src[·]?) (by omega)
  · rw [hget₂, hget₁]
    have hfirst : ¬(p % size ≤ k ∧ k < p % size + l) := fun hin =>
      hk (k - p % size) (by omega) (by rw [add_mod_size (by omega), if_pos (by omega)]; omega)
    have hsecond : ¬(0 ≤ k ∧ k < 0 + (n - l)) := fun hin =>
      hk (l + k) (by omega) (by rw [add_mod_size (by omega), if_neg (by omega)]; omega)
    rw [if_neg hsecond, if_neg hfirst]

/-- Two copies read a range of a ring. -/
theorem read_spec (dst : List B) (p : ℕ) (hb : b.length = size) (hpos : 0 < size) (hn : n ≤ size)
    (hd : n ≤ dst.length) (hl : l = min n (size - p % size)) :
    ∃ d₁ d₂, memcpy dst 0 b (p % size) l = some d₁ ∧ memcpy d₁ l b 0 (n - l) = some d₂ ∧
      d₂.length = dst.length ∧ (∀ j, j < n → d₂[j]? = b[(p + j) % size]?) ∧
      ∀ k, n ≤ k → d₂[k]? = dst[k]? := by
  have hp : p % size < size := Nat.mod_lt _ hpos
  obtain ⟨d₁, h₁, hlen₁, hget₁⟩ := memcpy_spec dst b (i := 0) (j := p % size) (n := l)
    (by omega) (by omega)
  obtain ⟨d₂, h₂, hlen₂, hget₂⟩ := memcpy_spec d₁ b (i := l) (j := 0) (n := n - l)
    (by omega) (by omega)
  refine ⟨d₁, d₂, h₁, h₂, by omega, fun j hj => ?_, fun k hk => ?_⟩
  · rw [hget₂, hget₁, add_mod_size (by omega)]
    split_ifs <;> first
      | omega
      | exact congrArg (b[·]?) (by omega)
  · rw [hget₂, hget₁, if_neg (by omega), if_neg (by omega)]

end KernelLib.RingBytes
