import Mathlib.Data.Nat.ModEq
import KernelLib.WideMemory

/-!
# Little-endian bytes

Numbers as bytes, lowest first, and 16-bit characters as two bytes each. A
byte that is left over makes no character.
-/

namespace KernelLib.LittleEndian

open WideMemory

/-- The lowest bytes of a number. -/
def toBytes : ℕ → ℕ → List UInt8
  | 0, _ => []
  | n + 1, v => UInt8.ofNat (v % 256) :: toBytes n (v / 256)

/-- The number of some bytes. -/
def ofBytes : List UInt8 → ℕ
  | [] => 0
  | b :: bs => b.toNat + 256 * ofBytes bs

/-- The bytes of characters. -/
def wideBytes (s : List WChar) : List UInt8 := s.flatMap fun c => toBytes 2 c.toNat

/-- The characters in some bytes. -/
def wideChars : List UInt8 → List WChar
  | lo :: hi :: rest => UInt16.ofNat (ofBytes [lo, hi]) :: wideChars rest
  | _ => []

variable {n v : ℕ} {s : List WChar}

@[simp] theorem length_toBytes (n v : ℕ) : (toBytes n v).length = n := by
  induction n generalizing v with
  | zero => rfl
  | succ n ih => rw [toBytes, List.length_cons, ih]

/-- The bytes of a number give it back, as far as they reach. -/
theorem ofBytes_toBytes (n v : ℕ) : ofBytes (toBytes n v) = v % 256 ^ n := by
  induction n generalizing v with
  | zero => simp [toBytes, ofBytes, Nat.mod_one]
  | succ n ih =>
    have hbyte : (UInt8.ofNat (v % 256)).toNat = v % 256 := by
      rw [UInt8.toNat_ofNat']
      exact Nat.mod_mod v 256
    rw [toBytes, ofBytes, ih, hbyte, Nat.pow_succ', Nat.mod_mul]

theorem wideChars_cons (c : WChar) (rest : List UInt8) :
    wideChars (toBytes 2 c.toNat ++ rest) = c :: wideChars rest := by
  have hlt : c.toNat < 256 ^ 2 := c.toNat_lt
  have hback := ofBytes_toBytes 2 c.toNat
  rw [Nat.mod_eq_of_lt hlt] at hback
  simp only [toBytes, List.cons_append, List.nil_append, wideChars] at hback ⊢
  rw [hback, UInt16.ofNat_toNat]

/-- The bytes of characters give them back, whatever follows. -/
theorem wideChars_wideBytes (s : List WChar) (rest : List UInt8) :
    wideChars (wideBytes s ++ rest) = s ++ wideChars rest := by
  induction s with
  | nil => rfl
  | cons c s ih =>
    rw [wideBytes, List.flatMap_cons, List.append_assoc, wideChars_cons, ← wideBytes, ih]
    rfl

theorem wideBytes_append (s t : List WChar) : wideBytes (s ++ t) = wideBytes s ++ wideBytes t :=
  List.flatMap_append

@[simp] theorem length_wideBytes (s : List WChar) : (wideBytes s).length = 2 * s.length := by
  induction s with
  | nil => rfl
  | cons c s ih =>
    rw [wideBytes, List.flatMap_cons, List.length_append, ← wideBytes, ih, length_toBytes,
      List.length_cons]
    omega

/-- Bytes cut off take the characters in them away. -/
theorem wideChars_take (n : ℕ) (s : List WChar) :
    wideChars ((wideBytes s).take n) = s.take (n / 2) := by
  induction s generalizing n with
  | nil => simp [wideBytes, wideChars]
  | cons c s ih =>
    match n with
    | 0 => rfl
    | 1 => rfl
    | n + 2 =>
      have hcut : (wideBytes (c :: s)).take (n + 2) = toBytes 2 c.toNat ++ (wideBytes s).take n := by
        rw [wideBytes, List.flatMap_cons, ← wideBytes, List.take_append,
          List.take_of_length_le (by simp), length_toBytes, Nat.add_sub_cancel]
      have hhalf : (n + 2) / 2 = n / 2 + 1 := by omega
      rw [hcut, wideChars_cons, ih, hhalf, List.take_succ_cons]

end KernelLib.LittleEndian
