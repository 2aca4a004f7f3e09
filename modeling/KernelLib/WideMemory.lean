import Mathlib.Data.List.Basic
import Mathlib.Data.Nat.ModEq

/-!
# Memory of wide characters

Blocks of 16-bit characters, as an allocator hands them out and as the
copying routines see them. Lengths of copies are in bytes. A read or a write
outside of a block fails.
-/

namespace KernelLib.WideMemory

/-- `WCHAR`. -/
abbrev WChar := UInt16

/-- What an `unsigned short` keeps. -/
def u16 (n : ℕ) : ℕ := n % 2 ^ 16

theorem u16_lt (n : ℕ) : u16 n < 2 ^ 16 := Nat.mod_lt _ (by decide)

theorem u16_of_lt {n : ℕ} (h : n < 2 ^ 16) : u16 n = n := Nat.mod_eq_of_lt h

/-- An allocator of characters: a block of the length asked for, with whatever
the memory holds, or nothing. -/
structure Pool where
  /-- `new WCHAR[n]`. -/
  new : ℕ → Option (List WChar)
  /-- A block has the length asked for. -/
  length_new : ∀ n b, new n = some b → b.length = n

/-- An allocator that never fails, over zeroed memory. -/
def Pool.zeroed : Pool := ⟨fun n => some (List.replicate n 0), by
  rintro n b h
  rw [← Option.some.inj h, List.length_replicate]⟩

/-- An allocator that always fails. -/
def Pool.exhausted : Pool := ⟨fun _ => none, fun _ _ h => by cases h⟩

/-- The character that is left when the low byte is overwritten. -/
def lowByte (s d : WChar) : WChar := (d &&& 0xFF00) ||| (s &&& 0x00FF)

/-- `RtlCopyMemory` of so many bytes. -/
def copyMemory : List WChar → List WChar → ℕ → Option (List WChar)
  | dst, _, 0 => some dst
  | d :: dst, s :: _, 1 => some (lowByte s d :: dst)
  | _ :: dst, s :: src, n + 2 => (copyMemory dst src n).map (s :: ·)
  | _, _, _ => none

/-- `RtlCopyMemory` of so many bytes, from a character of the block on. -/
def copyMemoryAt (dst : List WChar) (start : ℕ) (src : List WChar) (n : ℕ) : Option (List WChar) :=
  (copyMemory (dst.drop start) src n).map (dst.take start ++ ·)

/-- `RtlCompareMemory` of so many bytes: the number of equal ones in front. -/
def compareMemory : List WChar → List WChar → ℕ → Option ℕ
  | _, _, 0 => some 0
  | a :: _, b :: _, 1 => some (if a &&& 0x00FF = b &&& 0x00FF then 1 else 0)
  | a :: src, b :: src', n + 2 =>
    if a = b then (compareMemory src src' n).map (· + 2)
    else some (if a &&& 0x00FF = b &&& 0x00FF then 1 else 0)
  | _, _, _ + 1 => none

/-- The number of characters before the first NUL. -/
def rawlen : List WChar → Option ℕ
  | [] => none
  | c :: cs => if c = 0 then some 0 else (rawlen cs).map (· + 1)

/-- A NUL-terminated string is read inside of its memory. -/
theorem rawlen_le {buf : List WChar} {k : ℕ} (h : rawlen buf = some k) : k ≤ buf.length := by
  induction buf generalizing k with
  | nil => cases h
  | cons c cs ih =>
    unfold rawlen at h
    split at h
    · exact Option.some.inj h ▸ Nat.zero_le _
    · obtain ⟨j, hj, rfl⟩ := Option.map_eq_some_iff.mp h
      exact Nat.succ_le_succ (ih hj)

/-- The length up to a first NUL is found. -/
theorem rawlen_append_nul {chars : List WChar} (hz : 0 ∉ chars) (rest : List WChar) :
    rawlen (chars ++ 0 :: rest) = some chars.length := by
  induction chars with
  | nil => rfl
  | cons c cs ih =>
    rw [List.mem_cons, not_or] at hz
    rw [List.cons_append, rawlen, if_neg (Ne.symm hz.1), ih hz.2]
    rfl

/-- A length is found in front of the first NUL. -/
theorem exists_of_rawlen {ws : List WChar} {k : ℕ} (h : rawlen ws = some k) :
    ∃ s rest, ws = s ++ 0 :: rest ∧ 0 ∉ s ∧ s.length = k := by
  induction ws generalizing k with
  | nil => cases h
  | cons c cs ih =>
    unfold rawlen at h
    by_cases hc : c = 0
    · rw [if_pos hc] at h
      exact ⟨[], cs, by rw [hc]; rfl, List.not_mem_nil, Option.some.inj h⟩
    · rw [if_neg hc] at h
      obtain ⟨j, hj, rfl⟩ := Option.map_eq_some_iff.mp h
      obtain ⟨s, rest, rfl, hz, rfl⟩ := ih hj
      refine ⟨c :: s, rest, rfl, ?_, rfl⟩
      rw [List.mem_cons, not_or]
      exact ⟨Ne.symm hc, hz⟩

section Copies

variable {dst src : List WChar} {k n : ℕ}

/-- A copy of whole characters, inside of both blocks. -/
theorem copyMemory_chars (hd : k ≤ dst.length) (hs : k ≤ src.length) :
    copyMemory dst src (2 * k) = some (src.take k ++ dst.drop k) := by
  induction k generalizing dst src with
  | zero => simp [copyMemory]
  | succ k ih =>
    cases dst with
    | nil => simp at hd
    | cons d dst =>
      cases src with
      | nil => simp at hs
      | cons s src =>
        rw [List.length_cons] at hd hs
        rw [Nat.mul_succ, copyMemory, ih (by omega) (by omega)]
        simp

/-- A copy that leaves the block fails. -/
theorem copyMemory_outside (hd : dst.length < k) : copyMemory dst src (2 * k) = none := by
  induction k generalizing dst src with
  | zero => simp at hd
  | succ k ih =>
    cases dst with
    | nil => simp [Nat.mul_succ, copyMemory]
    | cons d dst =>
      cases src with
      | nil => simp [Nat.mul_succ, copyMemory]
      | cons s src =>
        rw [List.length_cons] at hd
        rw [Nat.mul_succ, copyMemory, ih (by omega)]
        rfl

/-- A copy behind characters of the block that are kept. -/
theorem copyMemoryAt_spec (dst src : List WChar) (start k : ℕ) (hd : start + k ≤ dst.length)
    (hs : k ≤ src.length) :
    ∃ b, copyMemoryAt dst start src (2 * k) = some b ∧ b.length = dst.length ∧
      b.take (start + k) = dst.take start ++ src.take k := by
  have hcopy : copyMemory (dst.drop start) src (2 * k) = some (src.take k ++ (dst.drop start).drop k) :=
    copyMemory_chars (by rw [List.length_drop]; omega) hs
  refine ⟨dst.take start ++ (src.take k ++ (dst.drop start).drop k), ?_, ?_, ?_⟩
  · rw [copyMemoryAt, hcopy]
    rfl
  · simp only [List.length_append, List.length_take, List.length_drop]
    omega
  · rw [← List.append_assoc, List.take_append_of_le_length, List.take_of_length_le] <;>
      simp only [List.length_append, List.length_take] <;> omega

/-- Whatever the number of bytes, a copy inside of both blocks succeeds, and the
whole characters among them are those of the source. -/
theorem copyMemory_spec (dst src : List WChar) (hd : n ≤ 2 * dst.length) (hs : n ≤ 2 * src.length) :
    ∃ b, copyMemory dst src n = some b ∧ b.length = dst.length ∧
      b.take (n / 2) = src.take (n / 2) := by
  induction dst, src, n using copyMemory.induct with
  | case1 dst src => exact ⟨dst, by simp [copyMemory], rfl, by simp⟩
  | case2 d dst s src => exact ⟨lowByte s d :: dst, by simp [copyMemory], rfl, by simp⟩
  | case3 d dst s src n ih =>
    rw [List.length_cons] at hd hs
    obtain ⟨b, hb, hlen, htake⟩ := ih (by omega) (by omega)
    refine ⟨s :: b, by rw [copyMemory, hb]; rfl,
      by rw [List.length_cons, List.length_cons, hlen], ?_⟩
    have hn : n.succ.succ / 2 = n / 2 + 1 := by omega
    rw [hn, List.take_succ_cons, List.take_succ_cons, htake]
  | case4 dst src n h₀ h₁ h₂ =>
    exfalso
    cases dst with
    | nil => exact h₀ (by simpa using hd)
    | cons d dst =>
      cases src with
      | nil => exact h₀ (by simpa using hs)
      | cons s src =>
        match n with
        | 0 => exact h₀ rfl
        | 1 => exact h₁ d dst s src rfl rfl rfl
        | n + 2 => exact h₂ d dst s src n rfl rfl rfl

end Copies

end KernelLib.WideMemory
