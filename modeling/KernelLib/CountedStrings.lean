import KernelLib.WideMemory
import KernelLib.Word32
import Mathlib.Tactic.SplitIfs

/-!
# Counted strings

`skl::string` owns a `UNICODE_STRING`: two lengths in bytes and a buffer. The
constructors, the assignments and the members that change a string in place,
with the 16-bit casts of the source. A buffer is the block that was allocated
for it, or, in a `UNICODE_STRING` of somebody else, the memory that can be
read through the pointer. What an allocation gives is a parameter; an
operation that copies outside of a block fails.
-/

namespace KernelLib.CountedStrings

open WideMemory Word32

/-- `UNICODE_STRING`. -/
structure UnicodeString where
  /-- `Length`, in bytes. -/
  length : ℕ
  /-- `MaximumLength`, in bytes. -/
  maximumLength : ℕ
  /-- `Buffer`. -/
  buffer : Option (List WChar)
  length_lt : length < 2 ^ 16
  maximumLength_lt : maximumLength < 2 ^ 16
  deriving DecidableEq

/-- `npos`. -/
def npos : ℕ := 2 ^ 32 - 1

/-- `skl::string`. -/
structure SklString where
  /-- `_unicodeStr`. -/
  unicodeStr : UnicodeString
  deriving DecidableEq

namespace UnicodeString

/-- The memory behind `Buffer`. -/
def memory (us : UnicodeString) : List WChar := us.buffer.getD []

/-- The characters that a string describes. -/
def wchars (us : UnicodeString) : List WChar := us.memory.take (us.length / 2)

/-- Its memory holds the characters that it describes. -/
def Readable (us : UnicodeString) : Prop := us.length / 2 ≤ us.memory.length

end UnicodeString

namespace SklString

/-- `string()`. -/
def null : SklString := ⟨⟨0, 0, none, by decide, by decide⟩⟩

/-- `length()`. -/
def length (s : SklString) : ℕ := if s.unicodeStr.buffer.isSome then s.unicodeStr.length / 2 else 0

/-- `isValid()`. -/
def isValid (s : SklString) : Bool := s.unicodeStr.buffer.isSome

/-- The characters of a string. -/
def wchars (s : SklString) : List WChar := s.unicodeStr.wchars

end SklString

/-- The common part of both `Initialize`: allocate two bytes more than the
characters take, and copy them. -/
def initializeWith (pool : Pool) (realLen : ℕ) (h : realLen < 2 ^ 16)
    (source : Option (List WChar)) : Option SklString :=
  let maximumLength := u16 (realLen + 2)
  match pool.new (maximumLength / 2) with
  | none => some .null
  | some b =>
    if realLen = 0 then some ⟨⟨realLen, maximumLength, some b, h, u16_lt _⟩⟩
    else do
      let source ← source
      let b ← copyMemory b source realLen
      return ⟨⟨realLen, maximumLength, some b, h, u16_lt _⟩⟩

/-- `realLen` of a `UNICODE_STRING`. -/
def realLen (us : UnicodeString) : ℕ :=
  let strLen := us.length / 2
  let realLen := u16 (strLen * 2)
  if realLen > us.maximumLength then us.maximumLength else realLen

theorem realLen_lt (us : UnicodeString) : realLen us < 2 ^ 16 := by
  have hu := u16_lt (us.length / 2 * 2)
  have hm := us.maximumLength_lt
  simp only [realLen]
  split_ifs <;> assumption

/-- `Initialize(const UNICODE_STRING&)`. -/
def initializeUnicode (pool : Pool) (us : UnicodeString) : Option SklString :=
  initializeWith pool (realLen us) (realLen_lt us) us.buffer

/-- `Initialize(const wchar_t*, unsigned)`. -/
def initializeBuf (pool : Pool) (buf : List WChar) (strLen : ℕ) : Option SklString :=
  initializeWith pool (u16 (u16 strLen * 2)) (u16_lt _) (some buf)

/-- `string(unsigned size)`. -/
def ofSize (pool : Pool) (size : ℕ) : SklString :=
  let buffer := if 0 < size then pool.new size else none
  ⟨⟨0, u16 (if buffer.isSome then u32 (size * 2) else 0), buffer, by decide, u16_lt _⟩⟩

/-- `string(const UNICODE_STRING&)`. -/
def ofUnicode (pool : Pool) (us : UnicodeString) : Option SklString := initializeUnicode pool us

/-- `string(const wchar_t*, unsigned)`. -/
def ofBuf (pool : Pool) (buf : List WChar) (strLen : ℕ) : Option SklString := do
  let strLen ← if strLen = npos then rawlen buf else some strLen
  initializeBuf pool buf strLen

/-- `string(const string&)`. -/
def copy (pool : Pool) (s : SklString) : Option SklString :=
  if 0 < s.length then
    let maxlen := s.unicodeStr.length / 2 + 1
    match pool.new maxlen with
    | none => some .null
    | some b => do
      let b ← copyMemory b s.unicodeStr.memory s.unicodeStr.length
      return ⟨⟨s.unicodeStr.length, u16 (u16 maxlen * 2), some b, s.unicodeStr.length_lt, u16_lt _⟩⟩
  else some .null

/-- `clear()`. -/
def clear (t : SklString) : SklString :=
  ⟨{ t.unicodeStr with length := 0, length_lt := by decide }⟩

/-- The reallocation in `operator=(const string&)`: the old block is gone, and
`MaximumLength` is written when there is a new one. -/
def reallocate (pool : Pool) (maxlen : ℕ) (t : SklString) : SklString :=
  match pool.new maxlen with
  | none => ⟨{ t.unicodeStr with buffer := none }⟩
  | some b =>
    ⟨{ t.unicodeStr with
      buffer := some b
      maximumLength := u16 (u16 maxlen * 2)
      maximumLength_lt := u16_lt _ }⟩

/-- `operator=(const string&)`, from another string. -/
def assign (pool : Pool) (t s : SklString) : Option SklString :=
  let t := clear t
  if 0 < s.length then
    let t :=
      if s.unicodeStr.length ≥ t.unicodeStr.maximumLength then
        reallocate pool (s.unicodeStr.length / 2 + 1) t
      else t
    match t.unicodeStr.buffer with
    | none => some t
    | some b => do
      let b ← copyMemory b s.unicodeStr.memory s.unicodeStr.length
      return ⟨{ t.unicodeStr with
        length := s.unicodeStr.length
        length_lt := s.unicodeStr.length_lt
        buffer := some b }⟩
  else some t

/-- `replace(WCHAR, WCHAR)`. -/
def replace (old nc : WChar) (s : SklString) : SklString :=
  if s.length < 1 then s
  else
    ⟨{ s.unicodeStr with
      buffer := s.unicodeStr.buffer.map fun b =>
        (b.take s.length).map (fun c => if c = old then nc else c) ++ b.drop s.length }⟩

/-- The lengths of a string agree with its buffer. -/
structure Sound (s : SklString) : Prop where
  length_le : s.unicodeStr.length ≤ s.unicodeStr.maximumLength
  maximumLength_le : s.unicodeStr.maximumLength ≤ 2 * s.unicodeStr.memory.length

section Facts

variable {pool : Pool} {s t : SklString} {n : ℕ} {source : Option (List WChar)}

theorem sound_null : Sound .null := ⟨le_rfl, le_rfl⟩

/-- A null buffer has no length. -/
theorem Sound.null (h : Sound s) (hb : s.unicodeStr.buffer = none) :
    s.unicodeStr.length = 0 ∧ s.unicodeStr.maximumLength = 0 := by
  have h₁ := h.length_le
  have h₂ := h.maximumLength_le
  rw [UnicodeString.memory, hb, Option.getD_none, List.length_nil] at h₂
  omega

/-- Its memory holds the characters of a string. -/
theorem Sound.readable (h : Sound s) : s.unicodeStr.Readable := by
  have h₁ := h.length_le
  have h₂ := h.maximumLength_le
  unfold UnicodeString.Readable
  omega

theorem Sound.length_eq (h : Sound s) : s.length = s.unicodeStr.length / 2 := by
  unfold SklString.length
  cases hb : s.unicodeStr.buffer with
  | none => simp [(h.null hb).1]
  | some b => simp

theorem Sound.wchars_length (h : Sound s) : s.wchars.length = s.length := by
  have hr := h.readable
  rw [h.length_eq, SklString.wchars, UnicodeString.wchars, List.length_take]
  exact Nat.min_eq_left hr

/-- A string with characters has a buffer. -/
theorem buffer_of_length_pos (h : 0 < s.length) : ∃ b, s.unicodeStr.buffer = some b := by
  unfold SklString.length at h
  cases hb : s.unicodeStr.buffer with
  | none => simp [hb] at h
  | some b => exact ⟨b, rfl⟩

/-- Both constructors of a string that fits: the string has its characters, or
the allocation failed. -/
theorem initializeWith_spec (pool : Pool) (source : Option (List WChar)) (h : n < 2 ^ 16)
    (hn : n + 2 < 2 ^ 16) (heven : n % 2 = 0) (hs : n ≤ 2 * (source.getD []).length) :
    ∃ s, initializeWith pool n h source = some s ∧ Sound s ∧
      (s = .null ∧ pool.new (n / 2 + 1) = none ∨
        s.isValid ∧ s.unicodeStr.length = n ∧ s.wchars = (source.getD []).take (n / 2)) := by
  have hmax : u16 (n + 2) = n + 2 := u16_of_lt hn
  have hhalf : (n + 2) / 2 = n / 2 + 1 := by omega
  unfold initializeWith
  simp only [hmax, hhalf]
  cases hb : pool.new (n / 2 + 1) with
  | none => exact ⟨.null, rfl, sound_null, .inl ⟨rfl, rfl⟩⟩
  | some b =>
    have hlen := pool.length_new _ _ hb
    by_cases hz : n = 0
    · refine ⟨⟨⟨n, n + 2, some b, h, hn⟩⟩, by simp [hz], ⟨?_, ?_⟩, .inr ⟨rfl, rfl, ?_⟩⟩
      · simp
      · simp only [UnicodeString.memory, Option.getD_some, hlen]
        omega
      · simp [SklString.wchars, UnicodeString.wchars, hz]
    · cases source with
      | none =>
        rw [Option.getD_none, List.length_nil] at hs
        omega
      | some source =>
        obtain ⟨b', hcopy, hlen', htake⟩ := copyMemory_spec b source (n := n) (by omega) hs
        refine ⟨⟨⟨n, n + 2, some b', h, hn⟩⟩, by simp [hz, hcopy], ⟨?_, ?_⟩, .inr ⟨rfl, rfl, htake⟩⟩
        · simp
        · simp only [UnicodeString.memory, Option.getD_some, hlen', hlen]
          omega

/-- A string of 32767 characters gets a block without room for any of them. -/
theorem initializeWith_overflow (h : 65534 < 2 ^ 16) (source : Option (List WChar)) :
    initializeWith .zeroed 65534 h source = none := by
  have hmax : u16 (65534 + 2) = 0 := by decide
  unfold initializeWith
  simp only [hmax, Pool.zeroed, Nat.zero_div, List.replicate_zero]
  cases source with
  | none => simp
  | some source =>
    have hcopy : copyMemory [] source 65534 = none :=
      copyMemory_outside (k := 32767) (by simp)
    simp [hcopy]

/-- A copy of a string that fits: it has the characters, or the allocation
failed, or there was nothing to copy. -/
theorem copy_spec (pool : Pool) (h : Sound s) (hn : s.unicodeStr.length < 2 ^ 16 - 2) :
    ∃ c, copy pool s = some c ∧ Sound c ∧ c.unicodeStr.length ≤ s.unicodeStr.length ∧
      (c = .null ∧ (0 < s.length → pool.new (s.length + 1) = none) ∨
        0 < s.length ∧ c.isValid ∧ c.wchars = s.wchars) := by
  unfold copy
  by_cases hpos : 0 < s.length
  · have hlen := h.length_eq
    have hmax : u16 (u16 (s.unicodeStr.length / 2 + 1) * 2) = (s.unicodeStr.length / 2 + 1) * 2 := by
      unfold u16
      omega
    rw [if_pos hpos]
    simp only [hmax]
    cases hb : pool.new (s.unicodeStr.length / 2 + 1) with
    | none => exact ⟨.null, rfl, sound_null, Nat.zero_le _, .inl ⟨rfl, fun _ => hlen ▸ hb⟩⟩
    | some b =>
      have hblen := pool.length_new _ _ hb
      have hle := h.length_le.trans h.maximumLength_le
      obtain ⟨b', hcopy, hlen', htake⟩ := copyMemory_spec b s.unicodeStr.memory
        (n := s.unicodeStr.length) (by omega) hle
      refine ⟨⟨⟨s.unicodeStr.length, (s.unicodeStr.length / 2 + 1) * 2, some b',
        s.unicodeStr.length_lt, by omega⟩⟩, by simp [hcopy], ⟨?_, ?_⟩, le_rfl, .inr ⟨hpos, rfl, htake⟩⟩
      · simp only
        omega
      · simp only [UnicodeString.memory, Option.getD_some]
        omega
  · refine ⟨.null, by rw [if_neg hpos], sound_null, Nat.zero_le _, .inl ⟨rfl, fun h' => ?_⟩⟩
    exact absurd h' hpos

end Facts

end KernelLib.CountedStrings
