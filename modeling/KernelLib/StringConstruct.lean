import KernelLib.CountedStrings

/-!
# Constructing strings

A `skl::string` is constructed from a `UNICODE_STRING` or from a pointer and a
number of characters, and copied. `MaximumLength` has to count the characters
and a terminator in 16 bits, which it can for up to 32766 characters. The
longest source wraps it to zero, and the copy then leaves the block.
-/

namespace KernelLib.StringConstruct

open WideMemory CountedStrings

/-- What a string is constructed from. -/
inductive Source where
  /-- `string(const UNICODE_STRING&)`. -/
  | unicode (us : UnicodeString)
  /-- `string(const wchar_t*, unsigned)`. -/
  | buffer (buf : List WChar) (n : ℕ)

/-- The lengths of a `UNICODE_STRING` are in order, and at most 32767
characters are given, which can be read. -/
def Source.WellFormed : Source → Prop
  | .unicode us => us.length ≤ us.maximumLength ∧ us.Readable
  | .buffer buf n => n ≤ 32767 ∧ n ≤ buf.length

/-- The characters of the source. -/
def Source.wchars : Source → List WChar
  | .unicode us => us.wchars
  | .buffer buf n => buf.take n

/-- Construct a string. -/
def construct (pool : Pool) : Source → Option SklString
  | .unicode us => ofUnicode pool us
  | .buffer buf n => ofBuf pool buf n

/-- Some allocation fails. -/
def Refuses (pool : Pool) : Prop := ∃ n, pool.new n = none

/-- A string is null because an allocation failed, or it has these characters,
inside of the block allocated for it. -/
def Holds (source : List WChar) (refused : Prop) (s : SklString) : Prop :=
  (s.unicodeStr.buffer = none ∧ s.unicodeStr.length = 0 ∧ refused) ∨
    (s.wchars = source ∧ s.unicodeStr.length ≤ s.unicodeStr.maximumLength ∧
      s.unicodeStr.maximumLength ≤ 2 * s.unicodeStr.memory.length)

/-- Construction and a copy of the result are exact and copy inside of their
blocks, whatever the allocations give. -/
def Exact (source : Source) : Prop :=
  ∀ pool pool', ∃ s, construct pool source = some s ∧ Holds source.wchars (Refuses pool) s ∧
    ∃ c, copy pool' s = some c ∧ Holds source.wchars (Refuses pool ∨ Refuses pool') c

variable {source : Source}

/-- The number of bytes that a constructor copies. -/
def Source.bytes (source : Source) : ℕ := 2 * source.wchars.length

theorem Source.WellFormed.length_le (h : source.WellFormed) : source.wchars.length ≤ 32767 := by
  cases source with
  | unicode us =>
    have hlt := us.length_lt
    simp only [Source.wchars, UnicodeString.wchars, List.length_take]
    omega
  | buffer buf n =>
    simp only [Source.wchars, List.length_take]
    exact (Nat.min_le_left _ _).trans h.1

/-- Both constructors allocate for, and copy, the characters of the source. -/
theorem construct_eq (h : source.WellFormed) (pool : Pool) :
    ∃ hlt memory, construct pool source = initializeWith pool source.bytes hlt memory ∧
      source.wchars = (memory.getD []).take source.wchars.length := by
  cases source with
  | unicode us =>
    obtain ⟨hle, hr⟩ := h
    have hlt := us.length_lt
    have hlen : us.wchars.length = us.length / 2 := by
      rw [UnicodeString.wchars, List.length_take]
      exact Nat.min_eq_left hr
    have hreal : realLen us = 2 * us.wchars.length := by
      have hu : u16 (us.length / 2 * 2) = us.length / 2 * 2 := u16_of_lt (by omega)
      simp only [realLen, hu, hlen]
      rw [if_neg (by omega)]
      omega
    refine ⟨by simp only [Source.bytes, Source.wchars, hlen]; omega, us.buffer, ?_, ?_⟩
    · simp only [construct, ofUnicode, initializeUnicode, Source.bytes, Source.wchars, hreal]
    · simp only [Source.wchars, hlen]
      rfl
  | buffer buf n =>
    obtain ⟨hn, hb⟩ := h
    have hlen : (buf.take n).length = n := by
      rw [List.length_take]
      exact Nat.min_eq_left hb
    have hne : n ≠ npos := by
      unfold npos
      omega
    have hreal : u16 (u16 n * 2) = 2 * n := by
      unfold u16
      omega
    refine ⟨by simp only [Source.bytes, Source.wchars, hlen]; omega, some buf, ?_, ?_⟩
    · simp only [construct, ofBuf, if_neg hne, Option.bind_eq_bind, Option.bind_some,
        initializeBuf, hreal, Source.bytes, Source.wchars, hlen]
    · simp only [Source.wchars, hlen]
      rfl

/-- A source that leaves room for the terminator is held exactly. -/
theorem exact_of_le (h : source.WellFormed) (hle : source.wchars.length ≤ 32766) :
    Exact source := by
  intro pool pool'
  obtain ⟨hlt, memory, hcon, hw⟩ := construct_eq h pool
  have hmem : source.wchars.length ≤ (memory.getD []).length := by
    have hlen := congrArg List.length hw
    rw [List.length_take] at hlen
    omega
  have hhalf : source.bytes / 2 = source.wchars.length := by
    unfold Source.bytes
    omega
  obtain ⟨s, hs, hsound, hres⟩ := initializeWith_spec pool memory hlt
    (by unfold Source.bytes; omega) (by unfold Source.bytes; omega)
    (by unfold Source.bytes; omega)
  rw [hhalf, ← hw] at hres
  have hlen : s.unicodeStr.length < 2 ^ 16 - 2 := by
    rcases hres with ⟨rfl, -⟩ | ⟨-, hl, -⟩
    · decide
    · rw [hl, Source.bytes]
      omega
  obtain ⟨c, hc, hcsound, -, hcres⟩ := copy_spec pool' hsound hlen
  refine ⟨s, hcon.trans hs, ?_, c, hc, ?_⟩
  · rcases hres with ⟨rfl, hfail⟩ | ⟨-, -, hchars⟩
    · exact .inl ⟨rfl, rfl, _, hfail⟩
    · exact .inr ⟨hchars, hsound.length_le, hsound.maximumLength_le⟩
  · rcases hcres with ⟨rfl, hfail⟩ | ⟨hpos, -, hchars⟩
    · rcases hres with ⟨-, hrefused⟩ | ⟨-, -, hchars⟩
      · exact .inl ⟨rfl, rfl, .inl ⟨_, hrefused⟩⟩
      · by_cases hpos : 0 < s.length
        · exact .inl ⟨rfl, rfl, .inr ⟨_, hfail hpos⟩⟩
        · -- an empty string has no characters, and neither has the null string
          have hnil : source.wchars = [] := by
            rw [← hchars, ← List.length_eq_zero_iff, hsound.wchars_length]
            omega
          exact .inr ⟨by rw [hnil]; rfl, le_rfl, le_rfl⟩
    · rcases hres with ⟨rfl, -⟩ | ⟨-, -, hchars'⟩
      · exact absurd hpos (by decide)
      · exact .inr ⟨hchars.trans hchars', hcsound.length_le, hcsound.maximumLength_le⟩

/-- The longest source overflows the block. -/
theorem not_exact_of_longest (h : source.WellFormed) (hlen : source.wchars.length = 32767) :
    ¬Exact source := by
  intro hex
  obtain ⟨s, hs, -⟩ := hex .zeroed .zeroed
  obtain ⟨hlt, memory, hcon, -⟩ := construct_eq h .zeroed
  have hbytes : source.bytes = 65534 := by rw [Source.bytes, hlen]
  simp only [hbytes] at hcon
  rw [hcon, initializeWith_overflow] at hs
  cases hs

/-- Construction is exact, and in bounds, for up to 32766 characters. -/
theorem exact_iff (h : source.WellFormed) : Exact source ↔ source.wchars.length ≤ 32766 := by
  constructor
  · intro hex
    by_contra hn
    exact not_exact_of_longest h (by have := h.length_le; omega) hex
  · exact exact_of_le h

theorem exact_iff_letter :
    Exact (.buffer [65] 1) ↔ (Source.buffer [65] 1).wchars.length ≤ 32766 :=
  exact_iff ⟨by decide, by decide⟩

/-- So many times the letter A. -/
def letters (n : ℕ) : Source := .buffer (List.replicate n 65) n

theorem letters_length (n : ℕ) : (letters n).wchars.length = n := by
  simp [letters, Source.wchars]

theorem letters_wellFormed {n : ℕ} (h : n ≤ 32767) : (letters n).WellFormed :=
  ⟨h, by rw [List.length_replicate]⟩

theorem not_exact_longest : (letters 32767).WellFormed ∧ ¬Exact (letters 32767) :=
  ⟨letters_wellFormed le_rfl, not_exact_of_longest (letters_wellFormed le_rfl) (letters_length _)⟩

end KernelLib.StringConstruct
