import KernelLib.ContainerRefines
import KernelLib.ListRefines
import KernelLib.StringCompare

/-!
# Strings in containers

Sets and maps look for a default-constructed string that is assigned from the
key and store a copy of it; lists store a copy or the moved string itself.
Each takes a null buffer for a failed allocation. The copy of an empty string
is null also when nothing fails, so that strings with characters, and only
they, can be stored.
-/

namespace KernelLib.StringKeys

open AvlRoutines CountedObjects RefHolder AvlContainer OrderedEntries ContainerModel
open ContainerRefines StepRuns WideMemory CountedStrings StringCompare

/-- A string whose memory holds its bytes. -/
structure Key where
  /-- The string. -/
  str : SklString
  length_le : str.unicodeStr.length ≤ 2 * str.unicodeStr.memory.length

/-- What a copy of a string is: null, or with the same characters in memory that
holds them. -/
structure CopyOf (pool : Pool) (s c : SklString) : Prop where
  length_le : c.unicodeStr.length ≤ 2 * c.unicodeStr.memory.length
  null : 0 < s.length → pool.new (s.unicodeStr.length / 2 + 1) = none → c = .null
  empty : ¬0 < s.length → c = .null
  stored : 0 < s.length → pool.new (s.unicodeStr.length / 2 + 1) ≠ none →
    c.isValid ∧ c.wchars = s.wchars

section Copies

variable {pool : Pool} {s c : SklString}

/-- The memory of a copy, for both ways to make it. -/
theorem copyOf_filled {b : List WChar} {h : s.unicodeStr.length < 2 ^ 16} {n : ℕ} {hn : n < 2 ^ 16}
    (hlen : s.unicodeStr.length ≤ 2 * b.length)
    (htake : b.take (s.unicodeStr.length / 2) = s.unicodeStr.memory.take (s.unicodeStr.length / 2))
    (hpos : 0 < s.length) (hpool : pool.new (s.unicodeStr.length / 2 + 1) ≠ none) :
    CopyOf pool s ⟨⟨s.unicodeStr.length, n, some b, h, hn⟩⟩ where
  length_le := hlen
  null := fun _ hf => absurd hf hpool
  empty := fun hf => absurd hpos hf
  stored := fun _ _ => ⟨rfl, htake⟩

/-- A copy of nothing, or one that is refused, is null. -/
theorem copyOf_null (h : ¬0 < s.length ∨ pool.new (s.unicodeStr.length / 2 + 1) = none) :
    CopyOf pool s .null where
  length_le := Nat.zero_le _
  null := fun _ _ => rfl
  empty := fun _ => rfl
  stored := fun hpos hne => absurd h (by simp [hpos, hne])

/-- The copy constructor. -/
theorem copy_copyOf (pool : Pool) (h : s.unicodeStr.length ≤ 2 * s.unicodeStr.memory.length) :
    ∃ c, copy pool s = some c ∧ CopyOf pool s c := by
  unfold copy
  by_cases hpos : 0 < s.length
  · simp only [if_pos hpos]
    cases hb : pool.new (s.unicodeStr.length / 2 + 1) with
    | none => exact ⟨.null, rfl, copyOf_null (.inr hb)⟩
    | some b =>
      have hlen := pool.length_new _ _ hb
      obtain ⟨b', hcopy, hlen', htake⟩ := copyMemory_spec b s.unicodeStr.memory
        (n := s.unicodeStr.length) (by omega) h
      refine ⟨⟨⟨s.unicodeStr.length, u16 (u16 (s.unicodeStr.length / 2 + 1) * 2), some b',
        s.unicodeStr.length_lt, u16_lt _⟩⟩, by simp [hcopy], ?_⟩
      exact copyOf_filled (by omega) htake hpos (by simp [hb])
  · exact ⟨.null, if_neg hpos, copyOf_null (.inl hpos)⟩

/-- Assignment to a default-constructed string. -/
theorem assign_copyOf (pool : Pool) (h : s.unicodeStr.length ≤ 2 * s.unicodeStr.memory.length) :
    ∃ c, assign pool .null s = some c ∧ CopyOf pool s c := by
  unfold assign
  by_cases hpos : 0 < s.length
  · have hge : s.unicodeStr.length ≥ (clear .null).unicodeStr.maximumLength := Nat.zero_le _
    simp only [if_pos hpos, if_pos hge]
    cases hb : pool.new (s.unicodeStr.length / 2 + 1) with
    | none => exact ⟨.null, by simp [reallocate, hb, CountedStrings.clear, SklString.null],
      copyOf_null (.inr hb)⟩
    | some b =>
      have hlen := pool.length_new _ _ hb
      obtain ⟨b', hcopy, hlen', htake⟩ := copyMemory_spec b s.unicodeStr.memory
        (n := s.unicodeStr.length) (by omega) h
      refine ⟨⟨⟨s.unicodeStr.length, u16 (u16 (s.unicodeStr.length / 2 + 1) * 2), some b',
        s.unicodeStr.length_lt, u16_lt _⟩⟩, by simp [reallocate, hb, hcopy], ?_⟩
      exact copyOf_filled (by omega) htake hpos (by simp [hb])
  · refine ⟨.null, ?_, copyOf_null (.inl hpos)⟩
    simp only [if_neg hpos]
    rfl

end Copies

section Keys

variable (pool : Pool)

/-- Copying a string returns. -/
theorem copy_isSome (k : Key) : (copy pool k.str).isSome := by
  obtain ⟨c, hc, -⟩ := copy_copyOf pool k.length_le
  rw [hc]
  rfl

/-- So does assigning one. -/
theorem assign_isSome (k : Key) : (assign pool .null k.str).isSome := by
  obtain ⟨c, hc, -⟩ := assign_copyOf pool k.length_le
  rw [hc]
  rfl

/-- A copy is the string or null. -/
theorem copyOf_copy (k : Key) : CopyOf pool k.str ((copy pool k.str).get (copy_isSome pool k)) := by
  obtain ⟨c, hc, hcopy⟩ := copy_copyOf pool k.length_le
  simpa only [hc, Option.get_some] using hcopy

/-- So is what it is assigned to. -/
theorem copyOf_assign (k : Key) :
    CopyOf pool k.str ((assign pool .null k.str).get (assign_isSome pool k)) := by
  obtain ⟨c, hc, hcopy⟩ := assign_copyOf pool k.length_le
  simpa only [hc, Option.get_some] using hcopy

/-- A copy-constructed key. -/
def Key.copied (k : Key) : Key :=
  ⟨(copy pool k.str).get (copy_isSome pool k), (copyOf_copy pool k).length_le⟩

/-- A default-constructed key after `operator=`. -/
def Key.assigned (k : Key) : Key :=
  ⟨(assign pool .null k.str).get (assign_isSome pool k), (copyOf_assign pool k).length_le⟩

/-- Strings as the keys of sets and maps. -/
def stringKeys : KeyOps Key where
  lt a b := (less a.str b.str).getD false
  assign := Key.assigned pool
  copy := Key.copied pool
  valid k := k.str.isValid

end Keys

section Laws

variable {pool : Pool} {j k : Key}

/-- The characters of a string are in memory. -/
theorem Key.readable (k : Key) : k.str.unicodeStr.length / 2 ≤ k.str.unicodeStr.memory.length := by
  have h := k.length_le
  omega

/-- The characters of a key, in order. -/
def Key.ranks (k : Key) : List ℕ := StringCompare.ranks id k.str.wchars

/-- The length in units is half of that in bytes. -/
theorem Key.length_eq (k : Key) : k.str.length = k.str.unicodeStr.length / 2 := by
  have h := k.length_le
  unfold SklString.length
  cases hb : k.str.unicodeStr.buffer with
  | none =>
    rw [UnicodeString.memory, hb, Option.getD_none, List.length_nil] at h
    simp only [Option.isSome_none, Bool.false_eq_true, if_false]
    omega
  | some b => simp

/-- The comparison of two keys orders their characters. -/
theorem compareString_eq (j k : Key) : compareString j.str k.str = some (sign j.ranks k.ranks) := by
  rw [compareString, compareCounted, j.length_eq, compareBy_spec id j.readable k.readable]
  rfl

/-- Keys are compared by their ranks. -/
theorem lt_iff (pool : Pool) (j k : Key) : (stringKeys pool).lt j k ↔ j.ranks < k.ranks := by
  have hlt : (stringKeys pool).lt j k = decide (sign j.ranks k.ranks < 0) := by
    simp [stringKeys, less, compareString_eq]
  rw [hlt, decide_eq_true_iff, sign]
  split_ifs <;> simp_all

/-- Keys of equal ranks are equivalent. -/
theorem equiv_iff_ranks : equiv (stringKeys pool).lt j k ↔ j.ranks = k.ranks := by
  have hjk := lt_iff pool j k
  have hkj := lt_iff pool k j
  rw [equiv_iff, ← Bool.not_eq_true, ← Bool.not_eq_true, hjk, hkj, not_lt, not_lt]
  constructor
  · intro h
    exact le_antisymm h.2 h.1
  · intro h
    exact ⟨h.ge, h.le⟩

/-- A null string has no characters, as an empty one. -/
theorem CopyOf.wchars_of_empty {s c : SklString} (h : CopyOf pool s c) (hs : ¬0 < s.length) :
    c.wchars = [] := by
  rw [h.empty hs]
  rfl

/-- An empty string has no characters. -/
theorem Key.wchars_of_empty (hk : ¬0 < k.str.length) : k.str.wchars = [] := by
  have hz : k.str.unicodeStr.length / 2 = 0 := by
    rw [← k.length_eq]
    omega
  rw [SklString.wchars, UnicodeString.wchars, hz, List.take_zero]

/-- When nothing fails, a copy has the characters. -/
theorem CopyOf.wchars_eq {c : SklString} (h : CopyOf pool k.str c)
    (hpool : ∀ n, (pool.new n).isSome) : c.wchars = k.str.wchars := by
  by_cases hk : 0 < k.str.length
  · exact (h.stored hk (Option.isSome_iff_ne_none.mp (hpool _))).2
  · rw [h.wchars_of_empty hk, Key.wchars_of_empty hk]

/-- When nothing fails, the copy of a string with characters is valid, and no other. -/
theorem CopyOf.isValid_iff {c : SklString} (h : CopyOf pool k.str c)
    (hpool : ∀ n, (pool.new n).isSome) : c.isValid ↔ 0 < k.str.length := by
  by_cases hk : 0 < k.str.length
  · simp [(h.stored hk (Option.isSome_iff_ne_none.mp (hpool _))).1, hk]
  · simp [h.empty hk, hk, SklString.isValid, SklString.null]

/-- `operator<` is a strict weak order, as sets and maps need. -/
theorem strictWeak (pool : Pool) : StrictWeak (stringKeys pool).lt := by
  constructor
  · intro k
    rw [← Bool.not_eq_true, lt_iff]
    exact lt_irrefl _
  · intro i j k hij hjk
    rw [lt_iff] at hij hjk ⊢
    exact hij.trans hjk
  · intro i j k hik
    rw [lt_iff] at hik
    rw [lt_iff, lt_iff]
    by_cases hij : i.ranks < j.ranks
    · exact .inl hij
    · exact .inr (lt_of_le_of_lt (not_lt.mp hij) hik)

/-- The order of strings is one, and copies are the same key. -/
theorem stringKeys_order (hpool : ∀ n, (pool.new n).isSome) : KeyOrder (stringKeys pool) where
  order := strictWeak pool
  assign_equiv := fun k => by
    rw [equiv_iff_ranks, Key.ranks, Key.ranks]
    exact congrArg _ ((copyOf_assign pool k).wchars_eq hpool)
  copy_equiv := fun k => by
    rw [equiv_iff_ranks, Key.ranks, Key.ranks]
    exact congrArg _ ((copyOf_copy pool k).wchars_eq hpool)

/-- An assigned string is valid when it is not empty. -/
theorem valid_assign_iff (hpool : ∀ n, (pool.new n).isSome) (k : Key) :
    (stringKeys pool).valid ((stringKeys pool).assign k) ↔ 0 < k.str.length :=
  (copyOf_assign pool k).isValid_iff hpool

/-- So is a copy. -/
theorem valid_copy_iff (hpool : ∀ n, (pool.new n).isSome) (k : Key) :
    (stringKeys pool).valid ((stringKeys pool).copy k) ↔ 0 < k.str.length :=
  (copyOf_copy pool k).isValid_iff hpool

/-- When nothing fails, every operation looks for a valid copy or for none. -/
theorem accepts_or_refuses {V : Type} (hpool : ∀ n, (pool.new n).isSome) (op : Op Key V) :
    Accepts (stringKeys pool) op ∨ Refuses (stringKeys pool) op := by
  cases op with
  | insert k v =>
    by_cases hk : 0 < k.str.length
    · exact .inl ⟨(valid_assign_iff hpool k).mpr hk, (valid_copy_iff hpool k).mpr hk⟩
    · exact .inr (fun hv => hk ((valid_assign_iff hpool k).mp hv))
  | find k | remove k =>
    by_cases hv : (stringKeys pool).valid ((stringKeys pool).assign k)
    · exact .inl hv
    · exact .inr hv
  | _ => exact .inl trivial

end Laws

end KernelLib.StringKeys
