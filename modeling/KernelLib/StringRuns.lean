import KernelLib.CountedStrings
import KernelLib.StepRuns

/-!
# Strings through failing allocations

Runs of construction, copies, moves, assignments, swaps, clears, replacements
and destructions over any number of strings, where each allocation may fail.
A copy assignment that has to reallocate, and cannot, frees the block but
leaves `MaximumLength`; the next assignment then takes the string for one with
a block of that size. The lengths stay right, and assignments exact, in the
runs in which this does not happen.
-/

namespace KernelLib.StringRuns

open WideMemory CountedStrings StepRuns

/-- The strings by number; a destroyed string is none. -/
abbrev State := List (Option SklString)

/-- A string that exists. -/
def get (s : State) (h : ℕ) : Option SklString := s[h]?.join

/-- What is done to the strings. -/
inductive Op where
  /-- `string()`. -/
  | empty
  /-- `string(unsigned)`. -/
  | sized (size : ℕ)
  /-- `string(const UNICODE_STRING&)`. -/
  | unicode (us : UnicodeString)
  /-- `string(const wchar_t*, unsigned)`. -/
  | buffer (buf : List WChar) (n : ℕ)
  /-- `string(const string&)`. -/
  | copy (r : ℕ)
  /-- `string(string&&)`. -/
  | move (r : ℕ)
  /-- `h = r`. -/
  | assign (h r : ℕ)
  /-- `h = move(r)`. -/
  | moveAssign (h r : ℕ)
  /-- `h.swap(r)`. -/
  | swap (h r : ℕ)
  /-- `h.clear()`. -/
  | clear (h : ℕ)
  /-- `h.replace(old, nc)`. -/
  | replace (h : ℕ) (old nc : WChar)
  /-- `~string()`. -/
  | destroy (h : ℕ)

/-- An operation, with what its allocations give. -/
structure Act where
  /-- The allocator. -/
  pool : Pool
  /-- The operation. -/
  op : Op

/-- `swap`. -/
def swapStrings (h r : ℕ) (s : State) : Option State := do
  let x ← get s h
  let y ← get s r
  return if h = r then s else (s.set h (some y)).set r (some x)

/-- Perform one operation. -/
def step (s : State) (a : Act) : Option State :=
  match a.op with
  | .empty => some (s ++ [some .null])
  | .sized size => some (s ++ [some (ofSize a.pool size)])
  | .unicode us => (ofUnicode a.pool us).map fun x => s ++ [some x]
  | .buffer buf n => (ofBuf a.pool buf n).map fun x => s ++ [some x]
  | .copy r => do
    let x ← get s r
    let c ← CountedStrings.copy a.pool x
    return s ++ [some c]
  | .move r => do
    let x ← get s r
    return (s ++ [some x]).set r (some .null)
  | .assign h r => do
    let t ← get s h
    let x ← get s r
    if h = r then return s
    let y ← CountedStrings.assign a.pool t x
    return s.set h (some y)
  | .moveAssign h r | .swap h r => swapStrings h r s
  | .clear h => (get s h).map fun x => s.set h (some (CountedStrings.clear x))
  | .replace h old nc => (get s h).map fun x => s.set h (some (CountedStrings.replace old nc x))
  | .destroy h => (get s h).map fun _ => s.set h none

/-- The strings that an operation names exist, and what is given to a
constructor can be read and is shorter than 32767 characters. -/
def Permitted (s : State) (a : Act) : Prop :=
  match a.op with
  | .empty | .sized _ => True
  | .unicode us => realLen us ≤ 2 * us.memory.length ∧ us.length / 2 < 32767
  | .buffer buf n => n < 32767 ∧ n ≤ buf.length ∨
      n = npos ∧ (rawlen buf).any (· < 32767)
  | .copy r | .move r | .clear r | .replace r _ _ | .destroy r => (get s r).isSome
  | .assign h r | .moveAssign h r | .swap h r => (get s h).isSome ∧ (get s r).isSome

/-- A copy assignment that reallocates gets a block, or has no length to leave behind. -/
def SafeAssign (h r : ℕ) (pool : Pool) (t x : SklString) : Prop :=
  h ≠ r → 0 < x.length → t.unicodeStr.maximumLength ≤ x.unicodeStr.length →
    t.unicodeStr.maximumLength = 0 ∨ (pool.new (x.unicodeStr.length / 2 + 1)).isSome

/-- Copy assignments are safe, and a `UNICODE_STRING` gives whole characters. -/
def Safe (s : State) (a : Act) : Prop :=
  match a.op with
  | .unicode us => realLen us % 2 = 0 ∨ a.pool.new ((realLen us + 2) / 2) = none
  | .assign h r =>
    match get s h, get s r with
    | some t, some x => SafeAssign h r a.pool t x
    | _, _ => True
  | _ => True

instance : ∀ (s : State) (a : Act), Decidable (Permitted s a)
  | _, ⟨_, .empty⟩ | _, ⟨_, .sized _⟩ => isTrue trivial
  | _, ⟨_, .unicode us⟩ =>
    inferInstanceAs (Decidable (realLen us ≤ 2 * us.memory.length ∧ us.length / 2 < 32767))
  | _, ⟨_, .buffer buf n⟩ =>
    inferInstanceAs (Decidable (n < 32767 ∧ n ≤ buf.length ∨
      n = npos ∧ (rawlen buf).any (· < 32767)))
  | s, ⟨_, .copy r⟩ | s, ⟨_, .move r⟩ | s, ⟨_, .clear r⟩ | s, ⟨_, .replace r _ _⟩
  | s, ⟨_, .destroy r⟩ => inferInstanceAs (Decidable ((get s r).isSome))
  | s, ⟨_, .assign h r⟩ | s, ⟨_, .moveAssign h r⟩ | s, ⟨_, .swap h r⟩ =>
    inferInstanceAs (Decidable ((get s h).isSome ∧ (get s r).isSome))

instance (h r : ℕ) (pool : Pool) (t x : SklString) : Decidable (SafeAssign h r pool t x) :=
  inferInstanceAs (Decidable (_ → _))

instance : ∀ (s : State) (a : Act), Decidable (Safe s a)
  | _, ⟨pool, .unicode us⟩ =>
    inferInstanceAs (Decidable (realLen us % 2 = 0 ∨ pool.new ((realLen us + 2) / 2) = none))
  | s, ⟨pool, .assign h r⟩ =>
    match ht : get s h, hx : get s r with
    | some t, some x => decidable_of_iff (SafeAssign h r pool t x) (by simp [Safe, ht, hx])
    | none, _ => isTrue (by simp [Safe, ht])
    | some _, none => isTrue (by simp [Safe, ht, hx])
  | _, ⟨_, .empty⟩ | _, ⟨_, .sized _⟩ | _, ⟨_, .buffer _ _⟩ | _, ⟨_, .copy _⟩ | _, ⟨_, .move _⟩
  | _, ⟨_, .moveAssign _ _⟩ | _, ⟨_, .swap _ _⟩ | _, ⟨_, .clear _⟩ | _, ⟨_, .replace _ _ _⟩
  | _, ⟨_, .destroy _⟩ => isTrue trivial

/-- The lengths of a string agree with its buffer, and a null buffer has none. -/
def Represented (x : SklString) : Prop :=
  x.unicodeStr.length ≤ x.unicodeStr.maximumLength ∧
    x.unicodeStr.maximumLength ≤ 2 * x.unicodeStr.memory.length ∧
    (x.unicodeStr.buffer = none → x.unicodeStr.length = 0 ∧ x.unicodeStr.maximumLength = 0)

/-- Every string is represented, and a copy assignment whose allocation does not
fail gives the target the characters of the source. -/
structure Kept (s : State) : Prop where
  represented : ∀ h x, get s h = some x → Represented x
  assigned : ∀ h r t x pool, get s h = some t → get s r = some x →
    pool.new (x.unicodeStr.length / 2 + 1) ≠ none →
    ∃ s' y, step s ⟨pool, .assign h r⟩ = some s' ∧ get s' h = some y ∧ y.wchars = x.wchars

/-- A string with right lengths and room for a terminator. -/
def Fine (x : SklString) : Prop := Sound x ∧ x.unicodeStr.length < 2 ^ 16 - 2

section Operations

variable {pool : Pool} {t x : SklString} {n : ℕ}

/-- The null string is in order. -/
theorem fine_null : Fine .null := ⟨sound_null, by decide⟩

/-- A string that is in order represents a text. -/
theorem Fine.represented (h : Fine x) : Represented x :=
  ⟨h.1.length_le, h.1.maximumLength_le, h.1.null⟩

/-- `clear` only drops the characters. -/
theorem fine_clear (h : Fine t) : Fine (clear t) :=
  ⟨⟨Nat.zero_le _, h.1.maximumLength_le⟩, by simp [clear]⟩

/-- A string of a size is in order, also where the size is refused. -/
theorem fine_ofSize (pool : Pool) (size : ℕ) : Fine (ofSize pool size) := by
  refine ⟨⟨Nat.zero_le _, ?_⟩, by simp [ofSize]⟩
  simp only [ofSize, UnicodeString.memory]
  by_cases hz : 0 < size
  · rw [if_pos hz]
    cases hb : pool.new size with
    | none => simp [u16]
    | some b =>
      have hlen := pool.length_new _ _ hb
      simp only [Option.isSome_some, if_true, Option.getD_some, hlen, u16, Word32.u32]
      omega
  · simp [hz, u16]

/-- So is one that is made from memory. -/
theorem fine_initializeWith (pool : Pool) {source : Option (List WChar)} (h : n < 2 ^ 16)
    (hn : n < 2 ^ 16 - 2)
    (heven : n % 2 = 0 ∨ pool.new ((n + 2) / 2) = none) (hs : n ≤ 2 * (source.getD []).length) :
    ∃ y, initializeWith pool n h source = some y ∧ Fine y := by
  rcases heven with heven | hfail
  · obtain ⟨y, hy, hsound, hres⟩ := initializeWith_spec pool source h (by omega) heven hs
    refine ⟨y, hy, hsound, ?_⟩
    rcases hres with ⟨rfl, -⟩ | ⟨-, hlen, -⟩
    · decide
    · rw [hlen]
      exact hn
  · refine ⟨.null, ?_, fine_null⟩
    have hmax : u16 (n + 2) = n + 2 := u16_of_lt (by omega)
    unfold initializeWith
    simp only [hmax, hfail]

/-- `replace` keeps the lengths. -/
theorem fine_replace (old nc : WChar) (h : Fine x) : Fine (replace old nc x) := by
  unfold replace
  split_ifs with hl
  · exact h
  · refine ⟨⟨h.1.length_le, ?_⟩, h.2⟩
    have hm := h.1.maximumLength_le
    cases hb : x.unicodeStr.buffer with
    | none => simpa [UnicodeString.memory, hb] using hm
    | some b =>
      simp only [UnicodeString.memory, hb, Option.getD_some] at hm
      simp only [UnicodeString.memory, Option.map_some, Option.getD_some, List.length_append,
        List.length_map, List.length_take, List.length_drop]
      omega

/-- A copy assignment that gets its block, needs none, or leaves no length behind. -/
theorem fine_assign (pool : Pool) (ht : Fine t) (hx : Fine x)
    (hsafe : 0 < x.length → t.unicodeStr.maximumLength ≤ x.unicodeStr.length →
      t.unicodeStr.maximumLength = 0 ∨ (pool.new (x.unicodeStr.length / 2 + 1)).isSome) :
    ∃ y, assign pool t x = some y ∧ Fine y ∧
      (pool.new (x.unicodeStr.length / 2 + 1) ≠ none → y.wchars = x.wchars) := by
  have hxle := hx.1.length_le.trans hx.1.maximumLength_le
  have hxlt := hx.2
  unfold assign
  by_cases hpos : 0 < x.length
  · simp only [hpos, if_true]
    by_cases hre : x.unicodeStr.length ≥ (clear t).unicodeStr.maximumLength
    · rw [if_pos hre]
      cases hb : pool.new (x.unicodeStr.length / 2 + 1) with
      | none =>
        have hz : t.unicodeStr.maximumLength = 0 := by
          rcases hsafe hpos hre with hz | hs
          · exact hz
          · simp [hb] at hs
        refine ⟨⟨{ (clear t).unicodeStr with buffer := none }⟩, by simp [reallocate, hb], ?_, ?_⟩
        · exact ⟨⟨Nat.zero_le _, hz.le⟩, by simp [clear]⟩
        · exact fun h => absurd rfl h
      | some b =>
        have hlen := pool.length_new _ _ hb
        obtain ⟨b', hcopy, hlen', htake⟩ := copyMemory_spec b x.unicodeStr.memory
          (n := x.unicodeStr.length) (by omega) hxle
        have hmax : u16 (u16 (x.unicodeStr.length / 2 + 1) * 2) =
            (x.unicodeStr.length / 2 + 1) * 2 := by
          unfold u16
          omega
        refine ⟨⟨⟨x.unicodeStr.length, u16 (u16 (x.unicodeStr.length / 2 + 1) * 2), some b',
          x.unicodeStr.length_lt, u16_lt _⟩⟩, by simp [reallocate, hb, hcopy], ⟨⟨?_, ?_⟩, hxlt⟩,
          fun _ => htake⟩
        · simp only
          omega
        · simp only [UnicodeString.memory, Option.getD_some]
          omega
    · rw [if_neg hre]
      have hlt : x.unicodeStr.length < t.unicodeStr.maximumLength := Nat.lt_of_not_le hre
      have htm := ht.1.maximumLength_le
      cases hb : t.unicodeStr.buffer with
      | none =>
        have hz := (ht.1.null hb).2
        omega
      | some b =>
        rw [UnicodeString.memory, hb, Option.getD_some] at htm
        obtain ⟨b', hcopy, hlen', htake⟩ := copyMemory_spec b x.unicodeStr.memory
          (n := x.unicodeStr.length) (by omega) hxle
        refine ⟨⟨⟨x.unicodeStr.length, t.unicodeStr.maximumLength, some b',
          x.unicodeStr.length_lt, t.unicodeStr.maximumLength_lt⟩⟩, by simp [clear, hb, hcopy],
          ⟨⟨hlt.le, ?_⟩, hxlt⟩, fun _ => htake⟩
        simp only [UnicodeString.memory, Option.getD_some]
        omega
  · refine ⟨clear t, by simp [hpos], fine_clear ht, fun _ => ?_⟩
    have hnil : x.wchars = [] := by
      rw [← List.length_eq_zero_iff, hx.1.wchars_length]
      omega
    rw [hnil]
    simp [SklString.wchars, UnicodeString.wchars, clear]

end Operations

section Runs

variable {s : State} {a : Act} {h k : ℕ} {x : SklString}

/-- Every string is fine. -/
def AllFine (s : State) : Prop := ∀ h x, get s h = some x → Fine x

/-- A string that was set is what it was set to, and the others stay. -/
theorem get_set {o : Option SklString} (hk : (get s k).isSome) :
    get (s.set k o) h = if h = k then o else get s h := by
  unfold get at *
  by_cases hh : h = k
  · subst hh
    have hlt : h < s.length := by
      by_contra hn
      simp [List.getElem?_eq_none (Nat.le_of_not_lt hn)] at hk
    simp [hlt]
  · rw [List.getElem?_set_ne (Ne.symm hh), if_neg hh]

/-- A string is the new one or was there before. -/
theorem get_append {o : Option SklString} (hx : get (s ++ [o]) h = some x) :
    get s h = some x ∨ o = some x := by
  unfold get at *
  by_cases hh : h < s.length
  · rw [List.getElem?_append_left hh] at hx
    exact .inl hx
  · rw [List.getElem?_append_right (Nat.le_of_not_lt hh)] at hx
    cases hi : h - s.length with
    | zero =>
      rw [hi] at hx
      exact .inr (by simpa using hx)
    | succ i =>
      rw [hi] at hx
      simp at hx

/-- A new string that is in order leaves all in order. -/
theorem AllFine.append (hs : AllFine s) (hx : Fine x) : AllFine (s ++ [some x]) := by
  intro h y hy
  rcases get_append hy with hy | hy
  · exact hs h y hy
  · exact Option.some.inj hy ▸ hx

/-- So does one that is set. -/
theorem AllFine.set (hs : AllFine s) (hk : (get s k).isSome) (hx : Fine x) :
    AllFine (s.set k (some x)) := by
  intro h y hy
  rw [get_set hk] at hy
  split_ifs at hy
  · exact Option.some.inj hy ▸ hx
  · exact hs h y hy

/-- So does one that is destroyed. -/
theorem AllFine.destroy (hs : AllFine s) (hk : (get s k).isSome) : AllFine (s.set k none) := by
  intro h y hy
  rw [get_set hk] at hy
  split_ifs at hy
  exact hs h y hy

/-- A new string leaves the others. -/
theorem get_append_left {o : Option SklString} (hx : get s h = some x) :
    get (s ++ [o]) h = some x := by
  unfold get at *
  have hlt : h < s.length := by
    by_contra hn
    simp [List.getElem?_eq_none (Nat.le_of_not_lt hn)] at hx
  rw [List.getElem?_append_left hlt]
  exact hx

/-- A swap moves strings that are fine. -/
theorem swapStrings_spec {r : ℕ} (hs : AllFine s) (hh : (get s h).isSome) (hr : (get s r).isSome) :
    ∃ s', swapStrings h r s = some s' ∧ AllFine s' := by
  obtain ⟨x, hx⟩ := Option.isSome_iff_exists.mp hh
  obtain ⟨y, hy⟩ := Option.isSome_iff_exists.mp hr
  refine ⟨if h = r then s else (s.set h (some y)).set r (some x), by simp [swapStrings, hx, hy], ?_⟩
  split_ifs with hne
  · exact hs
  · refine (hs.set hh (hs r y hy)).set ?_ (hs h x hx)
    rw [get_set hh, if_neg (Ne.symm hne)]
    exact hr

/-- A permitted and safe operation succeeds and leaves fine strings. -/
theorem step_spec (hs : AllFine s) (hp : Permitted s a) (hsafe : Safe s a) :
    ∃ s', step s a = some s' ∧ AllFine s' := by
  obtain ⟨pool, op⟩ := a
  cases op with
  | empty => exact ⟨_, rfl, hs.append fine_null⟩
  | sized size => exact ⟨_, rfl, hs.append (fine_ofSize pool size)⟩
  | unicode us =>
    have hlt : realLen us < 2 ^ 16 - 2 := by
      have hl := hp.2
      have hle : realLen us ≤ us.length / 2 * 2 := by
        have hu : u16 (us.length / 2 * 2) ≤ us.length / 2 * 2 := Nat.mod_le _ _
        simp only [realLen]
        split_ifs <;> omega
      omega
    obtain ⟨y, hy, hf⟩ := fine_initializeWith pool (realLen_lt us) hlt hsafe hp.1
    exact ⟨s ++ [some y], by simp [step, ofUnicode, initializeUnicode, hy], hs.append hf⟩
  | buffer buf n =>
    have hbuf : ∀ k, k < 32767 → k ≤ buf.length →
        ∃ y, initializeBuf pool buf k = some y ∧ Fine y := by
      intro k hk hle
      have hreal : u16 (u16 k * 2) = k * 2 := by
        unfold u16
        omega
      refine fine_initializeWith pool (u16_lt _) ?_ (.inl ?_) ?_
      · omega
      · omega
      · rw [Option.getD_some]
        omega
    rcases hp with ⟨hn, hle⟩ | ⟨rfl, hp⟩
    · obtain ⟨y, hy, hf⟩ := hbuf n hn hle
      have hne : n ≠ npos := by
        unfold npos
        omega
      exact ⟨s ++ [some y], by simp [step, ofBuf, hne, hy], hs.append hf⟩
    · obtain ⟨k, hk, hlt⟩ := (Option.any_eq_true _ _).mp hp
      obtain ⟨y, hy, hf⟩ := hbuf k (by simpa using hlt) (rawlen_le hk)
      exact ⟨s ++ [some y], by simp [step, ofBuf, hk, hy], hs.append hf⟩
  | copy r =>
    obtain ⟨x, hx⟩ := Option.isSome_iff_exists.mp hp
    obtain ⟨hsound, hlt⟩ := hs r x hx
    obtain ⟨c, hc, hcs, hle, -⟩ := copy_spec pool hsound hlt
    exact ⟨s ++ [some c], by simp [step, hx, hc], hs.append ⟨hcs, hle.trans_lt hlt⟩⟩
  | move r =>
    obtain ⟨x, hx⟩ := Option.isSome_iff_exists.mp hp
    refine ⟨(s ++ [some x]).set r (some .null), by simp [step, hx], ?_⟩
    exact (hs.append (hs r x hx)).set (by rw [get_append_left hx]; rfl) fine_null
  | assign h r =>
    obtain ⟨t, ht⟩ := Option.isSome_iff_exists.mp hp.1
    obtain ⟨x, hx⟩ := Option.isSome_iff_exists.mp hp.2
    by_cases hne : h = r
    · exact ⟨s, by simp [step, hx, hne], hs⟩
    · simp only [Safe, ht, hx] at hsafe
      obtain ⟨y, hy, hf, -⟩ := fine_assign pool (hs h t ht) (hs r x hx) (hsafe hne)
      exact ⟨s.set h (some y), by simp [step, ht, hx, hne, hy], hs.set hp.1 hf⟩
  | moveAssign h r => exact swapStrings_spec hs hp.1 hp.2
  | swap h r => exact swapStrings_spec hs hp.1 hp.2
  | clear h =>
    obtain ⟨x, hx⟩ := Option.isSome_iff_exists.mp hp
    exact ⟨s.set h (some (CountedStrings.clear x)), by simp [step, hx],
      hs.set hp (fine_clear (hs h x hx))⟩
  | replace h old nc =>
    obtain ⟨x, hx⟩ := Option.isSome_iff_exists.mp hp
    exact ⟨s.set h (some (CountedStrings.replace old nc x)), by simp [step, hx],
      hs.set hp (fine_replace old nc (hs h x hx))⟩
  | destroy h =>
    obtain ⟨x, hx⟩ := Option.isSome_iff_exists.mp hp
    exact ⟨s.set h none, by simp [step, hx], hs.destroy hp⟩

/-- Fine strings are represented, and copy assignments between them exact. -/
theorem AllFine.kept (hs : AllFine s) : Kept s where
  represented := fun h x hx => (hs h x hx).represented
  assigned := by
    intro h r t x pool ht hx hpool
    by_cases hne : h = r
    · subst hne
      exact ⟨s, t, by simp [step, ht], ht, by rw [Option.some.inj (ht.symm.trans hx)]⟩
    · obtain ⟨y, hy, -, hchars⟩ := fine_assign pool (hs h t ht) (hs r x hx)
        fun _ _ => .inr (Option.isSome_iff_ne_none.mpr hpool)
      refine ⟨s.set h (some y), y, by simp [step, ht, hx, hne, hy], ?_, hchars hpool⟩
      rw [get_set (by rw [ht]; rfl), if_pos rfl]

/-- Every permitted run of safe steps succeeds and leaves fine strings. -/
theorem run_spec {as : List Act} (hs : AllFine s) (hp : Along Permitted step s as)
    (hsafe : Along Safe step s as) : ∃ s', run step s as = some s' ∧ AllFine s' :=
  exists_run (fun _ _ hs hps => step_spec hs hps.1 hps.2) hs (along_and.mpr ⟨hp, hsafe⟩)

/-- In every permitted run whose steps are safe, whatever allocations fail, the
strings stay represented and copy assignments are exact. -/
theorem kept_along {as : List Act} (hp : Along Permitted step [] as)
    (hsafe : Along Safe step [] as) :
    ∃ s, run step [] as = some s ∧ Kept s := by
  have hs : AllFine [] := fun h x hx => by simp [get] at hx
  obtain ⟨s, hrun, hf⟩ := run_spec hs hp hsafe
  exact ⟨s, hrun, hf.kept⟩

/-- A failed allocation leaves a null copy, which is then assigned to. -/
def nullCopy : List Act :=
  [⟨.zeroed, .buffer [97, 98] 2⟩, ⟨.exhausted, .copy 0⟩, ⟨.zeroed, .assign 1 0⟩]

/-- A null string is copied, and all is kept. -/
theorem kept_along_nullCopy : ∃ s, run step [] nullCopy = some s ∧ Kept s :=
  kept_along (by decide) (by decide)

/-- The string `ab` is assigned `abc`, without success; there is also a string `x`. -/
def staleLength : List Act :=
  [⟨.zeroed, .buffer [97, 98] 2⟩, ⟨.zeroed, .buffer [97, 98, 99] 3⟩, ⟨.zeroed, .buffer [120] 1⟩,
    ⟨.exhausted, .assign 0 1⟩]

/-- The first string is null then but has a `MaximumLength`, and an assignment
of `x`, which does not even allocate, leaves it without characters. -/
theorem not_kept_staleLength :
    Along Permitted step [] staleLength ∧ ∃ s x y s' y', run step [] staleLength = some s ∧
      get s 0 = some x ∧ ¬Represented x ∧ get s 2 = some y ∧
      step s ⟨.zeroed, .assign 0 2⟩ = some s' ∧ get s' 0 = some y' ∧ y'.wchars ≠ y.wchars := by
  refine ⟨by decide, _, _, _, _, _, rfl, rfl, ?_, rfl, rfl, rfl, ?_⟩
  · unfold Represented
    decide
  · decide

end Runs

end KernelLib.StringRuns
