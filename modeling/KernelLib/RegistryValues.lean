import KernelLib.LittleEndian
import KernelLib.SplitPaths
import KernelLib.Word32
import Mathlib.Data.List.TakeDrop

/-!
# Registry values

The five alternatives of `RegVariant`, the types and bytes that the registry
holds, the bytes that `RegistryPrivate::set` writes for an alternative and
what `RegistryPrivate::readKey` makes of a type and its bytes. Strings are
written with their terminator and lists of strings with one more; they are
read up to the terminators found in the data. A read behind the data fails.
-/

namespace KernelLib.RegistryValues

open WideMemory Word32 LittleEndian SplitPaths

/-- `std::wstring`. -/
abbrev WString := List WChar

/-- `RegVariant`. -/
inductive RegVariant where
  /-- `RegVariant()`. -/
  | empty
  /-- `std::wstring`. -/
  | wstring (s : WString)
  /-- `int`. -/
  | int (i : BitVec 32)
  /-- `unsigned long long`. -/
  | ull (i : BitVec 64)
  /-- `StringList`. -/
  | stringList (l : List WString)
  /-- `ByteArray`. -/
  | byteArray (b : List UInt8)
  deriving DecidableEq

/-- The type of a value in the registry. -/
inductive RegType where
  /-- `REG_NONE`. -/
  | none
  /-- `REG_SZ`. -/
  | sz
  /-- `REG_EXPAND_SZ`. -/
  | expandSz
  /-- `REG_BINARY`. -/
  | binary
  /-- `REG_DWORD`. -/
  | dword
  /-- `REG_DWORD_BIG_ENDIAN`. -/
  | dwordBigEndian
  /-- `REG_MULTI_SZ`. -/
  | multiSz
  /-- `REG_QWORD`. -/
  | qword
  /-- Any other number. -/
  | other (n : ℕ)
  deriving DecidableEq

/-- A value in the registry. -/
structure Stored where
  /-- `dataType`. -/
  type : RegType
  /-- The bytes, `dataSize` many. -/
  data : List UInt8
  deriving DecidableEq

/-- The characters before the first NUL, as the constructor of a `std::wstring`
reads them through a pointer. -/
def wcs (ws : List WChar) : Option WString := (rawlen ws).map ws.take

/-- The loop over a `REG_MULTI_SZ`, for so many rounds at most. -/
def multiLoop (data : List WChar) : ℕ → ℕ → List WString → Option (List WString)
  | 0, _, _ => none
  | rounds + 1, i, l => do
    let s ← wcs (data.drop i)
    let i := i + s.length + 1
    if s = [] then return l
    multiLoop data rounds i (l ++ [s])

/-- The `switch` of `readKey`. -/
def readData (v : Stored) : Option RegVariant :=
  match v.type with
  | .expandSz | .sz => do
    let s ← if v.data ≠ [] then wcs (wideChars v.data) else some []
    return .wstring s
  | .multiSz => do
    -- each round goes on by a character at least
    let l ← if v.data ≠ [] then multiLoop (wideChars v.data) (v.data.length + 1) 0 [] else some []
    return .stringList l
  | .none | .binary => some (.byteArray v.data)
  | .dwordBigEndian | .dword =>
    if 4 ≤ v.data.length then some (.int (BitVec.ofNat 32 (ofBytes (v.data.take 4)))) else none
  | .qword =>
    if 8 ≤ v.data.length then some (.ull (BitVec.ofNat 64 (ofBytes (v.data.take 8)))) else none
  | .other _ => some .empty

/-- `type` and `regValueBuff` in `set`; the empty variant sets neither. -/
def writeData (expand : Bool) : RegVariant → Option Stored
  | .empty => none
  | .wstring i => some ⟨if expand then .expandSz else .sz, wideBytes (i ++ [0])⟩
  | .int i => some ⟨.dword, toBytes 4 i.toNat⟩
  | .ull i => some ⟨.qword, toBytes 8 i.toNat⟩
  | .stringList l => some ⟨.multiSz, l.flatMap (fun s => wideBytes (s ++ [0])) ++ [0, 0]⟩
  | .byteArray b => some ⟨.binary, b⟩

/-- What `RegSetValueEx` is given: the size of the buffer is a `DWORD`. -/
def passed (v : Stored) : Stored := { v with data := v.data.take (u32 v.data.length) }

section Reading

variable {ws rest : List WChar} {s : WString} {l acc r : List WString} {i rounds : ℕ} {v : Stored}

/-- A string is read up to the first NUL. -/
theorem wcs_eq_some : wcs ws = some s ↔ 0 ∉ s ∧ ∃ rest, ws = s ++ 0 :: rest := by
  constructor
  · intro h
    obtain ⟨k, hk, rfl⟩ := Option.map_eq_some_iff.mp h
    obtain ⟨s, rest, rfl, hz, rfl⟩ := exists_of_rawlen hk
    rw [List.take_left]
    exact ⟨hz, rest, rfl⟩
  · rintro ⟨hz, rest, rfl⟩
    rw [wcs, rawlen_append_nul hz, Option.map_some, List.take_left]

/-- A string can be read when there is a NUL. -/
theorem wcs_isSome : (wcs ws).isSome ↔ 0 ∈ ws := by
  rw [Option.isSome_iff_exists]
  constructor
  · rintro ⟨s, hs⟩
    obtain ⟨-, rest, rfl⟩ := wcs_eq_some.mp hs
    simp
  · intro h
    obtain ⟨s, rest, rfl, hz⟩ := List.eq_append_cons_of_mem h
    exact ⟨s, wcs_eq_some.mpr ⟨hz, rest, rfl⟩⟩

/-- A list of strings none of which is empty or has a NUL in it. -/
def Listable (l : List WString) : Prop := ∀ s ∈ l, s ≠ [] ∧ 0 ∉ s

/-- The loop reads terminated strings up to an empty one. -/
theorem multiLoop_terminated (hl : Listable l) (hd : ws.drop i = terminated 0 l ++ 0 :: rest)
    (hr : l.length < rounds) : multiLoop ws rounds i acc = some (acc ++ l) := by
  induction l generalizing i acc rounds with
  | nil =>
    obtain ⟨rounds, rfl⟩ := Nat.exists_eq_succ_of_ne_zero (Nat.ne_of_gt hr)
    have hs : wcs (ws.drop i) = some [] := wcs_eq_some.mpr ⟨List.not_mem_nil, rest, hd⟩
    rw [multiLoop, hs]
    simp
  | cons s l ih =>
    obtain ⟨rounds, rfl⟩ := Nat.exists_eq_succ_of_ne_zero (Nat.ne_of_gt (Nat.zero_lt_of_lt hr))
    obtain ⟨hne, hz⟩ := hl s List.mem_cons_self
    rw [terminated_cons, List.append_assoc, List.cons_append] at hd
    have hs : wcs (ws.drop i) = some s := wcs_eq_some.mpr ⟨hz, _, hd⟩
    have hd' : ws.drop (i + s.length + 1) = terminated 0 l ++ 0 :: rest := by
      rw [Nat.add_assoc, ← List.drop_drop, hd, ← List.drop_drop, List.drop_left]
      rfl
    rw [List.length_cons] at hr
    rw [multiLoop, hs, Option.bind_eq_bind, Option.bind_some]
    simp only [if_neg hne]
    rw [ih (fun t ht => hl t (List.mem_cons_of_mem _ ht)) hd' (by omega), List.append_assoc]
    rfl

/-- What the loop reads stands in the data, with its terminators. -/
theorem exists_of_multiLoop (h : multiLoop ws rounds i acc = some r) :
    ∃ l rest, r = acc ++ l ∧ Listable l ∧ ws.drop i = terminated 0 l ++ 0 :: rest := by
  induction rounds generalizing i acc with
  | zero => cases h
  | succ rounds ih =>
    rw [multiLoop] at h
    cases hs : wcs (ws.drop i) with
    | none =>
      rw [hs] at h
      cases h
    | some s =>
      obtain ⟨hz, rest, hd⟩ := wcs_eq_some.mp hs
      rw [hs, Option.bind_eq_bind, Option.bind_some] at h
      by_cases hne : s = []
      · simp only [if_pos hne] at h
        rw [hne] at hd
        exact ⟨[], rest, by rw [← Option.some.inj h, List.append_nil],
          fun t ht => absurd ht List.not_mem_nil, hd⟩
      · simp only [if_neg hne] at h
        obtain ⟨l, rest', rfl, hl, hd'⟩ := ih h
        have hrest : rest = terminated 0 l ++ 0 :: rest' := by
          rw [← hd', Nat.add_assoc, ← List.drop_drop, hd, ← List.drop_drop, List.drop_left]
          rfl
        refine ⟨s :: l, rest', by rw [List.append_assoc]; rfl, ?_, ?_⟩
        · intro t ht
          rcases List.mem_cons.mp ht with rfl | ht
          · exact ⟨hne, hz⟩
          · exact hl t ht
        · rw [hd, hrest, terminated_cons, List.append_assoc]
          rfl

/-- Terminated strings are at least as many characters. -/
theorem length_le_terminated (l : List WString) : l.length ≤ (terminated (0 : WChar) l).length := by
  induction l with
  | nil => rfl
  | cons s l ih =>
    rw [terminated_cons, List.length_append, List.length_cons, List.length_cons]
    omega

/-- With so many rounds, the loop reads what is terminated, and only that. -/
theorem multiLoop_eq_some (hr : ws.length < rounds) :
    multiLoop ws rounds 0 [] = some l ↔ Listable l ∧ ∃ rest, ws = terminated 0 l ++ 0 :: rest := by
  constructor
  · intro h
    obtain ⟨l', rest, rfl, hl, hd⟩ := exists_of_multiLoop h
    exact ⟨hl, rest, hd⟩
  · rintro ⟨hl, rest, hd⟩
    have hle := length_le_terminated l
    have hlen := congrArg List.length hd
    rw [List.length_append, List.length_cons] at hlen
    exact multiLoop_terminated hl hd (by omega)

/-- A NUL stands at the start or behind another one. -/
def DoubleNul (ws : List WChar) : Prop := ∃ a b, 0 :: ws = a ++ 0 :: 0 :: b

/-- Behind a first string without NULs, the double NUL is one of what follows. -/
theorem DoubleNul.of_append (hz : 0 ∉ s) (h : ∃ a b, s ++ 0 :: rest = a ++ 0 :: 0 :: b) :
    DoubleNul rest := by
  obtain ⟨a, b, h⟩ := h
  rcases List.append_eq_append_iff.mp h with ⟨c, rfl, hc⟩ | ⟨c, rfl, hc⟩
  · exact ⟨c, b, hc⟩
  · cases c with
    | nil => exact ⟨[], b, hc.symm⟩
    | cons x c =>
      obtain ⟨rfl, -⟩ := List.cons.inj hc
      simp at hz

/-- The data up to a double NUL are terminated strings. -/
theorem exists_of_doubleNul (ws : List WChar) (h : DoubleNul ws) :
    ∃ l rest, Listable l ∧ ws = terminated 0 l ++ 0 :: rest := by
  obtain ⟨a, b, hab⟩ := h
  cases a with
  | nil =>
    obtain ⟨-, rfl⟩ := List.cons.inj hab
    exact ⟨[], b, fun t ht => absurd ht List.not_mem_nil, rfl⟩
  | cons x a =>
    obtain ⟨-, hws⟩ := List.cons.inj hab
    obtain ⟨s, rest, hs, hz⟩ := List.eq_append_cons_of_mem (show 0 ∈ ws by rw [hws]; simp)
    by_cases hne : s = []
    · exact ⟨[], rest, fun t ht => absurd ht List.not_mem_nil, by rw [hs, hne]; rfl⟩
    · have hlt : rest.length < ws.length := by
        rw [hs, List.length_append, List.length_cons]
        omega
      obtain ⟨l, rest', hl, hrest⟩ := exists_of_doubleNul rest
        (.of_append hz ⟨a, b, hs.symm.trans hws⟩)
      refine ⟨s :: l, rest', ?_, ?_⟩
      · intro t ht
        rcases List.mem_cons.mp ht with rfl | ht
        · exact ⟨hne, hz⟩
        · exact hl t ht
      · rw [hs, hrest, terminated_cons, List.append_assoc]
        rfl
termination_by ws.length

/-- There are terminated strings and one more terminator when there is a double NUL. -/
theorem doubleNul_iff : DoubleNul ws ↔ ∃ l rest, Listable l ∧ ws = terminated 0 l ++ 0 :: rest := by
  constructor
  · exact exists_of_doubleNul ws
  · rintro ⟨l, rest, -, rfl⟩
    rcases List.eq_nil_or_concat l with rfl | ⟨l, s, rfl⟩
    · exact ⟨[], rest, rfl⟩
    · rw [List.concat_eq_append, terminated_append_singleton]
      exact ⟨0 :: terminated 0 l ++ s, rest, by simp⟩

/-- What the branch for a type asks of its bytes: a terminator, two of them, or as
many bytes as the number has. -/
def WellShaped (v : Stored) : Prop :=
  match v.type with
  | .expandSz | .sz => v.data = [] ∨ 0 ∈ wideChars v.data
  | .multiSz => v.data = [] ∨ DoubleNul (wideChars v.data)
  | .dwordBigEndian | .dword => 4 ≤ v.data.length
  | .qword => 8 ≤ v.data.length
  | .none | .binary | .other _ => True

theorem length_wideChars_le (b : List UInt8) : (wideChars b).length ≤ b.length := by
  induction b using wideChars.induct with
  | case1 lo hi rest ih =>
    rw [wideChars, List.length_cons, List.length_cons, List.length_cons]
    omega
  | case2 b h =>
    unfold wideChars
    split
    · exact absurd rfl (h _ _ _)
    · exact Nat.zero_le _

theorem isSome_bind_some {α β : Type} (x : Option α) (f : α → β) :
    (x.bind fun a => some (f a)).isSome = x.isSome := by
  cases x <;> rfl

/-- Reading stays in the data, and ends, exactly when the data have the shape. -/
theorem readData_isSome : (readData v).isSome ↔ WellShaped v := by
  obtain ⟨type, data⟩ := v
  cases type with
  | sz | expandSz =>
    by_cases hd : data = []
    · simp [readData, WellShaped, hd]
    · simp [readData, WellShaped, hd, isSome_bind_some, wcs_isSome]
  | multiSz =>
    by_cases hd : data = []
    · simp [readData, WellShaped, hd]
    · have hlen := length_wideChars_le data
      have hloop : (multiLoop (wideChars data) (data.length + 1) 0 []).isSome ↔
          DoubleNul (wideChars data) := by
        rw [Option.isSome_iff_exists, doubleNul_iff]
        simp only [multiLoop_eq_some (Nat.lt_succ_of_le hlen), exists_and_left]
      simp [readData, WellShaped, hd, isSome_bind_some, hloop]
  | dword | dwordBigEndian =>
    by_cases hd : 4 ≤ data.length <;> simp [readData, WellShaped, hd]
  | qword =>
    by_cases hd : 8 ≤ data.length <;> simp [readData, WellShaped, hd]
  | none | binary | other => simp [readData, WellShaped]

end Reading

section RoundTrip

variable {s : WString} {l : List WString} {b : List UInt8} {n : ℕ}

/-- No NUL in a string, and neither a NUL nor an empty string in a list. -/
def Clean : RegVariant → Prop
  | .wstring s => 0 ∉ s
  | .stringList l => Listable l
  | _ => True

/-- The number of bytes that are written for an alternative. -/
def encodedSize : RegVariant → ℕ
  | .empty => 0
  | .wstring s => 2 * (s.length + 1)
  | .int _ => 4
  | .ull _ => 8
  | .stringList l => 2 * ((terminated (0 : WChar) l).length + 1)
  | .byteArray b => b.length

/-- A list of strings is written with a terminator behind each and one more. -/
theorem multiBytes_eq (l : List WString) :
    l.flatMap (fun s => wideBytes (s ++ [0])) ++ [0, 0] = wideBytes (terminated 0 l ++ [0]) := by
  induction l with
  | nil => rfl
  | cons s l ih =>
    rw [List.flatMap_cons, List.append_assoc, ih, terminated_cons, ← wideBytes_append]
    simp

/-- Bytes that can be counted are passed as they are. -/
theorem passed_of_lt (type : RegType) (h : b.length < 2 ^ 32) : passed ⟨type, b⟩ = ⟨type, b⟩ := by
  simp only [passed, u32_of_lt h, List.take_length]

/-- Characters that follow in what is passed are all there. -/
theorem length_of_passed {ws rest : List WChar}
    (h : ws.take (u32 (wideBytes ws).length / 2) = ws ++ rest) : 2 * ws.length < 2 ^ 32 := by
  have hlen := congrArg List.length h
  have hlt := u32_lt (2 * ws.length)
  rw [length_wideBytes, List.length_take, List.length_append] at hlen
  omega

theorem passed_ne_nil {type : RegType} {ws : List WChar} (hlt : 2 * ws.length < 2 ^ 32)
    (hne : ws ≠ []) : (passed ⟨type, wideBytes ws⟩).data ≠ [] := by
  have hpos := List.length_pos_iff.mpr hne
  rw [passed_of_lt type (by rwa [length_wideBytes]), ne_eq, ← List.length_eq_zero_iff,
    length_wideBytes]
  omega

/-- A string and then a terminator come back exactly when all bytes can be counted. -/
theorem passed_iff {type : RegType} {ws : List WChar} :
    ((passed ⟨type, wideBytes (ws ++ [0])⟩).data ≠ [] ∧
      ∃ rest, wideChars (passed ⟨type, wideBytes (ws ++ [0])⟩).data = ws ++ 0 :: rest) ↔
      2 * (ws.length + 1) < 2 ^ 32 := by
  have hlen : (ws ++ [0]).length = ws.length + 1 := by simp
  have hchars : wideChars (passed ⟨type, wideBytes (ws ++ [0])⟩).data =
      (ws ++ [0]).take (u32 (wideBytes (ws ++ [0])).length / 2) := wideChars_take _ _
  constructor
  · rintro ⟨-, rest, hrest⟩
    have hcons : ws ++ 0 :: rest = (ws ++ [0]) ++ rest := List.append_cons ..
    exact hlen ▸ length_of_passed (hchars.symm.trans (hrest.trans hcons))
  · intro hlt
    rw [← hlen] at hlt
    refine ⟨passed_ne_nil hlt (by simp), [], ?_⟩
    rw [passed_of_lt type (by rwa [length_wideBytes])]
    have hback := wideChars_wideBytes (ws ++ [0]) []
    simpa [wideChars] using hback

theorem readData_wstring {v : Stored} (ht : v.type = .sz ∨ v.type = .expandSz) :
    readData v = some (.wstring s) ↔ v.data = [] ∧ s = [] ∨
      0 ∉ s ∧ v.data ≠ [] ∧ ∃ rest, wideChars v.data = s ++ 0 :: rest := by
  have hread : readData v = if v.data ≠ [] then (wcs (wideChars v.data)).map .wstring
      else some (.wstring []) := by
    by_cases hd : v.data = [] <;> rcases ht with ht | ht <;> simp [readData, ht, hd] <;>
      cases wcs (wideChars v.data) <;> rfl
  rw [hread]
  by_cases hd : v.data = []
  · simp [hd, eq_comm]
  · rw [if_pos hd, Option.map_eq_some_iff]
    simp [hd, wcs_eq_some]

theorem readData_stringList {v : Stored} (ht : v.type = .multiSz) :
    readData v = some (.stringList l) ↔ v.data = [] ∧ l = [] ∨
      Listable l ∧ v.data ≠ [] ∧ ∃ rest, wideChars v.data = terminated 0 l ++ 0 :: rest := by
  have hlen := length_wideChars_le v.data
  have hread : readData v = if v.data ≠ [] then
      (multiLoop (wideChars v.data) (v.data.length + 1) 0 []).map .stringList
      else some (.stringList []) := by
    by_cases hd : v.data = [] <;> simp [readData, ht, hd]
    cases multiLoop (wideChars v.data) (v.data.length + 1) 0 [] <;> rfl
  rw [hread]
  by_cases hd : v.data = []
  · simp [hd, eq_comm]
  · rw [if_pos hd, Option.map_eq_some_iff]
    simp [hd, multiLoop_eq_some (Nat.lt_succ_of_le hlen)]

/-- A string comes back exactly when it has no NUL and its bytes can be counted. -/
theorem string_survives {type : RegType} (ht : type = .sz ∨ type = .expandSz) :
    readData (passed ⟨type, wideBytes (s ++ [0])⟩) = some (.wstring s) ↔
      0 ∉ s ∧ 2 * (s.length + 1) < 2 ^ 32 := by
  rw [readData_wstring ht, passed_iff]
  constructor
  · rintro (⟨hnil, rfl⟩ | h)
    · exact absurd hnil (passed_ne_nil (by decide) (by simp))
    · exact h
  · exact .inr

/-- A list comes back exactly when it is listable and its bytes can be counted. -/
theorem stringList_survives :
    readData (passed ⟨.multiSz, wideBytes (terminated 0 l ++ [0])⟩) = some (.stringList l) ↔
      Listable l ∧ 2 * ((terminated (0 : WChar) l).length + 1) < 2 ^ 32 := by
  rw [readData_stringList rfl, passed_iff]
  constructor
  · rintro (⟨hnil, rfl⟩ | h)
    · exact absurd hnil (passed_ne_nil (by decide) (by simp))
    · exact h
  · exact .inr

/-- What is written and read back for an alternative is the same exactly when it is
clean and its bytes can be counted. -/
theorem readData_writeData (expand : Bool) {v : RegVariant} (hv : v ≠ .empty) :
    ∃ st, writeData expand v = some st ∧
      (readData (passed st) = some v ↔ Clean v ∧ encodedSize v < 2 ^ 32) := by
  cases v with
  | empty => exact absurd rfl hv
  | wstring s =>
    refine ⟨_, rfl, string_survives ?_⟩
    cases expand with
    | false => exact .inl rfl
    | true => exact .inr rfl
  | int i =>
    refine ⟨_, rfl, ?_⟩
    have hback : ofBytes (toBytes 4 i.toNat) = i.toNat := by
      rw [ofBytes_toBytes]
      exact Nat.mod_eq_of_lt i.isLt
    rw [passed_of_lt _ (by rw [length_toBytes]; decide)]
    have hall := List.take_of_length_le (length_toBytes 4 i.toNat).le
    simp [readData, hback, hall, Clean, encodedSize]
  | ull i =>
    refine ⟨_, rfl, ?_⟩
    have hback : ofBytes (toBytes 8 i.toNat) = i.toNat := by
      rw [ofBytes_toBytes]
      exact Nat.mod_eq_of_lt i.isLt
    rw [passed_of_lt _ (by rw [length_toBytes]; decide)]
    have hall := List.take_of_length_le (length_toBytes 8 i.toNat).le
    simp [readData, hback, hall, Clean, encodedSize]
  | stringList l =>
    refine ⟨_, rfl, ?_⟩
    rw [multiBytes_eq]
    exact stringList_survives
  | byteArray b =>
    refine ⟨_, rfl, ?_⟩
    have hread : readData (passed ⟨.binary, b⟩) = some (.byteArray (b.take (u32 b.length))) := rfl
    rw [hread, Option.some.injEq, RegVariant.byteArray.injEq, List.take_eq_self_iff]
    have hlt := u32_lt b.length
    constructor
    · intro h
      exact ⟨trivial, h.trans_lt hlt⟩
    · rintro ⟨-, h⟩
      exact (u32_of_lt h).ge

end RoundTrip

end KernelLib.RegistryValues
