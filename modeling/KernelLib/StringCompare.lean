import KernelLib.CountedStrings
import Mathlib.Data.List.Lex

/-!
# Comparing characters

`skl::tolower`, the two memory comparisons of `skl::string`, which give the
first index at which the characters differ, and the loop of its `compare` and
`icompare`, which orders strings like words in a dictionary. A comparison that
reads outside of a block fails. C strings are characters with a NUL behind
them.
-/

namespace KernelLib.StringCompare

open WideMemory CountedStrings

/-- `tolower`. -/
def tolower (c : WChar) : WChar := if 65 ≤ c ∧ c ≤ 90 then c + 32 else c

/-- A comparison of characters under a mapping of them: the number of equal
ones in front. -/
def comparememBy (fold : WChar → WChar) : List WChar → List WChar → ℕ → Option ℕ
  | _, _, 0 => some 0
  | b :: str, a :: str2, strlen + 1 =>
    if fold a ≠ fold b then some 0 else (comparememBy fold str str2 strlen).map (· + 1)
  | _, _, _ + 1 => none

/-- `comparemem`. -/
def comparemem : List WChar → List WChar → ℕ → Option ℕ := comparememBy id

/-- `icomparemem`. -/
def icomparemem : List WChar → List WChar → ℕ → Option ℕ := comparememBy tolower

/-- The loop of both comparisons with a counted string; the lengths count down. -/
def compareBy (fold : WChar → WChar) : List WChar → ℕ → List WChar → ℕ → Option ℤ
  | a :: buf, thislen + 1, b :: str, strlen + 1 =>
    if fold a < fold b then some (-1)
    else if fold b < fold a then some 1
    else compareBy fold buf thislen str strlen
  | _, _ + 1, _, _ + 1 => none
  | _, thislen, _, strlen =>
    some (if strlen < thislen then 1 else if thislen < strlen then -1 else 0)

/-- `compare(const wchar_t*, unsigned)`. -/
def compareCounted (s : SklString) (str : List WChar) (strlen : ℕ) : Option ℤ :=
  compareBy id s.unicodeStr.memory s.length str strlen

/-- `compare(const string&)`. -/
def compareString (s str : SklString) : Option ℤ :=
  compareCounted s str.unicodeStr.memory (str.unicodeStr.length / 2)

/-- `operator<`. -/
def less (s r : SklString) : Option Bool := (compareString s r).map (· < 0)

/-- The loop of both comparisons with a NUL-terminated string. -/
def compareNulBy (fold : WChar → WChar) : List WChar → ℕ → List WChar → Option ℤ
  | _, _, [] => none
  | _, 0, b :: _ => some (if b ≠ 0 then -1 else 0)
  | buf, thislen + 1, b :: str =>
    if b = 0 then some 1
    else match buf with
      | [] => none
      | a :: buf =>
        if fold a < fold b then some (-1)
        else if fold b < fold a then some 1
        else compareNulBy fold buf thislen str

/-- `compare(const wchar_t*)`. -/
def compareNul (s : SklString) (str : List WChar) : Option ℤ :=
  compareNulBy id s.unicodeStr.memory s.length str

/-- `compare(const UNICODE_STRING&)`. -/
def compareUnicode (s : SklString) (str : UnicodeString) : Option ℤ :=
  compareCounted s str.memory (str.length / 2)

/-- `icompare(const wchar_t*, unsigned)`. -/
def icompareCounted (s : SklString) (str : List WChar) (strlen : ℕ) : Option ℤ :=
  compareBy tolower s.unicodeStr.memory s.length str strlen

/-- `icompare(const wchar_t*)`. -/
def icompareNul (s : SklString) (str : List WChar) : Option ℤ :=
  compareNulBy tolower s.unicodeStr.memory s.length str

/-- `icompare(const string&)`. -/
def icompareString (s str : SklString) : Option ℤ :=
  icompareCounted s str.unicodeStr.memory (str.unicodeStr.length / 2)

/-- `icompare(const UNICODE_STRING&)`. -/
def icompareUnicode (s : SklString) (str : UnicodeString) : Option ℤ :=
  icompareCounted s str.memory (str.length / 2)

/-- A NUL-terminated string in memory, of less than `2 ^ 32` bytes. -/
structure CString where
  /-- The characters before the NUL. -/
  chars : List WChar
  /-- What lies behind the NUL. -/
  rest : List WChar
  nonzero : 0 ∉ chars
  length_lt : chars.length < 2 ^ 31

/-- The memory that a pointer to the string can read. -/
def CString.memory (s : CString) : List WChar := s.chars ++ 0 :: s.rest

/-- Counted characters in memory, of less than `2 ^ 32` bytes. -/
structure Text where
  /-- The characters that are counted. -/
  chars : List WChar
  /-- What lies behind them. -/
  rest : List WChar
  length_lt : chars.length < 2 ^ 31

/-- The memory that a pointer to the text can read. -/
def Text.memory (t : Text) : List WChar := t.chars ++ t.rest

/-- The length of a C string is found. -/
theorem CString.rawlen_memory (s : CString) : rawlen s.memory = some s.chars.length :=
  rawlen_append_nul s.nonzero s.rest

/-- An `unsigned` counts its characters. -/
theorem CString.u32_length (s : CString) : Word32.u32 s.chars.length = s.chars.length :=
  Word32.u32_of_lt (s.length_lt.trans (by decide))

variable {fold : WChar → WChar} {a b : List WChar} {n : ℕ}

/-- Inside of both blocks, a comparison gives its length when the characters
agree, and less otherwise. -/
theorem comparememBy_spec (fold : WChar → WChar) (ha : n ≤ a.length) (hb : n ≤ b.length) :
    ∃ m, comparememBy fold a b n = some m ∧
      (n = m ↔ (a.take n).map fold = (b.take n).map fold) := by
  induction n generalizing a b with
  | zero => exact ⟨0, by rw [comparememBy], by simp⟩
  | succ n ih =>
    cases a with
    | nil => simp at ha
    | cons x a =>
      cases b with
      | nil => simp at hb
      | cons y b =>
        rw [List.length_cons] at ha hb
        rw [comparememBy, List.take_succ_cons, List.take_succ_cons, List.map_cons, List.map_cons,
          List.cons.injEq]
        by_cases hxy : fold y = fold x
        · obtain ⟨m, hm, hiff⟩ := ih (a := a) (b := b) (by omega) (by omega)
          refine ⟨m + 1, by rw [if_neg (not_not_intro hxy), hm]; rfl, ?_⟩
          rw [Nat.succ_inj, hiff]
          simp [hxy]
        · refine ⟨0, if_pos hxy, ?_⟩
          simp [Ne.symm hxy]

/-- No more characters agree than there are. -/
theorem comparememBy_le {m : ℕ} (h : comparememBy fold a b n = some m) : m ≤ a.length := by
  induction n generalizing a b m with
  | zero =>
    rw [comparememBy] at h
    exact Option.some.inj h ▸ Nat.zero_le _
  | succ n ih =>
    cases a with
    | nil => simp [comparememBy] at h
    | cons x a =>
      cases b with
      | nil => simp [comparememBy] at h
      | cons y b =>
        rw [comparememBy] at h
        split at h
        · exact Option.some.inj h ▸ Nat.zero_le _
        · obtain ⟨k, hk, rfl⟩ := Option.map_eq_some_iff.mp h
          exact Nat.succ_le_succ (ih hk)

/-- Bytes of whole characters agree where the characters do. -/
theorem compareMemory_eq (a b : List WChar) (n : ℕ) :
    (compareMemory a b (2 * n)).map (· == 2 * n) = (comparemem a b n).map (· == n) := by
  unfold comparemem
  induction n generalizing a b with
  | zero => simp [compareMemory, comparememBy]
  | succ n ih =>
    rw [Nat.mul_succ]
    cases a with
    | nil => simp [compareMemory, comparememBy]
    | cons x a =>
      cases b with
      | nil => simp [compareMemory, comparememBy]
      | cons y b =>
        rw [compareMemory, comparememBy]
        by_cases hxy : x = y
        · have hxy' : id y = id x := hxy.symm
          have hih := congrArg (Option.map id) (ih a b)
          rw [if_pos hxy, if_neg (not_not_intro hxy'), Option.map_map, Option.map_map]
          simpa [Function.comp_def] using hih
        · have hxy' : id y ≠ id x := Ne.symm hxy
          rw [if_neg hxy, if_pos hxy']
          split_ifs <;> simp

/-- The numbers of characters. -/
def ranks (fold : WChar → WChar) (l : List WChar) : List ℕ := l.map fun c => (fold c).toNat

/-- The dictionary order of two sequences as a sign. -/
def sign (x y : List ℕ) : ℤ := if x < y then -1 else if y < x then 1 else 0

theorem sign_cons (p q : ℕ) (x y : List ℕ) :
    sign (p :: x) (q :: y) = if p < q then -1 else if q < p then 1 else sign x y := by
  unfold sign
  rcases Nat.lt_trichotomy p q with h | rfl | h
  · simp [List.cons_lt_cons_iff, h]
  · simp
  · have hn : ¬p < q := by omega
    have hne : p ≠ q := by omega
    simp [List.cons_lt_cons_iff, h, hn, hne]

/-- The loop orders the characters like words in a dictionary. -/
theorem compareBy_spec (fold : WChar → WChar) {m : ℕ} (ha : m ≤ a.length) (hb : n ≤ b.length) :
    compareBy fold a m b n = some (sign (ranks fold (a.take m)) (ranks fold (b.take n))) := by
  induction m generalizing a b n with
  | zero =>
    cases n with
    | zero => simp [compareBy, ranks, sign]
    | succ n =>
      obtain ⟨y, b, rfl⟩ := List.exists_cons_of_length_pos (Nat.lt_of_lt_of_le n.succ_pos hb)
      simp [compareBy, ranks, sign]
  | succ m ih =>
    obtain ⟨x, a, rfl⟩ := List.exists_cons_of_length_pos (Nat.lt_of_lt_of_le m.succ_pos ha)
    cases n with
    | zero => simp [compareBy, ranks, sign]
    | succ n =>
      obtain ⟨y, b, rfl⟩ := List.exists_cons_of_length_pos (Nat.lt_of_lt_of_le n.succ_pos hb)
      rw [List.length_cons] at ha hb
      rw [compareBy, ih (by omega) (by omega), List.take_succ_cons, List.take_succ_cons]
      simp only [ranks, List.map_cons, sign_cons, UInt16.lt_iff_toNat_lt]
      split_ifs <;> rfl

theorem ranks_injective {x y : List WChar} (h : ranks id x = ranks id y) : x = y :=
  List.map_injective_iff.mpr (fun _ _ he => UInt16.toNat_inj.mp he) h

end KernelLib.StringCompare
