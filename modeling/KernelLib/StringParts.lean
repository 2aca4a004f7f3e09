import KernelLib.StringReplace

/-!
# Parts of a string

`substr`, and what all searches rest on: the characters of a string that can be
read, and the places at which a text occurs among them. A part of 32767
characters cannot be constructed, since its `MaximumLength` wraps to zero.
-/

namespace KernelLib.StringParts

open WideMemory Word32 CountedStrings StringCompare StringReplace

/-- `substr`. -/
def substr (pool : Pool) (s : SklString) (pos count : ℕ) : Option SklString :=
  let thislen := s.length
  let copylen := min (if thislen > pos then thislen - pos else 0) count
  if copylen < 1 then some .null
  else ofBuf pool (s.unicodeStr.memory.drop pos) copylen

/-- A text occurs at a position, under the mapping of characters. -/
def OccursAt (fold : WChar → WChar) (ws chars : List WChar) (p : ℕ) : Prop :=
  p + chars.length ≤ ws.length ∧ ((ws.drop p).take chars.length).map fold = chars.map fold

instance (fold : WChar → WChar) (ws chars : List WChar) (p : ℕ) :
    Decidable (OccursAt fold ws chars p) :=
  inferInstanceAs (Decidable (_ ∧ _))

/-- The other string has the same characters; what lies behind them may differ. -/
structure Alike (s t : SklString) : Prop where
  length : t.unicodeStr.length = s.unicodeStr.length
  wchars : t.wchars = s.wchars
  isValid : t.isValid = s.isValid

/-- The string with nothing behind its characters. -/
def bare (s : SklString) : SklString :=
  ⟨{ s.unicodeStr with buffer := s.unicodeStr.buffer.map (·.take (s.unicodeStr.length / 2)) }⟩

section Characters

variable {s t : SklString} {fold : WChar → WChar} {ws chars : List WChar} {p : ℕ}

/-- A readable string is as long as its `Length` says. -/
theorem length_of_readable (hr : s.unicodeStr.Readable) : s.length = s.unicodeStr.length / 2 := by
  unfold SklString.length
  cases hb : s.unicodeStr.buffer with
  | none =>
    simp only [UnicodeString.Readable, UnicodeString.memory, hb, Option.getD_none,
      List.length_nil] at hr
    simpa using (Nat.le_zero.mp hr).symm
  | some b => simp

theorem length_wchars (hr : s.unicodeStr.Readable) : s.wchars.length = s.length := by
  rw [length_of_readable hr, SklString.wchars, UnicodeString.wchars, List.length_take]
  exact Nat.min_eq_left hr

/-- At most 32767 characters fit into a `Length`. -/
theorem length_le (s : SklString) : s.length ≤ 32767 := by
  have hlt := s.unicodeStr.length_lt
  unfold SklString.length
  split <;> omega

/-- The memory begins with the characters. -/
theorem exists_rest (s : SklString) : ∃ rest, s.unicodeStr.memory = s.wchars ++ rest :=
  ⟨_, (List.take_append_drop _ _).symm⟩

theorem alike_refl (s : SklString) : Alike s s := ⟨rfl, rfl, rfl⟩

theorem Alike.readable (ha : Alike s t) (hr : s.unicodeStr.Readable) : t.unicodeStr.Readable := by
  have hlen := congrArg List.length ha.wchars
  rw [length_wchars hr, length_of_readable hr, SklString.wchars, UnicodeString.wchars,
    List.length_take, ha.length] at hlen
  rw [UnicodeString.Readable, ha.length]
  omega

theorem Alike.length_eq (ha : Alike s t) (hr : s.unicodeStr.Readable) : t.length = s.length := by
  rw [length_of_readable hr, length_of_readable (ha.readable hr), ha.length]

theorem memory_bare (s : SklString) : (bare s).unicodeStr.memory = s.wchars := by
  simp only [bare, UnicodeString.memory, SklString.wchars, UnicodeString.wchars]
  cases s.unicodeStr.buffer <;> simp

theorem alike_bare (s : SklString) : Alike s (bare s) := by
  refine ⟨rfl, ?_, ?_⟩
  · have hm := memory_bare s
    rw [SklString.wchars, UnicodeString.wchars, hm, SklString.wchars, UnicodeString.wchars,
      List.take_take]
    exact congrArg (fun n => List.take n s.unicodeStr.memory) (Nat.min_self _)
  · simp [SklString.isValid, bare]

/-- A text that is longer than the string occurs nowhere. -/
theorem not_occursAt_of_length (h : ws.length < p + chars.length) : ¬OccursAt fold ws chars p :=
  fun hocc => absurd hocc.1 (Nat.not_le_of_lt h)

end Characters

section Substr

variable {pool : Pool} {s : SklString}

/-- A part is constructed from as many characters as there are. -/
theorem substr_eq (pool : Pool) (pos count : ℕ) (hr : s.unicodeStr.Readable) :
    ∃ rest, substr pool s pos count =
      if ((s.wchars.drop pos).take count).length < 1 then some .null
      else ofBuf pool ((s.wchars.drop pos).take count ++ rest)
        ((s.wchars.drop pos).take count).length := by
  obtain ⟨rest, hrest⟩ := exists_rest s
  have hlen := length_wchars hr
  have hcopy : min (if s.length > pos then s.length - pos else 0) count =
      ((s.wchars.drop pos).take count).length := by
    rw [List.length_take, List.length_drop, hlen]
    split <;> omega
  refine ⟨(s.wchars.drop pos).drop count ++ rest, ?_⟩
  simp only [substr, hcopy]
  split
  · rfl
  · next hpos =>
    have hle : pos ≤ s.wchars.length := by
      simp only [List.length_take, List.length_drop] at hpos
      omega
    rw [hrest, List.drop_append_of_le_length hle, ← List.append_assoc, List.take_append_drop]

/-- A part that leaves room for the terminator has its characters. -/
theorem substr_spec (pos count : ℕ) (hpool : ∀ n, (pool.new n).isSome) (hr : s.unicodeStr.Readable)
    (hlt : ((s.wchars.drop pos).take count).length < 32767) :
    ∃ sub, substr pool s pos count = some sub ∧ sub.wchars = (s.wchars.drop pos).take count := by
  obtain ⟨rest, heq⟩ := substr_eq pool pos count hr
  rw [heq]
  split
  · next hz =>
    have hnil : (s.wchars.drop pos).take count = [] :=
      List.length_eq_zero_iff.mp (Nat.lt_one_iff.mp hz)
    exact ⟨.null, rfl, by rw [hnil]; rfl⟩
  · have hmod := Nat.mod_eq_of_lt (hlt.trans (by decide : 32767 < 2 ^ 15))
    have htext : ((s.wchars.drop pos).take count).length < 2 ^ 31 := by omega
    rcases ofBuf_spec rest hpool htext with ⟨sub, hsub, hw⟩ | ⟨-, hmax⟩
    · rw [hmod, List.take_length] at hw
      exact ⟨sub, hsub, hw⟩
    · omega

/-- A part that does not leave room is copied out of its block. -/
theorem substr_overflow (pos count : ℕ) (hpool : ∀ n, (pool.new n).isSome) (hr : s.unicodeStr.Readable)
    (hmax : ((s.wchars.drop pos).take count).length = 32767) : substr pool s pos count = none := by
  obtain ⟨rest, heq⟩ := substr_eq pool pos count hr
  rw [heq, if_neg (by omega)]
  exact ofBuf_overflow rest hpool (by omega) (by omega)

end Substr

end KernelLib.StringParts
