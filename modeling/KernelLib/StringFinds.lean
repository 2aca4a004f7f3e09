import KernelLib.StringParts
import KernelLib.StringSearch
import Mathlib.Order.Bounds.Basic

/-!
# The first occurrence of a text

`find` and `ifind` go through the positions at which the text still fits. The
sum of position and length wraps at `2 ^ 32`: a start near `npos` passes the
test and is looked at, beyond the string. A text of `2 ^ 32` characters or more
is searched for by as many of its first ones as a 32-bit length tells, and a
part of 32767 characters cannot be taken out of a string.
-/

namespace KernelLib.StringFinds

open WideMemory Word32 CountedStrings StringCompare StringReplace StringSearch StringParts

/-- What is searched for: counted characters, or characters up to a NUL. -/
inductive Needle where
  /-- The text with its length; `npos` is none. -/
  | counted (chars : List WChar) (hne : chars ≠ []) (hlt : chars.length < npos)
  /-- The NUL-terminated text. -/
  | terminated (chars : List WChar) (hne : chars ≠ []) (hz : 0 ∉ chars)

/-- The contents. -/
def Needle.chars : Needle → List WChar
  | .counted chars _ _ => chars
  | .terminated chars _ _ => chars

/-- The memory of the text and of nothing else. -/
def Needle.memory : Needle → List WChar
  | .counted chars _ _ => chars
  | .terminated chars _ _ => chars ++ [0]

/-- The `matchlen` of the call. -/
def Needle.matchlen : Needle → ℕ
  | .counted chars _ _ => chars.length
  | .terminated _ _ _ => npos

/-- The tests of the searches. -/
def hit : Matching → List WChar → ℕ → List WChar → Option Bool
  | .plain => bytesHit
  | .caseless => charsHit

/-- `find` or `ifind`. -/
def find (m : Matching) (s : SklString) (needle : Needle) (pos : ℕ) : Option ℕ :=
  match m with
  | .plain => SklString.find s needle.memory needle.matchlen pos
  | .caseless => SklString.ifind s needle.memory needle.matchlen pos

/-- The first occurrence from a position on, or `npos` without one. -/
def FirstFrom (fold : WChar → WChar) (ws chars : List WChar) (pos r : ℕ) : Prop :=
  IsLeast {p | pos ≤ p ∧ OccursAt fold ws chars p} r ∨
    r = npos ∧ ∀ p, pos ≤ p → ¬OccursAt fold ws chars p

/-- A search gives the first occurrence, reads nothing but the characters of the
string and the text, and what it finds can be taken out of the string. -/
structure Finds (m : Matching) (s : SklString) (needle : Needle) (pos : ℕ) : Prop where
  found : ∃ r, (∀ t, Alike s t → find m t needle pos = some r) ∧
    FirstFrom m.fold s.wchars needle.chars pos r ∧
    (r ≠ npos → ∀ pool : Pool, (∀ n, (pool.new n).isSome) →
      ∃ sub, substr pool s r needle.chars.length = some sub ∧
        sub.wchars.map m.fold = needle.chars.map m.fold)

/-- The start, the length and the text are in the range of the code. -/
structure InRange (m : Matching) (s : SklString) (needle : Needle) (pos : ℕ) : Prop where
  /-- The sum of start and length does not wrap to an end inside of the string. -/
  sum : ¬(2 ^ 32 ≤ pos + u32 needle.chars.length ∧
    pos + u32 needle.chars.length ≤ 2 ^ 32 + s.length)
  /-- The length is counted in 32 bits, or what is counted of it does not occur. -/
  counted : needle.chars.length < 2 ^ 32 ∨ ∀ p, pos ≤ p →
    ¬OccursAt m.fold s.wchars (needle.chars.take (u32 needle.chars.length)) p
  /-- An occurrence leaves room for a terminator. -/
  room : ¬(needle.chars.length = 32767 ∧ ∃ p, pos ≤ p ∧ OccursAt m.fold s.wchars needle.chars p)

section Needles

variable {m : Matching} {s : SklString} {needle : Needle} {pos : ℕ}

/-- What a 32-bit length keeps of the text. -/
theorem length_counted (needle : Needle) :
    (needle.chars.take (u32 needle.chars.length)).length = u32 needle.chars.length := by
  rw [List.length_take]
  exact Nat.min_eq_left (Nat.mod_le _ _)

/-- What is counted of the text begins the memory of a search. -/
theorem Needle.exists_behind (needle : Needle) :
    ∃ behind, needle.memory = needle.chars.take (u32 needle.chars.length) ++ behind := by
  have htext : ∃ behind, needle.memory = needle.chars ++ behind := by
    cases needle with
    | counted chars => exact ⟨[], (List.append_nil _).symm⟩
    | terminated chars => exact ⟨[0], rfl⟩
  obtain ⟨behind, hbehind⟩ := htext
  exact ⟨needle.chars.drop (u32 needle.chars.length) ++ behind, by
    rw [← List.append_assoc, List.take_append_drop, hbehind]⟩

/-- A search works with the length that 32 bits keep. -/
theorem findBy_eq (test : List WChar → ℕ → List WChar → Option Bool) :
    findBy test s needle.memory needle.matchlen pos =
      findLoop (test needle.memory (u32 needle.chars.length)) s.unicodeStr.memory s.length
        (u32 needle.chars.length) (s.length + 2) pos := by
  cases needle with
  | counted chars hne hlt =>
    have hpos := List.length_pos_iff.mpr hne
    have hu : u32 chars.length = chars.length := u32_of_lt (hlt.trans (by decide))
    have hone : ¬chars.length < 1 := by omega
    simp [findBy, Needle.memory, Needle.matchlen, Needle.chars, hu, hone, hlt.ne]
  | terminated chars hne hz =>
    have hraw : rawlen (chars ++ [0]) = some chars.length := rawlen_append_nul hz []
    have hone : ¬npos < 1 := by decide
    simp [findBy, Needle.memory, Needle.matchlen, Needle.chars, hraw, hone]

theorem find_eq (m : Matching) :
    find m s needle pos =
      findLoop (hit m needle.memory (u32 needle.chars.length)) s.unicodeStr.memory s.length
        (u32 needle.chars.length) (s.length + 2) pos := by
  cases m with
  | plain => exact findBy_eq bytesHit
  | caseless => exact findBy_eq charsHit

end Needles

section Tests

variable {m : Matching} {ws rest chars behind : List WChar} {n p : ℕ}

/-- Both tests compare characters, as long as the bytes can be counted. -/
theorem hit_eq (m : Matching) (str buf : List WChar) (hn : n < 2 ^ 31) :
    hit m str n buf = (comparememBy m.fold buf str n).map (· == n) := by
  cases m with
  | plain =>
    have hu : u32 (2 * n) = 2 * n := u32_of_lt (by omega)
    simp only [hit, bytesHit, hu]
    exact compareMemory_eq buf str n
  | caseless => rfl

/-- Inside of the string a test tells whether the text occurs. -/
theorem hit_spec (m : Matching) (hn : chars.length < 2 ^ 31) (hp : p + chars.length ≤ ws.length) :
    hit m (chars ++ behind) chars.length ((ws ++ rest).drop p) =
      some (decide (OccursAt m.fold ws chars p)) := by
  have hdrop : (ws ++ rest).drop p = ws.drop p ++ rest := List.drop_append_of_le_length (by omega)
  have hlen : chars.length ≤ (ws.drop p).length := by
    rw [List.length_drop]
    omega
  obtain ⟨k, hk, hiff⟩ := comparememBy_spec m.fold (a := (ws ++ rest).drop p)
    (b := chars ++ behind) (n := chars.length) (by rw [hdrop, List.length_append]; omega)
    (by rw [List.length_append]; omega)
  rw [hdrop, List.take_append_of_le_length hlen, List.take_left] at hiff
  rw [hit_eq m _ _ hn, hk, Option.map_some, Option.some_inj, Bool.eq_iff_iff, beq_iff_eq,
    decide_eq_true_iff, eq_comm, hiff, OccursAt, and_iff_right hp]

/-- Behind the string a test fails, but for a length whose bytes wrap to none. -/
theorem hit_nil (m : Matching) (str : List WChar) (hpos : 0 < n) (hn : n < 2 ^ 32) :
    hit m str n [] = none ∨ n = 2 ^ 31 ∧ hit m str n [] = some true := by
  cases m with
  | plain =>
    by_cases hhalf : n = 2 ^ 31
    · refine .inr ⟨hhalf, ?_⟩
      have hbytes : u32 (2 * n) = 0 := by rw [hhalf]; rfl
      simp [hit, bytesHit, hbytes, compareMemory]
    · have hbytes : u32 (2 * n) ≠ 0 := by
        unfold u32
        omega
      obtain ⟨k, hk⟩ := Nat.exists_eq_succ_of_ne_zero hbytes
      simp only [hit, bytesHit, hk]
      cases k <;> cases str <;> exact .inl rfl
  | caseless =>
    obtain ⟨k, rfl⟩ := Nat.exists_eq_succ_of_ne_zero hpos.ne'
    cases str <;> exact .inl rfl

end Tests

section Loops

variable {fold : WChar → WChar} {ws chars buf : List WChar} {len n fuel pos r : ℕ}
  {test : List WChar → Option Bool}

/-- A position without an occurrence is passed. -/
theorem FirstFrom.of_succ (h : FirstFrom fold ws chars (pos + 1) r)
    (hn : ¬OccursAt fold ws chars pos) : FirstFrom fold ws chars pos r := by
  have hstep : ∀ p, pos ≤ p → OccursAt fold ws chars p → pos + 1 ≤ p := by
    intro p hp hocc
    rcases Nat.eq_or_lt_of_le hp with rfl | hlt
    · exact absurd hocc hn
    · exact hlt
  rcases h with ⟨⟨hr, hocc⟩, hleast⟩ | ⟨rfl, hnone⟩
  · exact .inl ⟨⟨by omega, hocc⟩, fun p hp => hleast ⟨hstep p hp.1 hp.2, hp.2⟩⟩
  · exact .inr ⟨rfl, fun p hp hocc => hnone p (hstep p hp hocc) hocc⟩

/-- The loop finds the first occurrence when the sum of start and length does not wrap. -/
theorem findLoop_spec (htest : ∀ p, p + chars.length ≤ ws.length →
      test (buf.drop p) = some (decide (OccursAt fold ws chars p)))
    (hws : ws.length < 2 ^ 31) (hsum : pos + chars.length < 2 ^ 32)
    (hfuel : ws.length + 1 < pos + fuel) (hpos : 0 < fuel) :
    ∃ r, findLoop test buf ws.length chars.length fuel pos = some r ∧
      FirstFrom fold ws chars pos r := by
  induction fuel generalizing pos with
  | zero => omega
  | succ fuel ih =>
    have hu : u32 (pos + chars.length) = pos + chars.length := u32_of_lt hsum
    rw [findLoop, hu]
    by_cases hfits : pos + chars.length ≤ ws.length
    · rw [if_pos hfits, htest pos hfits]
      by_cases hocc : OccursAt fold ws chars pos
      · exact ⟨pos, by simp [hocc], .inl ⟨⟨le_rfl, hocc⟩, fun p hp => hp.1⟩⟩
      · have hnext : u32 (pos + 1) = pos + 1 := u32_of_lt (by omega)
        obtain ⟨r, hr, hfirst⟩ := @ih (pos + 1) (by omega) (by omega) (by omega)
        exact ⟨r, by simpa [hocc, hnext] using hr, hfirst.of_succ hocc⟩
    · refine ⟨npos, if_neg hfits, .inr ⟨rfl, fun p hp => not_occursAt_of_length (by omega)⟩⟩

/-- A sum that wraps to an end inside of the string leads the loop behind the string. -/
theorem findLoop_wraps (hnil : test [] = none ∨ n = 2 ^ 31 ∧ test [] = some true)
    (hbuf : buf.length = len) (hlen : len < 2 ^ 16) (hn : n < 2 ^ 32)
    (hsum : 2 ^ 32 ≤ pos + n) (hend : pos + n ≤ 2 ^ 32 + len) :
    findLoop test buf len n fuel pos ≠ some npos := by
  induction fuel generalizing pos with
  | zero => exact (Option.some_ne_none _).symm
  | succ fuel ih =>
    have hu : u32 (pos + n) ≤ len := by
      unfold u32
      omega
    rw [findLoop, if_pos hu]
    by_cases hpos : pos < len
    · have hnext : u32 (pos + 1) = pos + 1 := u32_of_lt (by omega)
      have hne : pos ≠ npos := by
        unfold npos
        omega
      have hrest := @ih (pos + 1) (by omega) (by omega)
      cases test (buf.drop pos) with
      | none => exact (Option.some_ne_none _).symm
      | some found => cases found <;> simp [hne, hnext, hrest]
    · rw [List.drop_eq_nil_of_le (by omega)]
      rcases hnil with hnil | ⟨rfl, hnil⟩
      · rw [hnil]
        exact (Option.some_ne_none _).symm
      · have hne : pos ≠ npos := by
          unfold npos
          omega
        simpa [hnil] using hne

/-- A search has one result: the best of the positions, or `npos` without any. -/
theorem result_unique {best : ℕ → Prop} {S : Set ℕ} {r r' : ℕ} (hmem : ∀ r, best r → r ∈ S)
    (hone : ∀ r r', best r → best r' → r = r') (h : best r ∨ r = npos ∧ ∀ p, p ∉ S)
    (h' : best r' ∨ r' = npos ∧ ∀ p, p ∉ S) : r = r' := by
  rcases h with h | ⟨rfl, hnone⟩
  · rcases h' with h' | ⟨-, hnone⟩
    · exact hone r r' h h'
    · exact absurd (hmem r h) (hnone r)
  · rcases h' with h' | ⟨rfl, -⟩
    · exact absurd (hmem r' h') (hnone r')
    · rfl

theorem firstFrom_iff : FirstFrom fold ws chars pos r ↔
    IsLeast {p | pos ≤ p ∧ OccursAt fold ws chars p} r ∨
      r = npos ∧ ∀ p, p ∉ {p | pos ≤ p ∧ OccursAt fold ws chars p} := by
  simp only [FirstFrom, Set.mem_ofPred_eq, not_and]

/-- There is one first occurrence. -/
theorem FirstFrom.unique {r' : ℕ} (h : FirstFrom fold ws chars pos r)
    (h' : FirstFrom fold ws chars pos r') : r = r' :=
  result_unique (fun _ h => h.1) (fun _ _ => IsLeast.unique) (firstFrom_iff.mp h)
    (firstFrom_iff.mp h')

theorem FirstFrom.eq_npos (h : FirstFrom fold ws chars pos r)
    (hnone : ∀ p, pos ≤ p → ¬OccursAt fold ws chars p) : r = npos :=
  h.unique (.inr ⟨rfl, hnone⟩)

/-- `npos` is not returned where there is an occurrence. -/
theorem FirstFrom.ne_npos {p : ℕ} (h : FirstFrom fold ws chars pos r) (hws : ws.length ≤ 32767)
    (hp : pos ≤ p) (hocc : OccursAt fold ws chars p) : r ≠ npos := by
  rcases h with hleast | ⟨-, hnone⟩
  · have hle := hleast.2 ⟨hp, hocc⟩
    have hfits := hocc.1
    unfold npos
    omega
  · exact absurd hocc (hnone p hp)

/-- What is found is an occurrence. -/
theorem FirstFrom.occursAt (h : FirstFrom fold ws chars pos r) (hne : r ≠ npos) :
    pos ≤ r ∧ OccursAt fold ws chars r := by
  rcases h with h | ⟨rfl, -⟩
  · exact h.1
  · exact absurd rfl hne

end Loops

section Searches

variable {m : Matching} {s : SklString} {needle : Needle} {pos : ℕ}

/-- A text that is too long to be counted occurs nowhere. -/
theorem counted_of_occursAt {p : ℕ} (hr : s.unicodeStr.Readable)
    (hocc : OccursAt m.fold s.wchars needle.chars p) : p + needle.chars.length ≤ s.length := by
  rw [← length_wchars hr]
  exact hocc.1

/-- Without a wrapped sum a search finds the first occurrence of what is counted. -/
theorem find_spec (m : Matching) (needle : Needle) (hr : s.unicodeStr.Readable)
    (hpos : pos < 2 ^ 32)
    (hsum : ¬(2 ^ 32 ≤ pos + u32 needle.chars.length ∧
      pos + u32 needle.chars.length ≤ 2 ^ 32 + s.length)) :
    ∃ r, find m s needle pos = some r ∧
      FirstFrom m.fold s.wchars (needle.chars.take (u32 needle.chars.length)) pos r := by
  have hn := u32_lt needle.chars.length
  have hlen := length_wchars hr
  have hle := length_le s
  have hcounted := length_counted needle
  obtain ⟨behind, hbehind⟩ := needle.exists_behind
  obtain ⟨rest, hrest⟩ := exists_rest s
  rw [find_eq, hrest, hbehind, ← hlen]
  generalize needle.chars.take (u32 needle.chars.length) = chars at hcounted ⊢
  by_cases hwrap : 2 ^ 32 ≤ pos + u32 needle.chars.length
  · have hu : ¬u32 (pos + u32 needle.chars.length) ≤ s.wchars.length := by
      unfold u32 at *
      omega
    refine ⟨npos, by rw [findLoop, if_neg hu], .inr ⟨rfl, fun p hp => ?_⟩⟩
    exact not_occursAt_of_length (by rw [hcounted]; omega)
  · rw [← hcounted] at hwrap ⊢
    exact findLoop_spec (fun p hp => hit_spec m (by omega) hp) (by omega) (by omega) (by omega)
      (by omega)

/-- With a wrapped sum a search on the characters alone does not end without a result. -/
theorem find_wraps (m : Matching) (needle : Needle) (hr : s.unicodeStr.Readable)
    (hpos : pos < 2 ^ 32) (hsum : 2 ^ 32 ≤ pos + u32 needle.chars.length)
    (hend : pos + u32 needle.chars.length ≤ 2 ^ 32 + s.length) :
    find m (bare s) needle pos ≠ some npos := by
  have hn := u32_lt needle.chars.length
  have hle := length_le s
  rw [find_eq, memory_bare, (alike_bare s).length_eq hr]
  exact findLoop_wraps (hit_nil m _ (by omega) hn) (length_wchars hr) (by omega) hn hsum hend

/-- A search that is right has no sum that wraps into the string. -/
theorem Finds.sum (h : Finds m s needle pos) (hr : s.unicodeStr.Readable) (hpos : pos < 2 ^ 32) :
    ¬(2 ^ 32 ≤ pos + u32 needle.chars.length ∧
      pos + u32 needle.chars.length ≤ 2 ^ 32 + s.length) := by
  rintro ⟨hsum, hend⟩
  have hle := length_le s
  obtain ⟨r, hfind, hfirst, -⟩ := h.found
  -- the text does not occur, so that `npos` had to be returned
  have hnone : r = npos := hfirst.eq_npos fun p hp hocc => by
    have hfits := counted_of_occursAt hr hocc
    have hu : u32 needle.chars.length = needle.chars.length := u32_of_lt (by omega)
    omega
  exact find_wraps m needle hr hpos hsum hend (hnone ▸ hfind _ (alike_bare s))

/-- It is not led astray by the first characters of a text that cannot be counted. -/
theorem Finds.counted (h : Finds m s needle pos) (hr : s.unicodeStr.Readable)
    (hpos : pos < 2 ^ 32) :
    needle.chars.length < 2 ^ 32 ∨ ∀ p, pos ≤ p →
      ¬OccursAt m.fold s.wchars (needle.chars.take (u32 needle.chars.length)) p := by
  have hlen := length_wchars hr
  have hle := length_le s
  by_cases hlt : needle.chars.length < 2 ^ 32
  · exact .inl hlt
  · obtain ⟨r, hfind, hfirst, -⟩ := h.found
    obtain ⟨r', hr', hfirst'⟩ := find_spec m needle hr hpos (h.sum hr hpos)
    obtain rfl : r' = r := Option.some.inj (hr'.symm.trans (hfind s (alike_refl s)))
    have hnone : r' = npos := hfirst.eq_npos fun q _ hq => by
      have := counted_of_occursAt hr hq
      omega
    exact .inr fun p hp hocc => hfirst'.ne_npos (by omega) hp hocc hnone

/-- What it finds leaves room for a terminator. -/
theorem Finds.room (h : Finds m s needle pos) (hr : s.unicodeStr.Readable) :
    ¬(needle.chars.length = 32767 ∧ ∃ p, pos ≤ p ∧ OccursAt m.fold s.wchars needle.chars p) := by
  rintro ⟨hmax, p, hp, hocc⟩
  have hlen := length_wchars hr
  have hle := length_le s
  obtain ⟨r, -, hfirst, hsub⟩ := h.found
  have hne := hfirst.ne_npos (by omega) hp hocc
  have hfits := counted_of_occursAt hr (hfirst.occursAt hne).2
  have hpool : ∀ n, (Pool.zeroed.new n).isSome := fun _ => rfl
  obtain ⟨sub, hs, -⟩ := hsub hne Pool.zeroed hpool
  have hnone := substr_overflow r needle.chars.length hpool hr (by
    rw [List.length_take, List.length_drop]
    omega)
  rw [hnone] at hs
  cases hs

/-- In these ranges a search is right. -/
theorem InRange.finds (h : InRange m s needle pos) (hr : s.unicodeStr.Readable)
    (hpos : pos < 2 ^ 32) : Finds m s needle pos := by
  have hlen := length_wchars hr
  have hle := length_le s
  obtain ⟨r, hfind, hfirst⟩ := find_spec m needle hr hpos h.sum
  have hexact : FirstFrom m.fold s.wchars needle.chars pos r := by
    by_cases hlt : needle.chars.length < 2 ^ 32
    · rwa [u32_of_lt hlt, List.take_length] at hfirst
    · refine .inr ⟨hfirst.eq_npos (h.counted.resolve_left hlt), fun p _ hocc => ?_⟩
      have := counted_of_occursAt hr hocc
      omega
  refine ⟨r, fun t ht => ?_, hexact, fun hne pool hpool => ?_⟩
  · obtain ⟨r', hfind', hfirst'⟩ := find_spec m needle (ht.readable hr) hpos
      (by rw [ht.length_eq hr]; exact h.sum)
    rw [ht.wchars] at hfirst'
    rw [hfind', hfirst'.unique hfirst]
  · obtain ⟨hp, hocc⟩ := hexact.occursAt hne
    have hfits := counted_of_occursAt hr hocc
    have hmax : needle.chars.length ≠ 32767 := fun hmax => h.room ⟨hmax, r, hp, hocc⟩
    obtain ⟨sub, hsub, hw⟩ := substr_spec r needle.chars.length hpool hr (by
      rw [List.length_take, List.length_drop]
      omega)
    exact ⟨sub, hsub, by rw [hw]; exact hocc.2⟩

/-- `find` and `ifind` give the first occurrence, and stay inside of the string
and the text, exactly in these ranges. -/
theorem finds_iff (m : Matching) (s : SklString) (needle : Needle) (pos : ℕ)
    (hr : s.unicodeStr.Readable) (hpos : pos < 2 ^ 32) :
    Finds m s needle pos ↔ InRange m s needle pos :=
  ⟨fun h => ⟨h.sum hr hpos, h.counted hr hpos, h.room hr⟩, fun h => h.finds hr hpos⟩

/-- `cab`, as it is constructed. -/
def cab : SklString := (ofBuf .zeroed [99, 97, 98] 3).getD .null

/-- `ab`, with its length. -/
def ab : Needle := .counted [97, 98] (by decide) (by decide)

theorem readable_cab : cab.unicodeStr.Readable := by
  unfold UnicodeString.Readable
  decide

theorem finds_ab : Finds .plain cab ab 1 :=
  (finds_iff .plain cab ab 1 readable_cab (by decide)).mpr
    ⟨by decide, .inl (by decide), fun h => absurd h.1 (by decide)⟩

/-- A search from `npos` on looks behind the string. -/
theorem not_finds_npos : ¬Finds .plain cab (.counted [98] (by decide) (by decide)) npos :=
  fun h => h.sum readable_cab (by decide) ⟨by decide, by decide⟩

end Searches

end KernelLib.StringFinds
