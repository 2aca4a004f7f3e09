import KernelLib.LoopRounds
import KernelLib.StringReplace

/-!
# The rounds of a replacement

Both loops of `repalce` and `irepalce` move their index in the header and, at an
occurrence, by `osl - 1` in the body as well. An empty search text moves it back
to where it was. Behind an occurrence that ends less than its own length below
`2 ^ 32` the sum in the condition wraps, and the loop leaves the text.
-/

namespace KernelLib.StringRounds

open WideMemory Word32 CountedStrings StringCompare ScanReplace StringReplace LoopRounds

/-- A NUL-terminated text in memory, of any length. -/
structure NulText where
  /-- The characters before the NUL. -/
  chars : List WChar
  /-- What lies behind the NUL. -/
  rest : List WChar
  nonzero : 0 ∉ chars

/-- The memory that a pointer to the text can read. -/
def NulText.memory (t : NulText) : List WChar := t.chars ++ 0 :: t.rest

/-- `rawlen`: the length that an `unsigned` keeps. -/
def NulText.length (t : NulText) : ℕ := u32 t.chars.length

/-- The characters that are counted. -/
def NulText.counted (t : NulText) : List WChar := t.chars.take t.length

section Rounds

variable (compare : List WChar → List WChar → ℕ → Option ℕ) (str old ns : List WChar)
  (osl strLen nsl : ℕ)

/-- A round of the counting loop, at `i` and `repalce_count`. -/
def countRound (s : ℕ × ℕ) : Option (Option (ℕ × ℕ)) :=
  if u32 (s.1 + osl) < strLen then do
    let m ← compare (str.drop s.1) old osl
    if osl = m then some (some (u32 (u32 (s.1 + sub32 osl 1) + 1), u32 (s.2 + 1)))
    else some (some (u32 (s.1 + 1), s.2))
  else some none

/-- A round of the copying loop. -/
def copyRound (c : Cursor) : Option (Option Cursor) :=
  if u32 (c.i + osl) < strLen then do
    let m ← compare (str.drop c.i) old osl
    if osl = m then
      let buffer ← copyMemoryAt c.buffer c.copyLen (str.drop c.pre) (2 * sub32 c.i c.pre)
      let copyLen := u32 (c.copyLen + sub32 c.i c.pre)
      let buffer ← copyMemoryAt buffer copyLen ns (2 * nsl)
      some (some
        { i := u32 (u32 (c.i + sub32 osl 1) + 1)
          pre := u32 (c.i + osl)
          copyLen := u32 (copyLen + nsl)
          buffer := buffer })
    else some (some { c with i := u32 (c.i + 1) })
  else some none

variable {compare str old ns osl strLen nsl}

/-- The counting loop makes these rounds. -/
theorem countLoop_eq (fuel i count : ℕ) :
    countLoop compare str old osl strLen fuel i count =
      (loop (countRound compare str old osl strLen) fuel (i, count)).map Prod.snd := by
  induction fuel generalizing i count with
  | zero => rfl
  | succ fuel ih =>
    rw [countLoop, loop, countRound]
    split
    · cases compare (str.drop i) old osl with
      | none => rfl
      | some m =>
        simp only [Option.bind_eq_bind, Option.bind_some]
        split
        · exact ih _ _
        · exact ih _ _
    · rfl

/-- The copying loop makes these rounds. -/
theorem copyLoop_eq (fuel : ℕ) (c : Cursor) :
    copyLoop compare str old ns osl strLen nsl fuel c =
      loop (copyRound compare str old ns osl strLen nsl) fuel c := by
  induction fuel generalizing c with
  | zero => rfl
  | succ fuel ih =>
    rw [copyLoop, loop, copyRound]
    split
    · cases compare (str.drop c.i) old osl with
      | none => rfl
      | some m =>
        simp only [Option.bind_eq_bind, Option.bind_some]
        split
        · cases copyMemoryAt c.buffer c.copyLen (str.drop c.pre) (2 * sub32 c.i c.pre) with
          | none => rfl
          | some b =>
            simp only [Option.bind_some]
            cases copyMemoryAt b (u32 (c.copyLen + sub32 c.i c.pre)) ns (2 * nsl) with
            | none => rfl
            | some b' => exact ih _
        · exact ih _
    · rfl

end Rounds

/-- Both loops stop after finitely many rounds, from each of which to the next `i`
grows, whatever lies behind the text and whatever block is copied to. A copy that
does not fit into its block ends the copying loop, too. -/
structure Terminates (m : Matching) (text : List WChar) (old ns : NulText) : Prop where
  counting : ∀ rest, Stops (countRound (comparememBy m.fold) (text ++ rest) old.memory old.length
    text.length) Prod.fst False (0, 0)
  copying : ∀ rest buffer, Stops (copyRound (comparememBy m.fold) (text ++ rest) old.memory
    ns.memory old.length text.length ns.length) Cursor.i True ⟨0, 0, 0, buffer⟩

/-- The positions at which the scan finds the counted characters. -/
def found (fold : WChar → WChar) (old text : List WChar) : List ℕ :=
  occurrences (before (stands fold old) old.length) old.length text

section Indices

variable {fold : WChar → WChar} {text old : List WChar} {i : ℕ}

/-- Where a loop is: the sum in its condition does not wrap, and will not behind
the occurrences to come. -/
structure Scans (fold : WChar → WChar) (text old : List WChar) (i : ℕ) : Prop where
  le : i ≤ text.length
  sum : i + old.length < 2 ^ 32
  ahead : ∀ p ∈ found fold old (text.drop i), i + p + 2 * old.length < 2 ^ 32

/-- Behind an occurrence. -/
theorem Scans.found (h : Scans fold text old i) (hk : 0 < old.length)
    (hlt : i + old.length < text.length)
    (hf : before (stands fold old) old.length (text.drop i)) :
    Scans fold text old (i + old.length) := by
  have hahead := h.ahead
  rw [StringRounds.found, occurrences_found hk (drop_ne_nil (by omega)) hf, List.drop_drop] at hahead
  have hhere := hahead 0 List.mem_cons_self
  refine ⟨hlt.le, by omega, fun p hp => ?_⟩
  have hthere := hahead (p + old.length) (List.mem_cons_of_mem _ (List.mem_map_of_mem hp))
  omega

/-- Behind a character at which there is none. -/
theorem Scans.skip (h : Scans fold text old i) (hlt : i + old.length < text.length)
    (htext : text.length < 2 ^ 32)
    (hn : ¬before (stands fold old) old.length (text.drop i)) :
    Scans fold text old (i + 1) := by
  have hahead := h.ahead
  rw [StringRounds.found, occurrences_skip (drop_ne_nil (by omega)) hn, List.drop_drop] at hahead
  refine ⟨by omega, by omega, fun p hp => ?_⟩
  have hthere := hahead (p + 1) (List.mem_map_of_mem hp)
  omega

end Indices

section Stopping

variable {fold : WChar → WChar} {text old rest behind ns buffer : List WChar} {i count nsl : ℕ}

/-- At an occurrence the counting loop counts it and goes on behind it. -/
theorem countRound_found (rest behind : List WChar) (count : ℕ) (hk : 0 < old.length)
    (hsum : i + old.length < 2 ^ 32) (hlt : i + old.length < text.length)
    (hf : before (stands fold old) old.length (text.drop i)) :
    countRound (comparememBy fold) (text ++ rest) (old ++ behind) old.length text.length (i, count) =
      some (some (i + old.length, u32 (count + 1))) := by
  obtain ⟨m, hm, hiff⟩ := compare_front fold old behind rest hlt
  rw [countRound, u32_of_lt hsum, if_pos hlt, hm, Option.bind_eq_bind, Option.bind_some,
    if_pos (hiff.mpr hf), index_found hk hsum]

/-- Elsewhere it goes on at the next character. -/
theorem countRound_skip (rest behind : List WChar) (count : ℕ) (hsum : i + old.length < 2 ^ 32)
    (hlt : i + old.length < text.length) (hi : i + 1 < 2 ^ 32)
    (hn : ¬before (stands fold old) old.length (text.drop i)) :
    countRound (comparememBy fold) (text ++ rest) (old ++ behind) old.length text.length (i, count) =
      some (some (i + 1, count)) := by
  obtain ⟨m, hm, hiff⟩ := compare_front fold old behind rest hlt
  rw [countRound, u32_of_lt hsum, if_pos hlt, hm, Option.bind_eq_bind, Option.bind_some,
    if_neg (fun he => hn (hiff.mp he)), u32_of_lt hi]

/-- Where no occurrence fits any more it ends. -/
theorem countRound_done (rest behind : List WChar) (count : ℕ) (hsum : i + old.length < 2 ^ 32)
    (hlt : ¬i + old.length < text.length) :
    countRound (comparememBy fold) (text ++ rest) (old ++ behind) old.length text.length (i, count) =
      some none := by
  rw [countRound, u32_of_lt hsum, if_neg hlt]

/-- The counting loop ends or goes on further ahead. -/
theorem countRound_scans (rest behind : List WChar) (hk : 0 < old.length)
    (htext : text.length < 2 ^ 32) {s : ℕ × ℕ} (h : Scans fold text old s.1) :
    countRound (comparememBy fold) (text ++ rest) (old ++ behind) old.length text.length s =
        some none ∨
      ∃ t, countRound (comparememBy fold) (text ++ rest) (old ++ behind) old.length text.length s =
        some (some t) ∧ s.1 < t.1 ∧ Scans fold text old t.1 := by
  by_cases hlt : s.1 + old.length < text.length
  · by_cases hf : before (stands fold old) old.length (text.drop s.1)
    · exact .inr ⟨_, countRound_found rest behind s.2 hk h.sum hlt hf,
        Nat.lt_add_of_pos_right hk, h.found hk hlt hf⟩
    · exact .inr ⟨_, countRound_skip rest behind s.2 h.sum hlt (by omega) hf,
        Nat.lt_succ_self _, h.skip hlt htext hf⟩
  · exact .inl (countRound_done rest behind s.2 h.sum hlt)

/-- The copying loop ends, or a copy of it fails, or it goes on further ahead. -/
theorem copyRound_scans (rest behind ns : List WChar) (nsl : ℕ) (hk : 0 < old.length)
    (htext : text.length < 2 ^ 32) {c : Cursor} (h : Scans fold text old c.i) :
    copyRound (comparememBy fold) (text ++ rest) (old ++ behind) ns old.length text.length nsl c =
        some none ∨
      True ∧ copyRound (comparememBy fold) (text ++ rest) (old ++ behind) ns old.length text.length
        nsl c = none ∨
      ∃ c', copyRound (comparememBy fold) (text ++ rest) (old ++ behind) ns old.length text.length
        nsl c = some (some c') ∧ c.i < c'.i ∧ Scans fold text old c'.i := by
  rw [copyRound, u32_of_lt h.sum]
  by_cases hlt : c.i + old.length < text.length
  · obtain ⟨m, hm, hiff⟩ := compare_front fold old behind rest hlt
    rw [if_pos hlt, hm]
    simp only [Option.bind_eq_bind, Option.bind_some]
    by_cases hf : before (stands fold old) old.length (text.drop c.i)
    · rw [if_pos (hiff.mpr hf), index_found hk h.sum]
      cases copyMemoryAt c.buffer c.copyLen ((text ++ rest).drop c.pre) (2 * sub32 c.i c.pre) with
      | none => exact .inr (.inl ⟨trivial, rfl⟩)
      | some b =>
        simp only [Option.bind_some]
        cases copyMemoryAt b (u32 (c.copyLen + sub32 c.i c.pre)) ns (2 * nsl) with
        | none => exact .inr (.inl ⟨trivial, rfl⟩)
        | some b' => exact .inr (.inr ⟨_, rfl, by simp only; omega, h.found hk hlt hf⟩)
    · rw [if_neg (fun he => hf (hiff.mp he)), u32_of_lt (by omega)]
      exact .inr (.inr ⟨_, rfl, Nat.lt_succ_self _, h.skip hlt htext hf⟩)
  · exact .inl (if_neg hlt)

/-- An empty search text is found again and again at the same place. -/
theorem countRound_empty (fold : WChar → WChar) (str old : List WChar) (count : ℕ)
    (hi : i < 2 ^ 32) {strLen : ℕ} (hlt : i < strLen) :
    countRound (comparememBy fold) str old 0 strLen (i, count) = some (some (i, u32 (count + 1))) := by
  have hu : u32 i = i := u32_of_lt hi
  have hsame : u32 (u32 (i + sub32 0 1) + 1) = i := by
    simp only [sub32, u32]
    omega
  simp [countRound, hu, hlt, comparememBy, hsame]

/-- Once the sum has wrapped the counting loop reads its way out of the text. -/
theorem not_stops_wrapped (behind : List WChar) (hold : old.length < 2 ^ 32)
    (htext : text.length < 2 ^ 32) (hi : i ≤ text.length) (hsum : 2 ^ 32 ≤ i + old.length) :
    ¬Stops (countRound (comparememBy fold) text (old ++ behind) old.length text.length) Prod.fst
      False (i, count) := by
  induction hn : text.length - i generalizing i with
  | zero =>
    intro hstops
    have hu : u32 (i + old.length) < text.length := by
      unfold u32
      omega
    have hnone : comparememBy fold (text.drop i) (old ++ behind) old.length = none := by
      rw [List.drop_eq_nil_of_le (by omega)]
      obtain ⟨k, hk⟩ := Nat.exists_eq_succ_of_ne_zero (by omega : old.length ≠ 0)
      rw [hk]
      cases old ++ behind <;> rfl
    exact hstops.ne_none (by rw [countRound, if_pos hu, hnone]; rfl)
  | succ n ih =>
    intro hstops
    have hu : u32 (i + old.length) < text.length := by
      unfold u32
      omega
    cases hm : comparememBy fold (text.drop i) (old ++ behind) old.length with
    | none => exact hstops.ne_none (by rw [countRound, if_pos hu, hm]; rfl)
    | some m =>
      have hle := comparememBy_le hm
      rw [List.length_drop] at hle
      have hne : old.length ≠ m := by omega
      have hround : countRound (comparememBy fold) text (old ++ behind) old.length text.length
          (i, count) = some (some (i + 1, count)) := by
        rw [countRound, if_pos hu, hm, Option.bind_eq_bind, Option.bind_some, if_neg hne,
          u32_of_lt (by omega)]
      exact ih (by omega) (by omega) (by omega) (hstops.of_next hround).2

/-- A loop that stops has met no occurrence behind which the sum wraps. -/
theorem scans_of_stops (behind : List WChar) (hk : 0 < old.length) (hold : old.length < 2 ^ 32)
    (htext : text.length < 2 ^ 32) (hi : i ≤ text.length) (hsum : i + old.length < 2 ^ 32)
    (hstops : Stops (countRound (comparememBy fold) text (old ++ behind) old.length text.length)
      Prod.fst False (i, count)) : Scans fold text old i := by
  refine ⟨hi, hsum, ?_⟩
  induction hn : text.length - i using Nat.strong_induction_on generalizing i count with
  | _ n ih =>
    by_cases hlt : i + old.length < text.length
    · by_cases hf : before (stands fold old) old.length (text.drop i)
      · have hround := countRound_found [] behind count hk hsum hlt hf
        rw [List.append_nil] at hround
        have hrest := (hstops.of_next hround).2
        have hend : i + old.length + old.length < 2 ^ 32 := by
          by_contra hwrap
          exact not_stops_wrapped behind hold htext hlt.le (by omega) hrest
        have hahead := ih _ (by omega) hlt.le hend hrest rfl
        rw [StringRounds.found, occurrences_found hk (drop_ne_nil (by omega)) hf, List.drop_drop]
        intro p hp
        rcases List.mem_cons.mp hp with rfl | hp
        · omega
        · obtain ⟨q, hq, rfl⟩ := List.mem_map.mp hp
          have := hahead q hq
          omega
      · have hround := countRound_skip [] behind count hsum hlt (by omega) hf
        rw [List.append_nil] at hround
        have hahead := ih _ (by omega) (by omega) (by omega) (hstops.of_next hround).2 rfl
        rw [StringRounds.found, occurrences_skip (drop_ne_nil (by omega)) hf, List.drop_drop]
        intro p hp
        obtain ⟨q, hq, rfl⟩ := List.mem_map.mp hp
        have := hahead q hq
        omega
    · rw [StringRounds.found, occurrences_short before_fits (by rw [List.length_drop]; omega)]
      exact fun p hp => absurd hp List.not_mem_nil

end Stopping

section Calls

variable {m : Matching} {text : List WChar} {old ns : NulText}

theorem NulText.length_lt (t : NulText) : t.length < 2 ^ 32 := u32_lt _

theorem NulText.length_counted (t : NulText) : t.counted.length = t.length := by
  rw [counted, List.length_take]
  exact Nat.min_eq_left (Nat.mod_le _ _)

/-- The counted characters begin the memory. -/
theorem NulText.exists_behind (t : NulText) : ∃ behind, t.memory = t.counted ++ behind :=
  ⟨t.chars.drop t.length ++ 0 :: t.rest, by
    rw [← List.append_assoc, counted, List.take_append_drop, memory]⟩

/-- `rawlen` finds the NUL. -/
theorem NulText.rawlen_memory (t : NulText) : (rawlen t.memory).map u32 = some t.length := by
  rw [memory, rawlen_append_nul t.nonzero, Option.map_some]
  rfl

/-- The loops of a replacement stop if no sum behind an occurrence wraps. -/
theorem terminates_of_found (m : Matching) (ns : NulText) (htext : text.length < 2 ^ 32)
    (hold : old.length ≠ 0)
    (hfound : ∀ p ∈ found m.fold old.counted text, p + 2 * old.length < 2 ^ 32) :
    Terminates m text old ns := by
  have hlt := old.length_lt
  have hlen := old.length_counted
  obtain ⟨behind, hbehind⟩ := old.exists_behind
  have hstart : Scans m.fold text old.counted 0 := by
    refine ⟨Nat.zero_le _, by omega, fun p hp => ?_⟩
    rw [List.drop_zero] at hp
    have := hfound p hp
    omega
  rw [← hlen] at hold
  have hk := Nat.pos_of_ne_zero hold
  refine ⟨fun rest => ?_, fun rest buffer => ?_⟩
  · rw [hbehind, ← hlen]
    exact stops_of_invariant (I := fun s => Scans m.fold text old.counted s.1)
      (fun s hs => hs.le) (fun s hs => (countRound_scans rest behind hk htext hs).imp_right .inr)
      hstart
  · rw [hbehind, ← hlen]
    exact stops_of_invariant (I := fun c => Scans m.fold text old.counted c.i)
      (fun c hc => hc.le) (fun c hc => copyRound_scans rest behind _ _ hk htext hc) hstart

/-- If the loops stop, the search text is not empty and no sum wraps. -/
theorem Terminates.found (h : Terminates m text old ns) (htext : text.length < 2 ^ 32)
    (hne : text ≠ []) :
    old.length ≠ 0 ∧ ∀ p ∈ found m.fold old.counted text, p + 2 * old.length < 2 ^ 32 := by
  have hlt := old.length_lt
  have hlen := old.length_counted
  obtain ⟨behind, hbehind⟩ := old.exists_behind
  have hstops := h.counting []
  rw [List.append_nil, hbehind] at hstops
  have hold : old.length ≠ 0 := by
    intro hz
    rw [hz] at hstops
    have hround := countRound_empty m.fold text (old.counted ++ behind) 0 (Nat.two_pow_pos 32)
      (List.length_pos_iff.mpr hne)
    exact absurd (hstops.of_next hround).1 (Nat.lt_irrefl _)
  rw [← hlen] at hstops
  have hscans := scans_of_stops behind (by omega) (by omega) htext (Nat.zero_le _) (by omega)
    hstops
  refine ⟨hold, fun p hp => ?_⟩
  have := hscans.ahead p (by rwa [List.drop_zero])
  omega

/-- A counting loop that stops counts, given rounds enough. -/
theorem Terminates.exists_count (h : Terminates m text old ns) (rest : List WChar) :
    ∃ fuel count, countLoop (comparememBy m.fold) (text ++ rest) old.memory old.length text.length
      fuel 0 0 = some count := by
  obtain ⟨fuel, s, hs⟩ := (h.counting rest).exists_loop
  exact ⟨fuel, s.2, by rw [countLoop_eq, hs, Option.map_some]⟩

/-- Both loops stop with a growing index exactly if there is no text, or the
counted search text is not empty and no occurrence that the scan finds lies so
high that twice its length behind it the index would wrap. -/
theorem terminates_iff (m : Matching) (text : List WChar) (old ns : NulText)
    (htext : text.length < 2 ^ 32) :
    Terminates m text old ns ↔ text = [] ∨
      old.length ≠ 0 ∧ ∀ p ∈ found m.fold old.counted text, p + 2 * old.length < 2 ^ 32 := by
  constructor
  · intro h
    by_cases hnil : text = []
    · exact .inl hnil
    · exact .inr (h.found htext hnil)
  · rintro (rfl | ⟨hold, hfound⟩)
    · refine ⟨fun rest => .done ?_, fun rest buffer => .done ?_⟩
      · exact if_neg (Nat.not_lt_zero _)
      · exact if_neg (Nat.not_lt_zero _)
    · exact terminates_of_found m ns htext hold hfound

/-- In a text of up to `2 ^ 31` characters no index wraps. -/
theorem terminates_of_le (m : Matching) (ns : NulText) (htext : text.length ≤ 2 ^ 31)
    (hold : old.length ≠ 0) : Terminates m text old ns := by
  refine terminates_of_found m ns (by omega) hold fun p hp => ?_
  have hlen := old.length_counted
  have hfound := (before_iff.mp (found_of_mem_occurrences (by omega) text hp)).2
  rw [List.length_drop] at hfound
  omega

/-- A text without characters. -/
def noText : NulText := ⟨[], [], List.not_mem_nil⟩

/-- The text `b`. -/
def bText : NulText := ⟨[98], [], by decide⟩

theorem terminates_bText : Terminates .caseless [97, 66, 98, 99] bText noText :=
  (terminates_iff .caseless [97, 66, 98, 99] bText noText (by decide)).mpr
    (.inr ⟨by decide, by decide⟩)

/-- An empty text is looked for in `a` for ever. -/
theorem not_terminates_noText : ¬Terminates .plain [97] noText bText := by
  intro h
  have hround := countRound_empty (Matching.plain.fold) [97] noText.memory 0 (Nat.two_pow_pos 32)
    (Nat.one_pos : 0 < 1)
  exact absurd ((h.counting []).of_next hround).1 (Nat.lt_irrefl _)

end Calls

end KernelLib.StringRounds
