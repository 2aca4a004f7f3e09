import KernelLib.StringRounds
import Mathlib.Tactic.Linarith

/-!
# The two passes of a replacement

The counting pass says how long the result is, in wrapping arithmetic, and the
copying pass fills a block of that length. Each round of the copying loop is
followed by a round of the counting loop with the same index, so that both find
the same occurrences.
-/

namespace KernelLib.StringPasses

open WideMemory Word32 CountedStrings StringCompare ScanReplace StringReplace StringRounds
  LoopRounds

section Matches

variable (compare : List WChar → List WChar → ℕ → Option ℕ) (str old ns : List WChar)
  (osl strLen nsl : ℕ)

/-- The comparison finds an occurrence at `i`. -/
def matchAt (i : ℕ) : Bool := decide (compare (str.drop i) old osl = some osl)

/-- The positions at which the counting loop finds an occurrence. -/
def countedMatches : Option (List ℕ) :=
  (visited (countRound compare str old osl strLen) (strLen + 1) (0, 0)).map fun v =>
    (v.map Prod.fst).filter (matchAt compare str old osl)

/-- The positions at which the copying loop finds one. -/
def copiedMatches (buffer : List WChar) : Option (List ℕ) :=
  (visited (copyRound compare str old ns osl strLen nsl) (strLen + 1) ⟨0, 0, 0, buffer⟩).map
    fun v => (v.map Cursor.i).filter (matchAt compare str old osl)

/-- The copying pass: its loop, and the text behind the last occurrence. -/
def copyPass (buffer : List WChar) : Option Cursor := do
  let c ← copyLoop compare str old ns osl strLen nsl (strLen + 1) ⟨0, 0, 0, buffer⟩
  copyTail str strLen c

/-- What a copy reads. -/
inductive Source where
  /-- The text. -/
  | str
  /-- The replacement. -/
  | ns
  deriving DecidableEq

/-- A call of `RtlCopyMemory` in the copying pass, in characters. -/
structure Copy where
  /-- Where in the block it writes. -/
  start : ℕ
  /-- What it reads. -/
  source : Source
  /-- Where it begins to read. -/
  offset : ℕ
  /-- How much it copies. -/
  units : ℕ
  deriving DecidableEq

/-- Make one of these calls. -/
def Copy.make (buffer : List WChar) (x : Copy) : Option (List WChar) :=
  copyMemoryAt buffer x.start ((match x.source with | .str => str | .ns => ns).drop x.offset)
    (2 * x.units)

/-- The copies of a round. -/
def roundCopies (c : Cursor) : List Copy :=
  if matchAt compare str old osl c.i then
    [⟨c.copyLen, .str, c.pre, sub32 c.i c.pre⟩,
      ⟨u32 (c.copyLen + sub32 c.i c.pre), .ns, 0, nsl⟩]
  else []

/-- The copy of the text behind the last occurrence. -/
def tailCopies (c : Cursor) : List Copy :=
  if c.pre < strLen then [⟨c.copyLen, .str, c.pre, sub32 strLen c.pre⟩] else []

/-- The copies of the pass, one after the other. -/
def passCopies (buffer : List WChar) : Option (List Copy) := do
  let v ← visited (copyRound compare str old ns osl strLen nsl) (strLen + 1) ⟨0, 0, 0, buffer⟩
  let c ← copyLoop compare str old ns osl strLen nsl (strLen + 1) ⟨0, 0, 0, buffer⟩
  return v.flatMap (roundCopies compare str old osl nsl) ++ tailCopies strLen c

/-- A copy stays inside of the block and of what it reads. -/
def Copy.Within (block str ns : ℕ) (x : Copy) : Prop :=
  x.start + x.units ≤ block ∧ x.offset + x.units ≤ match x.source with | .str => str | .ns => ns

/-- The copies fill the characters from one on up to another, each one once. -/
def Tiles : ℕ → ℕ → List Copy → Prop
  | start, stop, [] => start = stop
  | start, stop, x :: xs => x.start = start ∧ Tiles (start + x.units) stop xs

variable {compare str old ns osl strLen nsl}

/-- Copies that go on where others stop. -/
theorem Tiles.append {start middle stop : ℕ} {xs ys : List Copy} (h : Tiles start middle xs)
    (h' : Tiles middle stop ys) : Tiles start stop (xs ++ ys) := by
  induction xs generalizing start with
  | nil =>
    rw [List.nil_append, show start = middle from h]
    exact h'
  | cons x xs ih => exact ⟨h.1, ih h.2⟩

/-- The counting loop goes where the copying loop goes. -/
theorem copyRound_follows :
    Follows (copyRound compare str old ns osl strLen nsl) (countRound compare str old osl strLen)
      fun c s => c.i = s.1 where
  done := by
    rintro c ⟨i, count⟩ rfl h
    rw [copyRound] at h
    rw [countRound]
    split_ifs at h ⊢ with hlt
    · cases hm : compare (str.drop c.i) old osl with
      | none => simp [hm] at h
      | some m =>
        simp only [hm, Option.bind_eq_bind, Option.bind_some] at h
        split_ifs at h
        · simp only [Option.bind_eq_some_iff] at h
          obtain ⟨b, -, b', -, h⟩ := h
          cases h
        · cases h
    · rfl
  next := by
    rintro c ⟨i, count⟩ t rfl h
    rw [copyRound] at h
    rw [countRound]
    split_ifs at h ⊢ with hlt
    · cases hm : compare (str.drop c.i) old osl with
      | none => simp [hm] at h
      | some m =>
        simp only [hm, Option.bind_eq_bind, Option.bind_some] at h ⊢
        split_ifs at h ⊢
        · simp only [Option.bind_eq_some_iff] at h
          obtain ⟨b, -, b', -, h⟩ := h
          obtain rfl := Option.some.inj (Option.some.inj h)
          exact ⟨_, rfl, rfl⟩
        · obtain rfl := Option.some.inj (Option.some.inj h)
          exact ⟨_, rfl, rfl⟩
    · cases h

/-- Both loops find occurrences at the same positions. -/
theorem copiedMatches_eq {buffer : List WChar} {c : Cursor}
    (h : copyLoop compare str old ns osl strLen nsl (strLen + 1) ⟨0, 0, 0, buffer⟩ = some c) :
    ∃ ps, copiedMatches compare str old ns osl strLen nsl buffer = some ps ∧
      countedMatches compare str old osl strLen = some ps := by
  rw [copyLoop_eq] at h
  obtain ⟨v, hv⟩ := exists_visited h
  obtain ⟨w, hw, hall⟩ := copyRound_follows.visited (u := (0, 0)) rfl hv
  have hsame : v.map Cursor.i = w.map Prod.fst := by
    rw [← List.forall₂_eq_eq_eq, List.forall₂_map_left_iff, List.forall₂_map_right_iff]
    exact hall
  refine ⟨_, by rw [copiedMatches, hv, Option.map_some], ?_⟩
  rw [countedMatches, hw, Option.map_some, hsame]

end Matches

section Found

variable {fold : WChar → WChar} {text old : List WChar} {i : ℕ}

/-- Inside of the text the comparison finds what the scan finds. -/
theorem matchAt_iff (fold : WChar → WChar) (rest behind : List WChar)
    (hlt : i + old.length < text.length) :
    matchAt (comparememBy fold) (text ++ rest) (old ++ behind) old.length i ↔
      before (stands fold old) old.length (text.drop i) := by
  obtain ⟨m, hm, hiff⟩ := compare_front fold old behind rest hlt
  rw [matchAt, decide_eq_true_iff, hm, Option.some.injEq, eq_comm]
  exact hiff

/-- The matches of the rounds from an index on are the occurrences from there. -/
theorem matches_of_visited (rest behind : List WChar) (hk : 0 < old.length)
    (hsum : text.length + old.length < 2 ^ 32) {n count : ℕ} {v : List (ℕ × ℕ)}
    (hi : i ≤ text.length)
    (h : visited (countRound (comparememBy fold) (text ++ rest) (old ++ behind) old.length
      text.length) n (i, count) = some v) :
    (v.map Prod.fst).filter
        (matchAt (comparememBy fold) (text ++ rest) (old ++ behind) old.length) =
      (found fold old (text.drop i)).map (· + i) := by
  induction n generalizing i count v with
  | zero => cases h
  | succ n ih =>
    rw [visited] at h
    by_cases hlt : i + old.length < text.length
    · have hmatch := matchAt_iff fold rest behind hlt
      by_cases hf : before (stands fold old) old.length (text.drop i)
      · simp only [countRound_found rest behind count hk (by omega) hlt hf,
          Option.map_eq_some_iff] at h
        obtain ⟨w, hw, rfl⟩ := h
        rw [found, occurrences_found hk (drop_ne_nil (by omega)) hf, List.drop_drop, List.map_cons,
          List.filter_cons_of_pos (hmatch.mpr hf), ih hlt.le hw, List.map_cons, List.map_map,
          Nat.zero_add]
        congr 2
        funext p
        simp only [Function.comp_apply]
        omega
      · simp only [countRound_skip rest behind count (by omega) hlt (by omega) hf,
          Option.map_eq_some_iff] at h
        obtain ⟨w, hw, rfl⟩ := h
        rw [found, occurrences_skip (drop_ne_nil (by omega)) hf, List.drop_drop, List.map_cons,
          List.filter_cons_of_neg (fun hm => hf (hmatch.mp hm)), ih (by omega) hw, List.map_map]
        congr 2
        funext p
        simp only [Function.comp_apply]
        omega
    · simp only [countRound_done rest behind count (by omega) hlt, Option.some.injEq] at h
      rw [found, occurrences_short before_fits (by rw [List.length_drop]; omega), ← h]
      rfl

end Found

section Copies

variable {fold : WChar → WChar} {text old ns : List WChar} {c c' : Cursor}

/-- A round of the copying loop makes its copies, inside of the block and of the
texts, and one behind the other. -/
theorem copyRound_copied (rest behind after : List WChar) (hk : 0 < old.length)
    (hsum : text.length + old.length < 2 ^ 32)
    (hlen : (scanned fold old ns text).length < 2 ^ 32) (h : Copied fold text old ns c)
    (hlt : c.i + old.length < text.length) :
    ∃ t, copyRound (comparememBy fold) (text ++ rest) (old ++ behind) (ns ++ after) old.length
        text.length ns.length c = some (some t) ∧ Copied fold text old ns t ∧ c.i < t.i ∧
      let xs := roundCopies (comparememBy fold) (text ++ rest) (old ++ behind) old.length
        ns.length c
      xs.foldlM (Copy.make (text ++ rest) (ns ++ after)) c.buffer = some t.buffer ∧
        Tiles c.copyLen t.copyLen xs ∧
        ∀ x ∈ xs, x.Within (scanned fold old ns text).length text.length ns.length := by
  have hpre := h.pre_le
  have hadd := h.length_add
  have heq := h.length_eq
  have hmatch := matchAt_iff fold rest behind hlt
  obtain ⟨m, hm, hiff⟩ := compare_front fold old behind rest hlt
  rw [copyRound, u32_of_lt (by omega), if_pos hlt, hm, Option.bind_eq_bind, Option.bind_some]
  by_cases hf : before (stands fold old) old.length (text.drop c.i)
  · obtain ⟨b, b', hb, hb', hcop⟩ := h.found rest after hk hf
    have hadd' := hcop.length_add
    have heq' := hcop.length_eq
    simp only at hadd' heq'
    have hsub : sub32 c.i c.pre = c.i - c.pre := sub32_of_le hpre (by omega)
    have hmid : u32 (c.copyLen + (c.i - c.pre)) = c.copyLen + (c.i - c.pre) :=
      u32_of_lt (by omega)
    refine ⟨_, ?_, hcop, Nat.lt_add_of_pos_right hk, ?_⟩
    · rw [if_pos (hiff.mpr hf), hsub, hb, Option.bind_eq_bind, Option.bind_some, hmid]
      simp only [hb', Option.bind_some]
      rw [index_found hk (by omega), u32_of_lt (by omega)]
    · simp only [roundCopies, if_pos (hmatch.mpr hf), hsub, hmid]
      refine ⟨?_, ⟨rfl, rfl, rfl⟩, ?_⟩
      · simp [Copy.make, hb, hb']
      · intro x hx
        rcases List.mem_cons.mp hx with rfl | hx
        · exact ⟨by simp only; omega, by simp only; omega⟩
        · rw [List.mem_singleton.mp hx]
          exact ⟨by simp only; omega, by simp⟩
  · refine ⟨_, ?_, h.skip (by omega) hf, Nat.lt_succ_self _, ?_⟩
    · rw [if_neg (fun he => hf (hiff.mp he)), u32_of_lt (by omega)]
    · simp only [roundCopies, if_neg (fun he => hf (hmatch.mp he))]
      exact ⟨rfl, rfl, fun x hx => absurd hx List.not_mem_nil⟩

/-- So does the loop. -/
theorem copyLoop_copied (rest behind after : List WChar) (fuel : ℕ) (hk : 0 < old.length)
    (hsum : text.length + old.length < 2 ^ 32)
    (hlen : (scanned fold old ns text).length < 2 ^ 32) (h : Copied fold text old ns c)
    (hfuel : text.length - c.i < fuel) :
    ∃ v t, visited (copyRound (comparememBy fold) (text ++ rest) (old ++ behind) (ns ++ after)
        old.length text.length ns.length) fuel c = some v ∧
      copyLoop (comparememBy fold) (text ++ rest) (old ++ behind) (ns ++ after) old.length
        text.length ns.length fuel c = some t ∧
      Copied fold text old ns t ∧ text.length ≤ t.i + old.length ∧
      let xs := v.flatMap (roundCopies (comparememBy fold) (text ++ rest) (old ++ behind)
        old.length ns.length)
      xs.foldlM (Copy.make (text ++ rest) (ns ++ after)) c.buffer = some t.buffer ∧
        Tiles c.copyLen t.copyLen xs ∧
        ∀ x ∈ xs, x.Within (scanned fold old ns text).length text.length ns.length := by
  simp only [copyLoop_eq]
  induction fuel generalizing c with
  | zero => omega
  | succ fuel ih =>
    have hi := h.i_le
    rw [visited, loop]
    by_cases hlt : c.i + old.length < text.length
    · obtain ⟨t, hround, ht, hnext, hmake, htile, hin⟩ :=
        copyRound_copied rest behind after hk hsum hlen h hlt
      obtain ⟨v, t', hv, hloop, ht', hend, hmake', htile', hin'⟩ := ih ht (by omega)
      refine ⟨c :: v, t', by simp only [hround, hv, Option.map_some], by simp only [hround, hloop],
        ht', hend, ?_, ?_, ?_⟩
      · rw [List.flatMap_cons, List.foldlM_append, hmake, Option.bind_eq_bind, Option.bind_some,
          hmake']
      · exact htile.append htile'
      · intro x hx
        rw [List.flatMap_cons, List.mem_append] at hx
        exact hx.elim (hin x) (hin' x)
    · have hround : copyRound (comparememBy fold) (text ++ rest) (old ++ behind) (ns ++ after)
          old.length text.length ns.length c = some none := by
        rw [copyRound, u32_of_lt (by omega), if_neg hlt]
      refine ⟨[], c, by simp only [hround], by simp only [hround], h, by omega, rfl, rfl, ?_⟩
      exact fun x hx => absurd hx List.not_mem_nil

/-- And the copy behind the last occurrence, which reaches the end of the block. -/
theorem copyTail_copied (rest after : List WChar) (h : Copied fold text old ns c)
    (hend : text.length ≤ c.i + old.length) (htext : text.length < 2 ^ 32)
    (hc : copyTail (text ++ rest) text.length c = some c')
    (hlen : c'.copyLen = (scanned fold old ns text).length) :
    (tailCopies text.length c).foldlM (Copy.make (text ++ rest) (ns ++ after)) c.buffer =
        some c'.buffer ∧
      Tiles c.copyLen c'.copyLen (tailCopies text.length c) ∧
      ∀ x ∈ tailCopies text.length c,
        x.Within (scanned fold old ns text).length text.length ns.length := by
  have hpre := h.pre_le
  have hi := h.i_le
  have hadd := h.length_add
  have heq := h.length_eq
  have hlast : scanned fold old ns (text.drop c.i) = text.drop c.i :=
    replaceAll_short before_fits (by rw [List.length_drop]; omega)
  rw [hlast, List.length_drop] at hadd
  rw [copyTail] at hc
  rw [tailCopies]
  by_cases hlt : c.pre < text.length
  · have hsub : sub32 text.length c.pre = text.length - c.pre := sub32_of_le (by omega) htext
    rw [if_pos hlt, hsub] at hc
    obtain ⟨b, hb, hc⟩ := Option.bind_eq_some_iff.mp hc
    obtain rfl := Option.some.inj hc
    rw [if_pos hlt, hsub]
    refine ⟨?_, ⟨rfl, ?_⟩, ?_⟩
    · simp [Copy.make, hb]
    · simp only [Tiles] at hlen ⊢
      omega
    · intro x hx
      rw [List.mem_singleton.mp hx]
      exact ⟨by simp only; omega, by simp only; omega⟩
  · rw [if_neg hlt] at hc
    obtain rfl := Option.some.inj hc
    rw [if_neg hlt]
    exact ⟨rfl, rfl, fun x hx => absurd hx List.not_mem_nil⟩

end Copies

/-- The size that the block is allocated with. -/
def blockSize (strLen count nsl osl : ℕ) : ℕ := u32 (strLen + u32 (count * sub32 nsl osl))

/-- What lies in memory behind the three texts does not matter, and nothing has to:
the copying pass finds the matches of the counting pass, as many as that counted,
and its copies, each inside of the block and of the text that it reads, fill the
block from its first character to its last one with what the scan gives. -/
structure Agree (m : Matching) (text old ns : List WChar) (count : ℕ) (block : List WChar) :
    Prop where
  size : block.length = blockSize text.length count ns.length old.length
  sameMatches : ∀ rest behind after, ∃ ps,
    countedMatches (comparememBy m.fold) (text ++ rest) (old ++ behind) old.length text.length =
        some ps ∧
      copiedMatches (comparememBy m.fold) (text ++ rest) (old ++ behind) (ns ++ after) old.length
        text.length ns.length block = some ps ∧
      ps.length = count
  filled : ∀ rest behind after, ∃ c,
    copyPass (comparememBy m.fold) (text ++ rest) (old ++ behind) (ns ++ after) old.length
        text.length ns.length block = some c ∧
      c.copyLen = block.length ∧ c.buffer = scanned m.fold old ns text ∧
      c.buffer.length = block.length
  copies : ∀ rest behind after, ∃ xs,
    passCopies (comparememBy m.fold) (text ++ rest) (old ++ behind) (ns ++ after) old.length
        text.length ns.length block = some xs ∧
      xs.foldlM (Copy.make (text ++ rest) (ns ++ after)) block =
        some (scanned m.fold old ns text) ∧
      Tiles 0 block.length xs ∧ ∀ x ∈ xs, x.Within block.length text.length ns.length

section Sizes

variable {fold : WChar → WChar} {text old : List WChar}

/-- The texts that a `UNICODE_STRING` holds have a result that an `unsigned` counts. -/
theorem scanned_lt (fold : WChar → WChar) (ns : List WChar) (hk : 0 < old.length)
    (htext : text.length ≤ 32767) (hns : ns.length ≤ 32767) :
    (scanned fold old ns text).length < 2 ^ 32 := by
  have hlength := length_scanned fold text hk ns
  have hocc := length_occurrences_le fold text hk
  have hmul := Nat.mul_le_mul (hocc.trans htext) hns
  omega

/-- The wrapping arithmetic gives the length of the scan. -/
theorem blockSize_eq (fold : WChar → WChar) (ns : List WChar) (hk : 0 < old.length)
    (hold : old.length < 2 ^ 32) (hlen : (scanned fold old ns text).length < 2 ^ 32) :
    blockSize text.length (found fold old text).length ns.length old.length =
      (scanned fold old ns text).length :=
  u32_exchange (length_scanned fold text hk ns) hold hlen

/-- The length of the scan, as an integer. -/
theorem length_scanned_int (fold : WChar → WChar) (text ns : List WChar) (hk : 0 < old.length) :
    ((scanned fold old ns text).length : ℤ) =
      text.length + (found fold old text).length * ((ns.length : ℤ) - old.length) := by
  have hlength : ((scanned fold old ns text).length : ℤ) + (found fold old text).length * old.length =
      text.length + (found fold old text).length * ns.length := by
    exact_mod_cast length_scanned fold text hk ns
  linarith

/-- In a block of the size of the scan the two passes agree. -/
theorem agree_of_size (m : Matching) (ns : List WChar) (hk : 0 < old.length)
    (hsum : text.length + old.length < 2 ^ 32)
    (hlen : (scanned m.fold old ns text).length < 2 ^ 32) {block : List WChar}
    (hb : block.length = (scanned m.fold old ns text).length) :
    Agree m text old ns (found m.fold old text).length block where
  size := hb.trans (blockSize_eq m.fold ns hk (by omega) hlen).symm
  sameMatches rest behind after := by
    obtain ⟨c, -, hc, -⟩ := copyLoop_start rest behind after hk hsum hlen hb
    obtain ⟨ps, hcopied, hcounted⟩ := copiedMatches_eq hc
    refine ⟨ps, hcounted, hcopied, ?_⟩
    obtain ⟨v, hv, rfl⟩ := Option.map_eq_some_iff.mp hcounted
    rw [matches_of_visited rest behind hk hsum (Nat.zero_le _) hv, List.length_map, List.drop_zero]
  filled rest behind after := by
    obtain ⟨c, c', hc, hc', hcopy, hbuf⟩ := copyLoop_start rest behind after hk hsum hlen hb
    refine ⟨c', ?_, hcopy.trans hb.symm, hbuf, by rw [hbuf, hb]⟩
    rw [copyPass, hc, Option.bind_eq_bind, Option.bind_some, hc']
  copies rest behind after := by
    have hstart : Copied m.fold text old ns ⟨0, 0, 0, block⟩ :=
      ⟨le_rfl, Nat.zero_le _, hb, Nat.zero_le _, by simp⟩
    obtain ⟨v, c, hv, hc, hcop, hend, hmake, htile, hin⟩ :=
      copyLoop_copied rest behind after (text.length + 1) hk hsum hlen hstart
        (Nat.lt_succ_of_le (Nat.sub_le _ _))
    obtain ⟨c', hc', hcopy, hbuf⟩ := copyTail_spec rest hcop hend (by omega) hlen
    obtain ⟨hmake', htile', hin'⟩ := copyTail_copied rest after hcop hend (by omega) hc' hcopy
    refine ⟨_, by rw [passCopies, hv, Option.bind_eq_bind, Option.bind_some, hc]; rfl, ?_, ?_, ?_⟩
    · rw [List.foldlM_append, hmake, Option.bind_eq_bind, Option.bind_some, hmake', hbuf]
    · rw [hb, ← hcopy]
      exact htile.append htile'
    · intro x hx
      rw [hb]
      exact (List.mem_append.mp hx).elim (hin x) (hin' x)

end Sizes

/-- The counting pass returns. When it has counted a match, the size computed from
the count is the length of the result, the copying pass agrees with the counting
pass in every block of that size, and the string returned is full. -/
theorem passes_agree (m : Matching) (pool : Pool) (str : Text) (old ns : CString)
    (hold : old.chars ≠ []) (hstrLen : str.chars.length ≤ 32767)
    (hosl : old.chars.length ≤ 32767) (hnsl : ns.chars.length ≤ 32767) :
    ∃ count, countLoop (comparememBy m.fold) str.memory old.memory old.chars.length
        str.chars.length (str.chars.length + 1) 0 0 = some count ∧
      (0 < count →
        (blockSize str.chars.length count ns.chars.length old.chars.length : ℤ) =
          str.chars.length + count * ((ns.chars.length : ℤ) - old.chars.length) ∧
        ∀ block, pool.new (blockSize str.chars.length count ns.chars.length old.chars.length) =
            some block →
          Agree m str.chars old.chars ns.chars count block ∧
          ∃ rt, m.replaceText pool str old ns = some rt ∧
            rt.unicodeStr.buffer = some (scanned m.fold old.chars ns.chars str.chars) ∧
            rt.unicodeStr.memory.length = block.length ∧
            rt.unicodeStr.length = rt.unicodeStr.maximumLength) := by
  have hk := List.length_pos_iff.mpr hold
  have hlen := scanned_lt m.fold ns.chars hk hstrLen hnsl
  have hsize := blockSize_eq m.fold ns.chars hk (by omega) hlen
  refine ⟨(found m.fold old.chars str.chars).length,
    countLoop_start m.fold str.chars str.rest (0 :: old.rest) hk (by omega), fun hpos => ?_⟩
  rw [hsize]
  refine ⟨length_scanned_int m.fold str.chars ns.chars hk, fun block hb => ?_⟩
  have hblock := pool.length_new _ _ hb
  refine ⟨agree_of_size m ns.chars hk (by omega) hlen hblock, ?_⟩
  obtain ⟨rt, hrt, hbuf, hrtlen, hmax⟩ := repalceBy_granted str.rest hk str.length_lt hlen hpos hb
  refine ⟨rt, ?_, hbuf, ?_, hrtlen.trans hmax.symm⟩
  · cases m <;> exact hrt
  · rw [UnicodeString.memory, hbuf, Option.getD_some, hblock]

/-- Without its two `a`, `BaaB` fits into two characters. -/
theorem passes_agree_shrinks : Agree .caseless [66, 97, 97, 66] [65] [] 2 [0, 0] ∧
    ∃ rt, Matching.caseless.replaceText .zeroed ⟨[66, 97, 97, 66], [], by decide⟩
        ⟨[65], [], by decide, by decide⟩ ⟨[], [], by decide, by decide⟩ = some rt ∧
      rt.unicodeStr.buffer = some [66, 66] := by
  obtain ⟨count, hcount, hagree⟩ := passes_agree .caseless .zeroed ⟨[66, 97, 97, 66], [], by decide⟩
    ⟨[65], [], by decide, by decide⟩ ⟨[], [], by decide, by decide⟩ (by decide) (by decide)
    (by decide) (by decide)
  obtain rfl : 2 = count := Option.some.inj (Eq.trans (by decide) hcount)
  obtain ⟨hpasses, rt, hrt, hbuf, -⟩ := (hagree (by decide)).2 [0, 0] rfl
  exact ⟨hpasses, rt, hrt, hbuf⟩

end KernelLib.StringPasses
