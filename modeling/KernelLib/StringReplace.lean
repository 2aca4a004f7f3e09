import KernelLib.ScanReplace
import KernelLib.StringCompare

/-!
# Replacing in a string

`repalce` and `irepalce` scan twice: once to count the occurrences, once to
copy what lies between them and the replacements. Both scans stop before an
occurrence that ends with the string.
-/

namespace KernelLib.StringReplace

open WideMemory Word32 CountedStrings StringCompare ScanReplace

section Loops

variable (compare : List WChar → List WChar → ℕ → Option ℕ) (str old ns : List WChar)
  (osl strLen nsl : ℕ)

/-- The counting loop: the number of occurrences, for so many rounds at most. -/
def countLoop : ℕ → ℕ → ℕ → Option ℕ
  | 0, _, _ => none
  | fuel + 1, i, count =>
    if u32 (i + osl) < strLen then do
      let m ← compare (str.drop i) old osl
      if osl = m then countLoop fuel (u32 (u32 (i + sub32 osl 1) + 1)) (u32 (count + 1))
      else countLoop fuel (u32 (i + 1)) count
    else some count

/-- The variables of the copying loop. -/
structure Cursor where
  /-- `i`. -/
  i : ℕ
  /-- `pre`, where the text not copied yet begins. -/
  pre : ℕ
  /-- `copy_len`. -/
  copyLen : ℕ
  /-- The block of `rt`. -/
  buffer : List WChar

/-- The copying loop. -/
def copyLoop : ℕ → Cursor → Option Cursor
  | 0, _ => none
  | fuel + 1, c =>
    if u32 (c.i + osl) < strLen then do
      let m ← compare (str.drop c.i) old osl
      if osl = m then
        let buffer ← copyMemoryAt c.buffer c.copyLen (str.drop c.pre) (2 * sub32 c.i c.pre)
        let copyLen := u32 (c.copyLen + sub32 c.i c.pre)
        let buffer ← copyMemoryAt buffer copyLen ns (2 * nsl)
        copyLoop fuel
          { i := u32 (u32 (c.i + sub32 osl 1) + 1)
            pre := u32 (c.i + osl)
            copyLen := u32 (copyLen + nsl)
            buffer := buffer }
      else copyLoop fuel { c with i := u32 (c.i + 1) }
    else some c

/-- The text behind the last occurrence. -/
def copyTail (c : Cursor) : Option Cursor :=
  if c.pre < strLen then do
    let buffer ← copyMemoryAt c.buffer c.copyLen (str.drop c.pre) (2 * sub32 strLen c.pre)
    return { c with copyLen := u32 (c.copyLen + sub32 strLen c.pre), buffer := buffer }
  else some c

end Loops

/-- The static members, over the comparison that they call. Each round of a loop
advances, so that there are at most as many as characters. -/
def repalceBy (compare : List WChar → List WChar → ℕ → Option ℕ) (pool : Pool)
    (str : Option (List WChar)) (strLen : ℕ) (old ns : Option (List WChar)) : Option SklString :=
  match str, old, ns with
  | some str, some old, some ns => do
    let osl ← (rawlen old).map u32
    let count ← countLoop compare str old osl strLen (strLen + 1) 0 0
    if 0 < count then
      let nsl ← (rawlen ns).map u32
      let rt := ofSize pool (u32 (strLen + u32 (count * sub32 nsl osl)))
      -- `!rt` converts `rt` to a pointer, which is never null: without a block the copies
      -- go through the null `Buffer`
      let b ← rt.unicodeStr.buffer
      let c ← copyLoop compare str old ns osl strLen nsl (strLen + 1) ⟨0, 0, 0, b⟩
      let c ← copyTail str strLen c
      return ⟨{ rt.unicodeStr with
        length := u16 (u16 c.copyLen * 2)
        length_lt := u16_lt _
        buffer := some c.buffer }⟩
    else ofBuf pool str strLen
  | _, _, _ => some .null

/-- `repalce`, the static one. -/
def repalce : Pool → Option (List WChar) → ℕ → Option (List WChar) → Option (List WChar) →
    Option SklString := repalceBy comparemem

/-- `irepalce`, the static one. -/
def irepalce : Pool → Option (List WChar) → ℕ → Option (List WChar) → Option (List WChar) →
    Option SklString := repalceBy icomparemem

/-- `repalce` of a string. -/
def SklString.repalce (pool : Pool) (s : SklString) (old ns : Option (List WChar)) :
    Option SklString :=
  if old.isNone ∨ ns.isNone then some .null
  else StringReplace.repalce pool s.unicodeStr.buffer (s.unicodeStr.length / 2) old ns

/-- `irepalce` of a string. -/
def SklString.irepalce (pool : Pool) (s : SklString) (old ns : Option (List WChar)) :
    Option SklString :=
  if old.isNone ∨ ns.isNone then some .null
  else StringReplace.irepalce pool s.unicodeStr.buffer (s.unicodeStr.length / 2) old ns

/-- A search text stands at the front, under the mapping of characters. -/
def stands (fold : WChar → WChar) (old l : List WChar) : Bool :=
  decide ((l.take old.length).map fold = old.map fold)

/-- The text with all leftmost occurrences, from left to right, replaced. -/
def replaced (fold : WChar → WChar) (old ns str : List WChar) : List WChar :=
  replaceAll (stands fold old) old.length ns str

/-- What the loops make of it: an occurrence at the end is left. -/
def scanned (fold : WChar → WChar) (old ns str : List WChar) : List WChar :=
  replaceAll (before (stands fold old) old.length) old.length ns str

section Scans

variable {fold : WChar → WChar} {text old ns behind after : List WChar} {i count fuel : ℕ}

theorem stands_fits {old : List WChar} (l : List WChar) (h : stands fold old l) :
    old.length ≤ l.length := by
  have hlen := congrArg List.length (of_decide_eq_true h)
  rw [List.length_map, List.length_map, List.length_take] at hlen
  omega

/-- The comparison inside of a loop tells whether an occurrence stands there. -/
theorem compare_front (fold : WChar → WChar) (chars behind rest : List WChar)
    (hi : i + chars.length < text.length) :
    ∃ m, comparememBy fold ((text ++ rest).drop i) (chars ++ behind) chars.length = some m ∧
      (chars.length = m ↔ before (stands fold chars) chars.length (text.drop i)) := by
  have hdrop : (text ++ rest).drop i = text.drop i ++ rest :=
    List.drop_append_of_le_length (by omega)
  have hlen : chars.length ≤ (text.drop i).length := by
    rw [List.length_drop]
    omega
  obtain ⟨m, hm, hiff⟩ := comparememBy_spec fold (a := (text ++ rest).drop i)
    (b := chars ++ behind) (n := chars.length)
    (by rw [hdrop, List.length_append]; omega) (by rw [List.length_append]; omega)
  refine ⟨m, hm, hiff.trans ?_⟩
  rw [before_iff, hdrop, List.take_append_of_le_length hlen, List.take_left, List.length_drop,
    stands, decide_eq_true_iff]
  constructor
  · intro h
    exact ⟨h, by omega⟩
  · intro h
    exact h.1

/-- At an occurrence the body and the header move the index behind it. -/
theorem index_found {osl : ℕ} (hosl : 0 < osl) (hsum : i + osl < 2 ^ 32) :
    u32 (u32 (i + sub32 osl 1) + 1) = i + osl := by
  rw [sub32_of_le hosl (by omega), u32_of_lt (by omega : i + (osl - 1) < 2 ^ 32),
    u32_of_lt (by omega)]
  omega

/-- The counting loop counts the occurrences that the scan finds. -/
theorem countLoop_spec (fold : WChar → WChar) (text rest behind : List WChar) (i count fuel : ℕ)
    (hk : 0 < old.length) (hsum : text.length + old.length < 2 ^ 32)
    (hi : i ≤ text.length) (hfuel : text.length - i < fuel)
    (hcount : count + (occurrences (before (stands fold old) old.length) old.length
      (text.drop i)).length < 2 ^ 32) :
    countLoop (comparememBy fold) (text ++ rest) (old ++ behind) old.length text.length fuel i
        count =
      some (count + (occurrences (before (stands fold old) old.length) old.length
        (text.drop i)).length) := by
  induction fuel generalizing i count with
  | zero => omega
  | succ fuel ih =>
    rw [countLoop, u32_of_lt (by omega)]
    by_cases hlt : i + old.length < text.length
    · have hne : text.drop i ≠ [] := drop_ne_nil (by omega)
      obtain ⟨m, hm, hiff⟩ := compare_front fold old behind rest hlt
      rw [if_pos hlt, hm, Option.bind_eq_bind, Option.bind_some]
      by_cases hfound : before (stands fold old) old.length (text.drop i)
      · rw [occurrences_found hk hne hfound, List.length_cons, List.length_map, List.drop_drop]
          at hcount ⊢
        rw [if_pos (hiff.mpr hfound), index_found hk (by omega), u32_of_lt (by omega),
          ih _ _ (by omega) (by omega) (by omega)]
        congr 1
        omega
      · rw [occurrences_skip hne hfound, List.length_map, List.drop_drop] at hcount ⊢
        rw [if_neg (fun h => hfound (hiff.mp h)), u32_of_lt (by omega),
          ih _ _ (by omega) (by omega) hcount]
    · rw [if_neg hlt, occurrences_short before_fits (by rw [List.length_drop]; omega)]
      rfl

/-- What the copying loop has done: the copied characters, those between the
last occurrence and the current character, and the scan of the others. -/
structure Copied (fold : WChar → WChar) (text old ns : List WChar) (c : Cursor) : Prop where
  pre_le : c.pre ≤ c.i
  i_le : c.i ≤ text.length
  length_eq : c.buffer.length = (scanned fold old ns text).length
  copyLen_le : c.copyLen ≤ c.buffer.length
  copied : c.buffer.take c.copyLen ++ (text.drop c.pre).take (c.i - c.pre) ++
    scanned fold old ns (text.drop c.i) = scanned fold old ns text

variable {c : Cursor}

theorem Copied.length_add (h : Copied fold text old ns c) :
    c.copyLen + (c.i - c.pre) + (scanned fold old ns (text.drop c.i)).length =
      c.buffer.length := by
  have hlen := congrArg List.length h.copied
  have hpre := h.pre_le
  have hi := h.i_le
  have hle := h.copyLen_le
  rw [List.length_append, List.length_append, List.length_take, List.length_take,
    List.length_drop] at hlen
  have heq := h.length_eq
  omega

/-- A character that is not at an occurrence stays to be copied. -/
theorem Copied.skip (h : Copied fold text old ns c) (hlt : c.i < text.length)
    (hn : ¬before (stands fold old) old.length (text.drop c.i)) :
    Copied fold text old ns { c with i := c.i + 1 } where
  pre_le := Nat.le_succ_of_le h.pre_le
  i_le := hlt
  length_eq := h.length_eq
  copyLen_le := h.copyLen_le
  copied := by
    have hpre := h.pre_le
    have hne : text.drop c.i ≠ [] := drop_ne_nil hlt
    have hsplit : (text.drop c.pre).take (c.i + 1 - c.pre) =
        (text.drop c.pre).take (c.i - c.pre) ++ (text.drop c.i).take 1 := by
      rw [show c.i + 1 - c.pre = (c.i - c.pre) + 1 by omega, List.take_add, List.drop_drop,
        show c.pre + (c.i - c.pre) = c.i by omega]
    have hcopied := h.copied
    unfold scanned at hcopied ⊢
    rw [replaceAll_skip hne hn, List.drop_drop] at hcopied
    rw [← hcopied]
    simp only [hsplit, List.append_assoc]

/-- At an occurrence the characters before it and the replacement are copied. -/
theorem Copied.found (h : Copied fold text old ns c) (rest after : List WChar)
    (hk : 0 < old.length) (hf : before (stands fold old) old.length (text.drop c.i)) :
    ∃ b b', copyMemoryAt c.buffer c.copyLen ((text ++ rest).drop c.pre) (2 * (c.i - c.pre)) = some b ∧
      copyMemoryAt b (c.copyLen + (c.i - c.pre)) (ns ++ after) (2 * ns.length) = some b' ∧
      Copied fold text old ns
        ⟨c.i + old.length, c.i + old.length, c.copyLen + (c.i - c.pre) + ns.length, b'⟩ := by
  have hpre := h.pre_le
  have hi := h.i_le
  have hadd := h.length_add
  have hrest := (before_iff.mp hf).2
  rw [List.length_drop] at hrest
  have hne : text.drop c.i ≠ [] := drop_ne_nil (by omega)
  have hscan : scanned fold old ns (text.drop c.i) =
      ns ++ scanned fold old ns (text.drop (c.i + old.length)) := by
    rw [scanned, replaceAll_found hk hne hf, List.drop_drop]
    rfl
  have hdrop : (text ++ rest).drop c.pre = text.drop c.pre ++ rest :=
    List.drop_append_of_le_length (by omega)
  have htext : c.i - c.pre ≤ (text.drop c.pre).length := by
    rw [List.length_drop]
    omega
  rw [hscan, List.length_append] at hadd
  obtain ⟨b, hb, hlen, htake⟩ := copyMemoryAt_spec c.buffer ((text ++ rest).drop c.pre)
    c.copyLen (c.i - c.pre) (by omega)
    (by rw [hdrop, List.length_append]; omega)
  obtain ⟨b', hb', hlen', htake'⟩ := copyMemoryAt_spec b (ns ++ after)
    (c.copyLen + (c.i - c.pre)) ns.length (by omega)
    (by rw [List.length_append]; omega)
  refine ⟨b, b', hb, hb', ⟨le_rfl, by simp only; omega, ?_, ?_, ?_⟩⟩
  · exact (hlen'.trans hlen).trans h.length_eq
  · simp only
    omega
  · rw [hdrop, List.take_append_of_le_length htext] at htake
    rw [htake, List.take_left] at htake'
    rw [← h.copied, hscan]
    simp only [htake', Nat.sub_self, List.take_zero, List.append_assoc, List.nil_append]

/-- The copying loop ends behind the last occurrence. -/
theorem copyLoop_spec (rest behind after : List WChar) (fuel : ℕ) (hk : 0 < old.length)
    (hsum : text.length + old.length < 2 ^ 32)
    (hlen : (scanned fold old ns text).length < 2 ^ 32)
    (h : Copied fold text old ns c) (hfuel : text.length - c.i < fuel) :
    ∃ c', copyLoop (comparememBy fold) (text ++ rest) (old ++ behind) (ns ++ after) old.length
        text.length ns.length fuel c = some c' ∧
      Copied fold text old ns c' ∧ text.length ≤ c'.i + old.length := by
  induction fuel generalizing c with
  | zero => omega
  | succ fuel ih =>
    have hi := h.i_le
    have hpre := h.pre_le
    have hadd := h.length_add
    have heq := h.length_eq
    rw [copyLoop, u32_of_lt (by omega)]
    by_cases hlt : c.i + old.length < text.length
    · obtain ⟨m, hm, hiff⟩ := compare_front fold old behind rest hlt
      rw [if_pos hlt, hm, Option.bind_eq_bind, Option.bind_some]
      by_cases hfound : before (stands fold old) old.length (text.drop c.i)
      · obtain ⟨b, b', hb, hb', hcop⟩ := h.found rest after hk hfound
        have hadd' := hcop.length_add
        have heq' := hcop.length_eq
        simp only at hadd' heq'
        obtain ⟨c', hc', hres⟩ := ih hcop (by simp only; omega)
        refine ⟨c', ?_, hres⟩
        rw [if_pos (hiff.mpr hfound), sub32_of_le hpre (by omega), hb, Option.bind_eq_bind,
          Option.bind_some, u32_of_lt (n := c.copyLen + (c.i - c.pre)) (by omega)]
        simp only [hb', Option.bind_some]
        rw [index_found hk (by omega), u32_of_lt (by omega), hc']
      · rw [if_neg (fun he => hfound (hiff.mp he)), u32_of_lt (by omega)]
        exact ih (h.skip (by omega) hfound) (by simp only; omega)
    · rw [if_neg hlt]
      exact ⟨c, rfl, h, by omega⟩

/-- With the text behind the last occurrence, the block holds the whole scan. -/
theorem copyTail_spec (rest : List WChar) (h : Copied fold text old ns c)
    (hend : text.length ≤ c.i + old.length) (htext : text.length < 2 ^ 32)
    (hlen : (scanned fold old ns text).length < 2 ^ 32) :
    ∃ c', copyTail (text ++ rest) text.length c = some c' ∧
      c'.copyLen = (scanned fold old ns text).length ∧
      c'.buffer = scanned fold old ns text := by
  have hpre := h.pre_le
  have hi := h.i_le
  have hadd := h.length_add
  have heq := h.length_eq
  have hcopied := h.copied
  have hlast : scanned fold old ns (text.drop c.i) = text.drop c.i :=
    replaceAll_short before_fits (by rw [List.length_drop]; omega)
  have hsplit : (text.drop c.pre).take (c.i - c.pre) ++ text.drop c.i = text.drop c.pre := by
    have := List.take_append_drop (c.i - c.pre) (text.drop c.pre)
    rwa [List.drop_drop, show c.pre + (c.i - c.pre) = c.i by omega] at this
  rw [hlast, List.length_drop] at hadd
  rw [hlast, List.append_assoc, hsplit] at hcopied
  rw [copyTail]
  by_cases hlt : c.pre < text.length
  · have hdrop : (text ++ rest).drop c.pre = text.drop c.pre ++ rest :=
      List.drop_append_of_le_length (by omega)
    have hall : text.length - c.pre = (text.drop c.pre).length := List.length_drop.symm
    obtain ⟨b, hb, hblen, htake⟩ := copyMemoryAt_spec c.buffer ((text ++ rest).drop c.pre)
      c.copyLen (text.length - c.pre) (by omega)
      (by rw [hdrop, List.length_append]; omega)
    rw [if_pos hlt, sub32_of_le (by omega) htext, hb, Option.bind_eq_bind, Option.bind_some]
    refine ⟨_, rfl, ?_, ?_⟩
    · simp only
      rw [u32_of_lt (by omega)]
      omega
    · rw [List.take_of_length_le (by omega), hdrop, hall, List.take_left, hcopied] at htake
      exact htake
  · rw [if_neg hlt]
    refine ⟨c, rfl, by omega, ?_⟩
    rw [List.drop_eq_nil_iff.mpr (by omega), List.append_nil, List.take_of_length_le (by omega)]
      at hcopied
    exact hcopied

variable {pool : Pool}

/-- The constructor allocates for the length that an `unsigned short` keeps. -/
theorem ofBuf_eq (rest : List WChar) (htext : text.length < 2 ^ 31) :
    ofBuf pool (text ++ rest) text.length =
      initializeWith pool (2 * (text.length % 2 ^ 15)) (by omega) (some (text ++ rest)) := by
  have hne : text.length ≠ npos := by
    unfold npos
    omega
  have hreal : u16 (u16 text.length * 2) = 2 * (text.length % 2 ^ 15) := by
    unfold u16
    omega
  simp only [ofBuf, if_neg hne, Option.bind_eq_bind, Option.bind_some, initializeBuf, hreal]

/-- For the longest strings `MaximumLength` wraps to zero, and the copy leaves the
block. -/
theorem ofBuf_overflow (rest : List WChar) (hpool : ∀ n, (pool.new n).isSome)
    (htext : text.length < 2 ^ 31) (hmax : text.length % 2 ^ 15 = 2 ^ 15 - 1) :
    ofBuf pool (text ++ rest) text.length = none := by
  obtain ⟨b, hb⟩ := Option.isSome_iff_exists.mp (hpool 0)
  have hnil : b = [] := List.length_eq_zero_iff.mp (pool.length_new _ _ hb)
  have hzero : u16 (2 * (text.length % 2 ^ 15) + 2) = 0 := by
    rw [hmax]
    rfl
  have hcopy : copyMemory [] (text ++ rest) (2 * (text.length % 2 ^ 15)) = none :=
    copyMemory_outside (by rw [hmax]; simp)
  have hpos : ¬2 * (text.length % 2 ^ 15) = 0 := by
    rw [hmax]
    decide
  rw [ofBuf_eq rest htext]
  unfold initializeWith
  simp only [hzero, Nat.zero_div, hb, hnil, if_neg hpos, Option.bind_eq_bind, Option.bind_some,
    hcopy]
  rfl

/-- A string constructed from the whole text, with the length that an
`unsigned short` keeps of it. -/
theorem ofBuf_spec (rest : List WChar) (hpool : ∀ n, (pool.new n).isSome)
    (htext : text.length < 2 ^ 31) :
    (∃ rt, ofBuf pool (text ++ rest) text.length = some rt ∧
        rt.wchars = text.take (text.length % 2 ^ 15)) ∨
      ofBuf pool (text ++ rest) text.length = none ∧ text.length % 2 ^ 15 = 2 ^ 15 - 1 := by
  by_cases hmax : text.length % 2 ^ 15 = 2 ^ 15 - 1
  · exact .inr ⟨ofBuf_overflow rest hpool htext hmax, hmax⟩
  · obtain ⟨rt, hrt, -, hres⟩ := initializeWith_spec pool (some (text ++ rest))
      (n := 2 * (text.length % 2 ^ 15)) (by omega) (by omega) (by omega)
      (by rw [Option.getD_some, List.length_append]; omega)
    refine .inl ⟨rt, by rw [ofBuf_eq rest htext, hrt], ?_⟩
    rcases hres with ⟨-, hnone⟩ | ⟨-, -, hw⟩
    · have := hpool (2 * (text.length % 2 ^ 15) / 2 + 1)
      rw [hnone] at this
      cases this
    · rw [hw, Option.getD_some, Nat.mul_div_cancel_left _ (by decide),
        List.take_append_of_le_length (Nat.mod_le _ _)]

/-- The length of the scan, from the number of occurrences. -/
theorem length_scanned (fold : WChar → WChar) (text : List WChar) (hk : 0 < old.length)
    (new : List WChar) :
    (scanned fold old new text).length +
        (occurrences (before (stands fold old) old.length) old.length text).length * old.length =
      text.length +
        (occurrences (before (stands fold old) old.length) old.length text).length * new.length :=
  length_replaceAll hk (fun l h => Nat.le_of_succ_le (before_fits l h)) text

/-- There are not more occurrences than characters. -/
theorem length_occurrences_le (fold : WChar → WChar) (text : List WChar) (hk : 0 < old.length) :
    (occurrences (before (stands fold old) old.length) old.length text).length ≤ text.length := by
  have hlength := length_scanned fold text hk []
  have hle := Nat.le_mul_of_pos_right
    (occurrences (before (stands fold old) old.length) old.length text).length hk
  rw [List.length_nil, Nat.mul_zero] at hlength
  omega

/-- The counting pass returns the number of the occurrences. -/
theorem countLoop_start (fold : WChar → WChar) (text rest behind : List WChar)
    (hk : 0 < old.length) (hsum : text.length + old.length < 2 ^ 32) :
    countLoop (comparememBy fold) (text ++ rest) (old ++ behind) old.length text.length
        (text.length + 1) 0 0 =
      some (occurrences (before (stands fold old) old.length) old.length text).length := by
  have hocc := length_occurrences_le fold text hk
  have hcount := countLoop_spec fold text rest behind 0 0 (text.length + 1) hk hsum
    (Nat.zero_le _) (by omega) (by rw [List.drop_zero]; omega)
  rwa [List.drop_zero, Nat.zero_add] at hcount

/-- The copying pass fills a block of the length of the scan with it. -/
theorem copyLoop_start (rest behind after : List WChar) (hk : 0 < old.length)
    (hsum : text.length + old.length < 2 ^ 32) (hlen : (scanned fold old ns text).length < 2 ^ 32)
    {b : List WChar} (hb : b.length = (scanned fold old ns text).length) :
    ∃ c c', copyLoop (comparememBy fold) (text ++ rest) (old ++ behind) (ns ++ after) old.length
        text.length ns.length (text.length + 1) ⟨0, 0, 0, b⟩ = some c ∧
      copyTail (text ++ rest) text.length c = some c' ∧
      c'.copyLen = (scanned fold old ns text).length ∧ c'.buffer = scanned fold old ns text := by
  have hstart : Copied fold text old ns ⟨0, 0, 0, b⟩ :=
    ⟨le_rfl, Nat.zero_le _, hb, Nat.zero_le _, by simp⟩
  obtain ⟨c, hc, hcop, hend⟩ := copyLoop_spec rest behind after (text.length + 1) hk hsum hlen
    hstart (Nat.lt_succ_of_le (Nat.sub_le _ _))
  obtain ⟨c', hc'⟩ := copyTail_spec rest hcop hend (by omega) hlen
  exact ⟨c, c', hc, hc'⟩

/-- Of a text with characters something is left: no occurrence ends with it. -/
theorem scanned_ne_nil (fold : WChar → WChar) (old ns text : List WChar) (hk : 0 < old.length)
    (htext : text ≠ []) : scanned fold old ns text ≠ [] := by
  match text with
  | [] => exact absurd rfl htext
  | c :: l =>
    by_cases hf : before (stands fold old) old.length (c :: l)
    · have hrest : (c :: l).drop old.length ≠ [] := drop_ne_nil (before_iff.mp hf).2
      rw [scanned, replaceAll_found hk htext hf]
      exact List.append_ne_nil_of_right_ne_nil _ (scanned_ne_nil fold old ns _ hk hrest)
    · rw [scanned, replaceAll_cons hf]
      exact List.cons_ne_nil _ _
termination_by text.length
decreasing_by simp; omega

end Scans

section Members

variable {fold : WChar → WChar} {text : List WChar} {old ns : CString} {pool : Pool}

/-- With occurrences, and a block for the scan, the members return it. -/
theorem repalceBy_granted (rest : List WChar) (hk : 0 < old.chars.length)
    (htext : text.length < 2 ^ 31) (hlen : (scanned fold old.chars ns.chars text).length < 2 ^ 32)
    (hpos : 0 < (occurrences (before (stands fold old.chars) old.chars.length) old.chars.length
      text).length) {b : List WChar}
    (hb : pool.new (scanned fold old.chars ns.chars text).length = some b) :
    ∃ rt, repalceBy (comparememBy fold) pool (some (text ++ rest)) text.length (some old.memory)
        (some ns.memory) = some rt ∧
      rt.unicodeStr.buffer = some (scanned fold old.chars ns.chars text) ∧
      rt.unicodeStr.length = u16 (2 * (scanned fold old.chars ns.chars text).length) ∧
      rt.unicodeStr.maximumLength = u16 (2 * (scanned fold old.chars ns.chars text).length) := by
  have holdlt := old.length_lt
  have hcount := countLoop_start fold text rest (0 :: old.rest) hk (by omega)
  obtain ⟨c, c', hc, hc', hlen', hbuf⟩ := copyLoop_start rest (0 :: old.rest) (0 :: ns.rest) hk
    (by omega) hlen (pool.length_new _ _ hb)
  have hsize : 0 < (scanned fold old.chars ns.chars text).length := by
    refine List.length_pos_iff.mpr (scanned_ne_nil fold _ _ _ hk ?_)
    rintro rfl
    exact absurd hpos (Nat.lt_irrefl 0)
  have hrt : ofSize pool (scanned fold old.chars ns.chars text).length =
      ⟨⟨0, u16 (u32 ((scanned fold old.chars ns.chars text).length * 2)), some b, by decide,
        u16_lt _⟩⟩ := by
    simp only [ofSize, if_pos hsize, hb, Option.isSome_some, if_true]
  have hcut : u16 (u32 ((scanned fold old.chars ns.chars text).length * 2)) =
      u16 (2 * (scanned fold old.chars ns.chars text).length) := by
    unfold u16 u32
    omega
  simp only [repalceBy, CString.rawlen_memory, Option.map_some, CString.u32_length,
    Option.bind_eq_bind, Option.bind_some]
  simp only [CString.memory, hcount, Option.bind_some, if_pos hpos,
    u32_exchange (length_scanned fold text hk ns.chars) (by omega) hlen, hrt, hc, hc']
  refine ⟨_, rfl, ?_, ?_, hcut⟩
  · simp only [hbuf]
  · simp only [hlen']
    unfold u16
    omega

/-- The members give what both loops scan, as far as an `unsigned short` can
count it. -/
theorem repalceBy_spec (rest : List WChar) (hpool : ∀ n, (pool.new n).isSome)
    (hk : 0 < old.chars.length) (htext : text.length < 2 ^ 31)
    (hlen : (scanned fold old.chars ns.chars text).length < 2 ^ 32) :
    (∃ rt, repalceBy (comparememBy fold) pool (some (text ++ rest)) text.length (some old.memory)
          (some ns.memory) = some rt ∧
        rt.wchars = (scanned fold old.chars ns.chars text).take
          ((scanned fold old.chars ns.chars text).length % 2 ^ 15)) ∨
      repalceBy (comparememBy fold) pool (some (text ++ rest)) text.length (some old.memory)
          (some ns.memory) = none ∧
        (scanned fold old.chars ns.chars text).length % 2 ^ 15 = 2 ^ 15 - 1 := by
  by_cases hpos : 0 < (occurrences (before (stands fold old.chars) old.chars.length)
      old.chars.length text).length
  · obtain ⟨b, hb⟩ := Option.isSome_iff_exists.mp
      (hpool (scanned fold old.chars ns.chars text).length)
    obtain ⟨rt, hrt, hbuf, hrtlen, -⟩ := repalceBy_granted rest hk htext hlen hpos hb
    have hhalf : u16 (2 * (scanned fold old.chars ns.chars text).length) / 2 =
        (scanned fold old.chars ns.chars text).length % 2 ^ 15 := by
      unfold u16
      omega
    refine .inl ⟨rt, hrt, ?_⟩
    rw [SklString.wchars, UnicodeString.wchars, UnicodeString.memory, hbuf, Option.getD_some,
      hrtlen, hhalf]
  · -- no occurrences: the string is constructed from the text
    have holdlt := old.length_lt
    have hsame : scanned fold old.chars ns.chars text = text :=
      replaceAll_of_occurrences_nil hk (List.length_eq_zero_iff.mp (by omega))
    have hcount := countLoop_start fold text rest (0 :: old.rest) hk (by omega)
    simp only [repalceBy, CString.rawlen_memory, Option.map_some, CString.u32_length,
      Option.bind_eq_bind, Option.bind_some]
    simp only [CString.memory, hcount, Option.bind_some, if_neg hpos, hsame]
    exact ofBuf_spec rest hpool htext

end Members

/-- The two members. -/
inductive Matching where
  /-- `repalce`. -/
  | plain
  /-- `irepalce`. -/
  | caseless

/-- How characters are compared. -/
def Matching.fold : Matching → WChar → WChar
  | .plain => id
  | .caseless => tolower

/-- A static call. -/
def Matching.replaceText (m : Matching) (pool : Pool) (str : Text) (old ns : CString) :
    Option SklString :=
  match m with
  | .plain => repalce pool (some str.memory) str.chars.length (some old.memory) (some ns.memory)
  | .caseless => irepalce pool (some str.memory) str.chars.length (some old.memory) (some ns.memory)

/-- A call on a string. -/
def Matching.replaceString (m : Matching) (pool : Pool) (s : SklString) (old ns : CString) :
    Option SklString :=
  match m with
  | .plain => SklString.repalce pool s (some old.memory) (some ns.memory)
  | .caseless => SklString.irepalce pool s (some old.memory) (some ns.memory)

/-- A call returns a string with these characters. -/
def Returns (call : Option SklString) (chars : List WChar) : Prop :=
  ∃ rt, call = some rt ∧ rt.wchars = chars

/-- No occurrence of the scan ends with the text, or the replacement is there
already, as far as the length of a string can tell. -/
def EndKept (fold : WChar → WChar) (old ns str : List WChar) : Prop :=
  ¬EndsFound (stands fold old) old.length str ∨
    ns = (str.drop (str.length - old.length)).take (old.length % 2 ^ 15)

section Calls

variable {fold : WChar → WChar} {old ns str : List WChar}

/-- The loops and the replacement of all occurrences differ at the end only. -/
theorem scanned_spec (ns : List WChar) (hk : 0 < old.length) :
    (EndsFound (stands fold old) old.length str →
      ∃ u, replaced fold old ns str = u ++ ns ∧
        scanned fold old ns str = u ++ str.drop (str.length - old.length) ∧
        old.length ≤ str.length) ∧
    (¬EndsFound (stands fold old) old.length str →
      scanned fold old ns str = replaced fold old ns str) :=
  replaceAll_before hk stands_fits str

/-- What is scanned has all occurrences replaced when the end is kept, and only then. -/
theorem take_scanned_iff (hk : 0 < old.length)
    (hlen : (replaced fold old ns str).length ≤ 32766) :
    (scanned fold old ns str).take ((scanned fold old ns str).length % 2 ^ 15) =
      replaced fold old ns str ↔ EndKept fold old ns str := by
  by_cases hends : EndsFound (stands fold old) old.length str
  · obtain ⟨u, hall, hscan, hle⟩ := (scanned_spec ns hk).1 hends
    have htail : (str.drop (str.length - old.length)).length = old.length := by
      rw [List.length_drop]
      omega
    rw [hall, List.length_append] at hlen
    rw [EndKept, hall, hscan, List.length_append, htail]
    constructor
    · intro h
      refine .inr ?_
      have hcut := congrArg List.length h
      rw [List.length_take, List.length_append, List.length_append, htail] at hcut
      have hmod : (u.length + old.length) % 2 ^ 15 = u.length + old.length % 2 ^ 15 := by omega
      rw [hmod, List.take_length_add_append] at h
      exact (List.append_cancel_left h).symm
    · rintro (hn | hns)
      · exact absurd hends hn
      · have hnslen : ns.length = old.length % 2 ^ 15 := by
          rw [hns, List.length_take, htail]
          omega
        have hmod : (u.length + old.length) % 2 ^ 15 = u.length + old.length % 2 ^ 15 := by omega
        rw [hmod, List.take_length_add_append, ← hns]
  · have hsame := (scanned_spec ns hk).2 hends
    rw [EndKept, hsame, Nat.mod_eq_of_lt (by omega), List.take_length]
    exact ⟨fun _ => .inl hends, fun _ => rfl⟩

/-- The longest scan does not keep the end. -/
theorem not_endKept_of_longest (hk : 0 < old.length)
    (hlen : (replaced fold old ns str).length ≤ 32766)
    (hmax : (scanned fold old ns str).length % 2 ^ 15 = 2 ^ 15 - 1) : ¬EndKept fold old ns str := by
  intro hkept
  have hcut := congrArg List.length ((take_scanned_iff hk hlen).mpr hkept)
  rw [List.length_take, hmax] at hcut
  omega

/-- A scan is not much longer than the text that it is to give. -/
theorem length_scanned_lt (hk : 0 < old.length) (hold : old.length < 2 ^ 31)
    (hlen : (replaced fold old ns str).length ≤ 32766) :
    (scanned fold old ns str).length < 2 ^ 32 := by
  by_cases hends : EndsFound (stands fold old) old.length str
  · obtain ⟨u, hall, hscan, -⟩ := (scanned_spec ns hk).1 hends
    rw [hall, List.length_append] at hlen
    rw [hscan, List.length_append, List.length_drop]
    omega
  · rw [(scanned_spec ns hk).2 hends]
    omega

/-- A static call replaces all occurrences when the end is kept, and only then. -/
theorem repalceBy_iff {pool : Pool} {str : Text} {old ns : CString}
    (hpool : ∀ n, (pool.new n).isSome) (hold : old.chars ≠ [])
    (hlen : (replaced fold old.chars ns.chars str.chars).length ≤ 32766) :
    Returns (repalceBy (comparememBy fold) pool (some str.memory) str.chars.length
        (some old.memory) (some ns.memory)) (replaced fold old.chars ns.chars str.chars) ↔
      EndKept fold old.chars ns.chars str.chars := by
  have hk := List.length_pos_iff.mpr hold
  have hiff := take_scanned_iff hk hlen
  rcases repalceBy_spec str.rest hpool hk str.length_lt
    (length_scanned_lt hk old.length_lt hlen) with ⟨rt, hrt, hw⟩ | ⟨hnone, hmax⟩
  · rw [← hiff, ← hw]
    constructor
    · rintro ⟨rt', hrt', hw'⟩
      rw [← hw', Option.some.inj (hrt.symm.trans hrt')]
    · intro h
      exact ⟨rt, hrt, h⟩
  · constructor
    · rintro ⟨rt, hrt, -⟩
      cases hnone.symm.trans hrt
    · intro hkept
      exact absurd hkept (not_endKept_of_longest hk hlen hmax)

/-- A call on a string is the static call on its characters. -/
theorem replaceString_iff {m : Matching} {pool : Pool} {s : SklString} {old ns : CString}
    (hpool : ∀ n, (pool.new n).isSome) (hold : old.chars ≠ []) (hr : s.unicodeStr.Readable)
    (hlen : (replaced m.fold old.chars ns.chars s.wchars).length ≤ 32766) :
    Returns (m.replaceString pool s old ns) (replaced m.fold old.chars ns.chars s.wchars) ↔
      EndKept m.fold old.chars ns.chars s.wchars := by
  cases hb : s.unicodeStr.buffer with
  | none =>
    have hnil : s.wchars = [] := by
      rw [SklString.wchars, UnicodeString.wchars, UnicodeString.memory, hb]
      exact List.take_nil
    have hnull : m.replaceString pool s old ns = some .null := by
      cases m <;> simp [Matching.replaceString, SklString.repalce, SklString.irepalce, repalce,
        irepalce, repalceBy, hb]
    rw [hnull, hnil]
    constructor
    · intro _
      exact .inl (by rintro ⟨p, hp, -⟩; cases hp)
    · intro _
      exact ⟨.null, rfl, rfl⟩
  | some b =>
    have hlt := s.unicodeStr.length_lt
    have hmem : s.unicodeStr.memory = b := by rw [UnicodeString.memory, hb, Option.getD_some]
    have hcount : s.wchars.length = s.unicodeStr.length / 2 := by
      rw [SklString.wchars, UnicodeString.wchars, List.length_take]
      exact Nat.min_eq_left hr
    have hstr : s.wchars ++ b.drop (s.unicodeStr.length / 2) = b := by
      rw [SklString.wchars, UnicodeString.wchars, hmem, List.take_append_drop]
    have hcall : m.replaceString pool s old ns = repalceBy (comparememBy m.fold) pool
        (some (Text.memory ⟨s.wchars, b.drop (s.unicodeStr.length / 2), by omega⟩)) s.wchars.length
        (some old.memory) (some ns.memory) := by
      cases m <;> simp [Matching.replaceString, SklString.repalce, SklString.irepalce, repalce,
        irepalce, Matching.fold, comparemem, icomparemem, hb, hcount, Text.memory, hstr]
    rw [hcall]
    exact repalceBy_iff hpool hold hlen

/-- With no allocation failure, and as long as the result is one that a string
can hold, both members replace all occurrences in exactly these cases: none of
them ends with the text, or the replacement is there already. -/
theorem replaced_iff (m : Matching) (pool : Pool) (hpool : ∀ n, (pool.new n).isSome)
    (old ns : CString) (hold : old.chars ≠ []) :
    (∀ str : Text, (replaced m.fold old.chars ns.chars str.chars).length ≤ 32766 →
      (Returns (m.replaceText pool str old ns) (replaced m.fold old.chars ns.chars str.chars) ↔
        EndKept m.fold old.chars ns.chars str.chars)) ∧
    ∀ s : SklString, s.unicodeStr.Readable →
      (replaced m.fold old.chars ns.chars s.wchars).length ≤ 32766 →
      (Returns (m.replaceString pool s old ns) (replaced m.fold old.chars ns.chars s.wchars) ↔
        EndKept m.fold old.chars ns.chars s.wchars) := by
  constructor
  · intro str hlen
    cases m with
    | plain => exact repalceBy_iff hpool hold hlen
    | caseless => exact repalceBy_iff hpool hold hlen
  · intro s hr hlen
    exact replaceString_iff hpool hold hr hlen

/-- In `BaaB`, an `a` in front of the end is replaced, twice, whatever its case. -/
theorem replaced_iff_inside :
    Returns (Matching.caseless.replaceText .zeroed ⟨[66, 97, 97, 66], [], by decide⟩
      ⟨[65], [], by decide, by decide⟩ ⟨[99, 100], [], by decide, by decide⟩)
      [66, 99, 100, 99, 100, 66] :=
  ((replaced_iff .caseless .zeroed (fun _ => rfl) ⟨[65], [], by decide, by decide⟩
    ⟨[99, 100], [], by decide, by decide⟩ (by decide)).1 ⟨[66, 97, 97, 66], [], by decide⟩
    (by decide)).mpr (.inl (by unfold EndsFound; decide))

/-- The `b` that ends `ab` is not replaced by `c`. -/
theorem not_replaced_atEnd :
    (replaced id [98] [99] [97, 98]).length ≤ 32766 ∧
      ¬Returns (Matching.plain.replaceText .zeroed ⟨[97, 98], [], by decide⟩
        ⟨[98], [], by decide, by decide⟩ ⟨[99], [], by decide, by decide⟩)
        (replaced id [98] [99] [97, 98]) := by
  refine ⟨by decide, ?_⟩
  rintro ⟨rt, hrt, hw⟩
  have hkeeps : (Matching.plain.replaceText .zeroed ⟨[97, 98], [], by decide⟩
      ⟨[98], [], by decide, by decide⟩ ⟨[99], [], by decide, by decide⟩).map SklString.wchars =
      some [97, 98] := by decide
  rw [hrt, Option.map_some, hw] at hkeeps
  exact absurd hkeeps (by decide)

end Calls

end KernelLib.StringReplace
