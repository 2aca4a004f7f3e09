import KernelLib.StringReplace
import KernelLib.StringSearch

/-!
# Up to case

The operations up to case do on a string what the plain ones do on the text
with all letters made small. Each loop is followed round by round: it takes
the same branches on both, reads at the same places and fails together.
-/

namespace KernelLib.StringFold

open WideMemory Word32 CountedStrings StringCompare StringReplace StringSearch

section Folding

variable {c : WChar}

/-- The number of a small letter. -/
theorem toNat_tolower (c : WChar) :
    (tolower c).toNat = if 65 ≤ c.toNat ∧ c.toNat ≤ 90 then c.toNat + 32 else c.toNat := by
  have hlt := c.toNat_lt
  simp only [tolower, UInt16.le_iff_toNat_le]
  by_cases h : 65 ≤ c.toNat ∧ c.toNat ≤ 90
  · have hc : (65 : WChar).toNat ≤ c.toNat ∧ c.toNat ≤ (90 : WChar).toNat := h
    rw [if_pos hc, if_pos h, UInt16.toNat_add]
    exact Nat.mod_eq_of_lt (by have : (32 : WChar).toNat = 32 := rfl; omega)
  · have hc : ¬ ((65 : WChar).toNat ≤ c.toNat ∧ c.toNat ≤ (90 : WChar).toNat) := h
    rw [if_neg hc, if_neg h]

/-- A small letter stays. -/
@[simp] theorem tolower_tolower (c : WChar) : tolower (tolower c) = tolower c := by
  rw [← UInt16.toNat_inj, toNat_tolower, toNat_tolower]
  split_ifs <;> omega

/-- Only a NUL is made one. -/
@[simp] theorem tolower_eq_zero : tolower c = 0 ↔ c = 0 := by
  rw [← UInt16.toNat_inj, ← UInt16.toNat_inj, toNat_tolower]
  have hz : (0 : WChar).toNat = 0 := rfl
  split_ifs <;> omega

/-- Text with all letters made small. -/
def foldText (text : List WChar) : List WChar := text.map tolower

@[simp] theorem foldText_nil : foldText [] = [] := rfl

/-- The first unit is folded. -/
@[simp] theorem foldText_cons (c : WChar) (text : List WChar) :
    foldText (c :: text) = tolower c :: foldText text := rfl

/-- Folding keeps the length. -/
@[simp] theorem length_foldText (text : List WChar) : (foldText text).length = text.length :=
  List.length_map ..

/-- Folding once is enough. -/
@[simp] theorem foldText_foldText (text : List WChar) :
    foldText (foldText text) = foldText text := by
  simp [foldText]

/-- What is left of a text is folded as it is. -/
theorem foldText_drop (text : List WChar) (n : ℕ) :
    foldText (text.drop n) = (foldText text).drop n :=
  List.map_drop ..

/-- So is its beginning. -/
theorem foldText_take (text : List WChar) (n : ℕ) :
    foldText (text.take n) = (foldText text).take n :=
  List.map_take ..

/-- So are the parts of a text. -/
theorem foldText_append (a b : List WChar) : foldText (a ++ b) = foldText a ++ foldText b :=
  List.map_append

/-- Each unit is folded. -/
theorem getElem?_foldText (text : List WChar) (n : ℕ) :
    (foldText text)[n]? = text[n]?.map tolower :=
  List.getElem?_map ..

/-- A string over text with all letters made small. -/
def foldUnicode (us : UnicodeString) : UnicodeString := { us with buffer := us.buffer.map foldText }

/-- A string with all letters made small. -/
def foldString (s : SklString) : SklString := ⟨foldUnicode s.unicodeStr⟩

/-- The memory of a folded string is folded. -/
@[simp] theorem memory_foldUnicode (us : UnicodeString) :
    (foldUnicode us).memory = foldText us.memory := by
  cases h : us.buffer <;> simp [foldUnicode, UnicodeString.memory, h]

@[simp] theorem length_foldUnicode (us : UnicodeString) : (foldUnicode us).length = us.length := rfl

@[simp] theorem length_foldString (s : SklString) : (foldString s).length = s.length := by
  simp [foldString, foldUnicode, SklString.length]

@[simp] theorem unicodeStr_foldString (s : SklString) :
    (foldString s).unicodeStr = foldUnicode s.unicodeStr := rfl

/-- The buffer of a folded string is folded. -/
@[simp] theorem buffer_foldUnicode (us : UnicodeString) :
    (foldUnicode us).buffer = us.buffer.map foldText := rfl

/-- Folding keeps the terminator where it is. -/
@[simp] theorem rawlen_foldText (text : List WChar) : rawlen (foldText text) = rawlen text := by
  induction text with
  | nil => rfl
  | cons c text ih => simp [rawlen, ih]

end Folding

section Comparisons

variable (str start : List WChar)

/-- The characters that are compared are those of the small text. -/
theorem comparememBy_fold (n : ℕ) :
    icomparemem str start n = comparemem (foldText str) (foldText start) n := by
  unfold icomparemem comparemem
  induction n generalizing str start with
  | zero => simp [comparememBy]
  | succ n ih =>
    cases str with
    | nil => simp [comparememBy]
    | cons b str =>
      cases start with
      | nil => simp [comparememBy]
      | cons a start => simp [comparememBy, ih]

/-- A comparison that folds is an exact one of what is folded. -/
theorem compareBy_fold (n m : ℕ) :
    compareBy tolower str n start m = compareBy id (foldText str) n (foldText start) m := by
  induction n generalizing str start m with
  | zero => simp [compareBy]
  | succ n ih =>
    cases m with
    | zero => simp [compareBy]
    | succ m =>
      cases str with
      | nil => simp [compareBy]
      | cons a str =>
        cases start with
        | nil => simp [compareBy]
        | cons b start => simp [compareBy, ih]

/-- So it is with a text up to its terminator. -/
theorem compareNulBy_fold (n : ℕ) :
    compareNulBy tolower str n start = compareNulBy id (foldText str) n (foldText start) := by
  induction n generalizing str start with
  | zero => cases start <;> simp [compareNulBy]
  | succ n ih =>
    cases start with
    | nil => simp [compareNulBy]
    | cons b start => cases str <;> simp [compareNulBy, ih]

/-- So is the loop over two texts. -/
theorem agreeLoop_fold (n : ℕ) :
    agreeLoop tolower str start n = agreeLoop id (foldText str) (foldText start) n := by
  induction n generalizing str start with
  | zero => simp [agreeLoop]
  | succ n ih => cases str <;> cases start <;> simp [agreeLoop, ih]

/-- So is the one with two lengths. -/
theorem startLoop_fold (n m : ℕ) :
    startLoop tolower str n start m = startLoop id (foldText str) n (foldText start) m := by
  induction m generalizing str start n with
  | zero => simp [startLoop]
  | succ m ih =>
    cases start with
    | nil => cases n <;> simp [startLoop]
    | cons c start =>
      cases n with
      | zero => simp [startLoop]
      | succ n => cases str <;> simp [startLoop, ih]

end Comparisons

section Searches

variable {buf str : List WChar} {thislen matchlen n m pos : ℕ}

/-- Bytes of small text agree where characters agree up to case. -/
theorem compareMemory_fold (buf str : List WChar) (n : ℕ) :
    (compareMemory (foldText buf) (foldText str) (2 * n)).map (· == 2 * n) =
      (icomparemem buf str n).map (· == n) := by
  rw [compareMemory_eq, comparememBy_fold]

/-- Behind the end of a text it does not matter how much is to be compared. -/
theorem comparememBy_outside (fold : WChar → WChar) (str : List WChar) (hn : buf.length < n)
    (hm : buf.length < m) :
    (comparememBy fold buf str n).map (· == n) = (comparememBy fold buf str m).map (· == m) := by
  induction buf generalizing str n m with
  | nil =>
    obtain ⟨n, rfl⟩ := Nat.exists_eq_succ_of_ne_zero (Nat.ne_of_gt hn)
    obtain ⟨m, rfl⟩ := Nat.exists_eq_succ_of_ne_zero (Nat.ne_of_gt hm)
    simp [comparememBy]
  | cons b buf ih =>
    obtain ⟨n, rfl⟩ := Nat.exists_eq_succ_of_ne_zero (Nat.ne_of_gt (Nat.zero_lt_of_lt hn))
    obtain ⟨m, rfl⟩ := Nat.exists_eq_succ_of_ne_zero (Nat.ne_of_gt (Nat.zero_lt_of_lt hm))
    rw [List.length_cons] at hn hm
    cases str with
    | nil => simp [comparememBy]
    | cons a str =>
      rw [comparememBy, comparememBy]
      by_cases hab : fold a = fold b
      · have hih := ih str (Nat.lt_of_succ_lt_succ hn) (Nat.lt_of_succ_lt_succ hm)
        rw [if_neg (not_not_intro hab), if_neg (not_not_intro hab), Option.map_map, Option.map_map]
        simpa [Function.comp_def] using hih
      · rw [if_pos hab, if_pos hab]
        simp

/-- The tests of the searches agree when the bytes can be counted. -/
theorem charsHit_eq (h : matchlen < 2 ^ 31) :
    charsHit str matchlen buf = bytesHit (foldText str) matchlen (foldText buf) := by
  have hu : u32 (2 * matchlen) = 2 * matchlen := u32_of_lt (by omega)
  simp only [charsHit, bytesHit, hu, compareMemory_fold]

/-- The tests agree as well when the bytes go beyond the end of the text. -/
theorem charsHit_eq_outside (h : matchlen < 2 ^ 32) (hbuf : buf.length + 2 ^ 31 < matchlen) :
    charsHit str matchlen buf = bytesHit (foldText str) matchlen (foldText buf) := by
  obtain ⟨n, rfl⟩ := Nat.exists_eq_add_of_lt hbuf
  have hu : u32 (2 * (buf.length + 2 ^ 31 + n + 1)) = 2 * (buf.length + n + 1) := by
    simp only [u32]
    omega
  simp only [charsHit, bytesHit, hu, compareMemory_fold]
  exact comparememBy_outside tolower str (by omega) (by omega)

/-- A search whose tests agree at each place that it looks at agrees. -/
theorem findLoop_fold {hit hit' : List WChar → Option Bool} (fuel : ℕ)
    (hhit : ∀ pos, u32 (pos + matchlen) ≤ thislen →
      hit (buf.drop pos) = hit' ((foldText buf).drop pos)) (pos : ℕ) :
    findLoop hit buf thislen matchlen fuel pos =
      findLoop hit' (foldText buf) thislen matchlen fuel pos := by
  induction fuel generalizing pos with
  | zero => rfl
  | succ fuel ih =>
    rw [findLoop, findLoop]
    split
    · next hle => rw [hhit pos hle, ih]
    · rfl

/-- A search from behind looks at the same places. -/
theorem rfindLoop_fold {hit hit' : List WChar → Option Bool} (n : ℕ)
    (hhit : ∀ pos, hit (buf.drop pos) = hit' ((foldText buf).drop pos)) :
    rfindLoop hit buf n = rfindLoop hit' (foldText buf) n := by
  induction n with
  | zero => rfl
  | succ n ih => rw [rfindLoop, rfindLoop, hhit, ih]

/-- A search for a character folds it, too. -/
theorem findChrLoop_fold (buf : List WChar) (chr : WChar) (n pos : ℕ) :
    findChrLoop tolower buf chr n pos = findChrLoop id (foldText buf) chr n pos := by
  induction n generalizing pos with
  | zero => rfl
  | succ n ih =>
    rw [findChrLoop, findChrLoop, getElem?_foldText]
    cases buf[pos]? with
    | none => rfl
    | some c => simp [ih]

/-- So does one from behind. -/
theorem rfindChrLoop_fold (buf : List WChar) (chr : WChar) (n : ℕ) :
    rfindChrLoop tolower buf chr n = rfindChrLoop id (foldText buf) chr n := by
  induction n with
  | zero => rfl
  | succ n ih =>
    rw [rfindChrLoop, rfindChrLoop, getElem?_foldText]
    cases buf[n]? with
    | none => rfl
    | some c => simp [ih]

/-- A string has less than `2 ^ 16` units. -/
theorem length_lt (s : SklString) : s.length < 2 ^ 16 := by
  have hlt := s.unicodeStr.length_lt
  unfold SklString.length
  split <;> omega

/-- The place of a text up to case is that of the small text in the small string. -/
theorem ifind_fold {s : SklString} (hblock : s.unicodeStr.memory.length < 2 ^ 31)
    (hm : matchlen < 2 ^ 32) (hpos : pos ≤ s.length) :
    SklString.ifind s str matchlen pos =
      SklString.find (foldString s) (foldText str) matchlen pos := by
  have hlen := length_lt s
  have hloop : ∀ matchlen < 2 ^ 32, findLoop (charsHit str matchlen) s.unicodeStr.memory s.length
      matchlen (s.length + 2) pos = findLoop (bytesHit (foldText str) matchlen)
        (foldText s.unicodeStr.memory) s.length matchlen (s.length + 2) pos := by
    intro matchlen hm
    rcases Nat.lt_trichotomy matchlen (2 ^ 31) with hlt | rfl | hgt
    · refine findLoop_fold _ (fun pos _ => ?_) pos
      rw [← foldText_drop, charsHit_eq hlt]
    · -- the first round finds that the text does not fit
      have hu : ¬ u32 (pos + 2 ^ 31) ≤ s.length := by
        rw [u32_of_lt (by omega)]
        omega
      rw [findLoop, if_neg hu, findLoop, if_neg hu]
    · -- only a sum that wraps lets a round look, and then beyond the block
      refine findLoop_fold _ (fun pos hle => ?_) pos
      rw [← foldText_drop]
      refine charsHit_eq_outside hm ?_
      rw [List.length_drop]
      simp only [u32] at hle
      omega
  unfold SklString.ifind SklString.find findBy
  simp only [length_foldString, unicodeStr_foldString, memory_foldUnicode, rawlen_foldText]
  split
  · rfl
  · split
    · cases hraw : rawlen str with
      | none => rfl
      | some k => exact hloop (u32 k) (u32_lt k)
    · exact hloop matchlen hm

/-- `rifind` is `rfind` of what is folded. -/
theorem rifind_fold (s : SklString) (str : List WChar) (matchlen : ℕ) :
    SklString.rifind s str matchlen = SklString.rfind (foldString s) (foldText str) matchlen := by
  have hlen := length_lt s
  have hloop : ∀ matchlen, (if matchlen > s.length then some npos
      else rfindLoop (charsHit str matchlen) s.unicodeStr.memory (s.length - matchlen)) =
        if matchlen > s.length then some npos
        else rfindLoop (bytesHit (foldText str) matchlen) (foldText s.unicodeStr.memory)
          (s.length - matchlen) := by
    intro matchlen
    split
    · rfl
    · refine rfindLoop_fold _ fun pos => ?_
      rw [← foldText_drop, charsHit_eq (by omega)]
  unfold SklString.rifind SklString.rfind rfindBy
  simp only [length_foldString, unicodeStr_foldString, memory_foldUnicode, rawlen_foldText]
  split
  · cases rawlen str with
    | none => rfl
    | some k => exact hloop (u32 k)
  · exact hloop matchlen

end Searches

section Replacing

variable {dst dst' src src' str old ns : List WChar} {osl strLen nsl start k : ℕ}

/-- Two calls that give the same up to a mapping, and then again. -/
theorem bind_congr_map {α β γ δ : Type} {φ : α → β} {ψ : γ → δ} {x y : Option α}
    {f g : α → Option γ} (h : x.map φ = y.map φ)
    (hfg : ∀ a b, φ a = φ b → (f a).map ψ = (g b).map ψ) : (x.bind f).map ψ = (y.bind g).map ψ := by
  cases x with
  | none =>
    cases y with
    | none => rfl
    | some b => cases h
  | some a =>
    cases y with
    | none => cases h
    | some b => exact hfg a b (Option.some.inj h)

/-- Copying and folding can be swapped. -/
theorem copyMemory_fold (dst src : List WChar) (k : ℕ) :
    (copyMemory dst src (2 * k)).map foldText =
      copyMemory (foldText dst) (foldText src) (2 * k) := by
  induction k generalizing dst src with
  | zero => simp [copyMemory]
  | succ k ih =>
    rw [Nat.mul_succ]
    cases dst with
    | nil => simp [copyMemory]
    | cons d dst =>
      cases src with
      | nil => simp [copyMemory]
      | cons s src =>
        rw [copyMemory, foldText_cons, foldText_cons, copyMemory, ← ih, Option.map_map,
          Option.map_map]
        rfl

/-- A copy of whole characters depends up to case on what there is up to case. -/
theorem copyMemoryAt_fold (hd : foldText dst = foldText dst') (hs : foldText src = foldText src')
    (start k : ℕ) : (copyMemoryAt dst start src (2 * k)).map foldText =
      (copyMemoryAt dst' start src' (2 * k)).map foldText := by
  have hfold : ∀ dst src : List WChar, (copyMemoryAt dst start src (2 * k)).map foldText =
      (copyMemory ((foldText dst).drop start) (foldText src) (2 * k)).map
        ((foldText dst).take start ++ ·) := by
    intro dst src
    rw [copyMemoryAt, ← foldText_drop, ← copyMemory_fold, ← foldText_take, Option.map_map,
      Option.map_map]
    congr 1
    funext b
    exact foldText_append ..
  rw [hfold, hfold, hd, hs]

/-- Matches are counted at the same places. -/
theorem countLoop_fold (str old : List WChar) (osl strLen fuel i count : ℕ) :
    countLoop icomparemem str old osl strLen fuel i count =
      countLoop comparemem (foldText str) (foldText old) osl strLen fuel i count := by
  induction fuel generalizing i count with
  | zero => rfl
  | succ fuel ih => simp only [countLoop, comparememBy_fold, foldText_drop, ih]

/-- A cursor over a block with all letters made small. -/
def foldCursor (c : Cursor) : Cursor := { c with buffer := foldText c.buffer }

/-- Cursors that are the same up to case are at the same place. -/
theorem foldCursor_inj {c c' : Cursor} (h : foldCursor c = foldCursor c') :
    c.i = c'.i ∧ c.pre = c'.pre ∧ c.copyLen = c'.copyLen ∧ foldText c.buffer = foldText c'.buffer := by
  cases c
  cases c'
  simpa [foldCursor] using h

/-- The rounds of the copy are those of the folded texts. -/
theorem copyLoop_fold (fuel : ℕ) {c c' : Cursor} (h : foldCursor c = foldCursor c') :
    (copyLoop icomparemem str old ns osl strLen nsl fuel c).map foldCursor =
      (copyLoop comparemem (foldText str) (foldText old) ns osl strLen nsl fuel c').map
        foldCursor := by
  induction fuel generalizing c c' with
  | zero => rfl
  | succ fuel ih =>
    obtain ⟨hi, hpre, hlen, hbuf⟩ := foldCursor_inj h
    have hsrc : foldText (str.drop c'.pre) = foldText ((foldText str).drop c'.pre) := by
      rw [foldText_drop, foldText_drop, foldText_foldText]
    rw [copyLoop, copyLoop, hi, hpre, hlen]
    split
    · rw [comparememBy_fold, foldText_drop]
      cases comparemem ((foldText str).drop c'.i) (foldText old) osl with
      | none => rfl
      | some m =>
        simp only [Option.bind_eq_bind, Option.bind_some]
        split
        · refine bind_congr_map (copyMemoryAt_fold hbuf hsrc _ _) fun b b' hb => ?_
          refine bind_congr_map (copyMemoryAt_fold hb rfl _ _) fun b b' hb => ?_
          exact ih (by simp [foldCursor, hb])
        · exact ih (by simp [foldCursor, hbuf])
    · exact congrArg some h

/-- What is behind the last match is copied as it is folded. -/
theorem copyTail_fold {c c' : Cursor} (h : foldCursor c = foldCursor c') :
    (copyTail str strLen c).map foldCursor =
      (copyTail (foldText str) strLen c').map foldCursor := by
  obtain ⟨hi, hpre, hlen, hbuf⟩ := foldCursor_inj h
  have hsrc : foldText (str.drop c'.pre) = foldText ((foldText str).drop c'.pre) := by
    rw [foldText_drop, foldText_drop, foldText_foldText]
  rw [copyTail, copyTail, hpre, hlen]
  split
  · refine bind_congr_map (copyMemoryAt_fold hbuf hsrc _ _) fun b b' hb => ?_
    simp [foldCursor, hb, hi]
  · exact congrArg some h

/-- A string of a text is up to case that of the small text. -/
theorem ofBuf_fold (pool : Pool) (str : List WChar) (strLen : ℕ) :
    (ofBuf pool str strLen).map foldString = (ofBuf pool (foldText str) strLen).map foldString := by
  have hinit : ∀ strLen, (initializeBuf pool str strLen).map foldString =
      (initializeBuf pool (foldText str) strLen).map foldString := by
    intro strLen
    obtain ⟨k, hk⟩ : ∃ k, u16 (u16 strLen * 2) = 2 * k := by
      refine ⟨u16 (u16 strLen * 2) / 2, ?_⟩
      simp only [u16]
      omega
    have hcopy : ∀ b, (copyMemory b str (u16 (u16 strLen * 2))).map foldText =
        (copyMemory b (foldText str) (u16 (u16 strLen * 2))).map foldText := by
      intro b
      rw [hk, copyMemory_fold, copyMemory_fold, foldText_foldText]
    simp only [initializeBuf, initializeWith]
    split
    · rfl
    · split
      · rfl
      · simp only [Option.bind_eq_bind, Option.bind_some]
        refine bind_congr_map (hcopy _) fun b b' hb => ?_
        simp [foldString, foldUnicode, hb]
  unfold ofBuf
  rw [rawlen_foldText]
  split
  · cases rawlen str with
    | none => rfl
    | some k => exact hinit k
  · exact hinit strLen

/-- Replacing up to case is replacing in the small text, up to case. -/
theorem irepalce_fold (pool : Pool) (str : Option (List WChar)) (strLen : ℕ)
    (old ns : Option (List WChar)) :
    (irepalce pool str strLen old ns).map foldString =
      (repalce pool (str.map foldText) strLen (old.map foldText) ns).map foldString := by
  unfold irepalce repalce repalceBy
  cases str with
  | none => rfl
  | some str =>
    cases old with
    | none => rfl
    | some old =>
      cases ns with
      | none => rfl
      | some ns =>
        simp only [Option.map_some, rawlen_foldText, countLoop_fold]
        cases rawlen old with
        | none => rfl
        | some k =>
          simp only [Option.map_some, Option.bind_eq_bind, Option.bind_some]
          cases countLoop comparemem (foldText str) (foldText old) (u32 k) strLen (strLen + 1) 0 0 with
          | none => rfl
          | some count =>
            simp only [Option.bind_some]
            split
            · cases rawlen ns with
              | none => rfl
              | some nsl =>
                simp only [Option.map_some, Option.bind_some]
                generalize (ofSize pool _).unicodeStr.buffer = buffer
                cases buffer with
                | none => rfl
                | some b =>
                  simp only [Option.bind_some]
                  refine bind_congr_map (copyLoop_fold _ rfl) fun c c' hc => ?_
                  refine bind_congr_map (copyTail_fold hc) fun c c' hc => ?_
                  obtain ⟨-, -, hlen, hbuf⟩ := foldCursor_inj hc
                  simp [foldString, foldUnicode, hlen, hbuf]
            · exact ofBuf_fold pool str strLen

end Replacing

section Hashes

variable {buf str : List WChar} {n m : ℕ}

/-- Texts that are compared as equal have equal characters, and as many. -/
theorem compareBy_eq_zero {fold : WChar → WChar} (hfold : ∀ a b, ¬ fold a < fold b →
    ¬ fold b < fold a → fold a = fold b) (h : compareBy fold buf n str m = some 0) :
    n = m ∧ n ≤ buf.length ∧ n ≤ str.length ∧ (buf.take n).map fold = (str.take n).map fold := by
  induction n generalizing buf str m with
  | zero =>
    cases m with
    | zero => simp
    | succ m => simp [compareBy] at h
  | succ n ih =>
    cases m with
    | zero => simp [compareBy] at h
    | succ m =>
      cases buf with
      | nil => simp [compareBy] at h
      | cons a buf =>
        cases str with
        | nil => simp [compareBy] at h
        | cons b str =>
          rw [compareBy] at h
          split_ifs at h with hab hba
          · cases h
          · cases h
          · obtain ⟨rfl, hbuf, hstr, hmap⟩ := ih h
            simp [hbuf, hstr, hmap, hfold a b hab hba]

/-- A hash inside of a text is that of its characters. -/
theorem hashLoop_eq (lowercase : Bool) (hn : n ≤ buf.length) (hash : UInt64) :
    hashLoop lowercase buf n hash = some (((buf.take n).map fun c =>
      if lowercase then tolower c else c).foldl (fun hash v => hash * 131 + v.toUInt64) hash) := by
  induction n generalizing buf hash with
  | zero => simp [hashLoop]
  | succ n ih =>
    cases buf with
    | nil => simp at hn
    | cons c buf =>
      rw [List.length_cons] at hn
      rw [hashLoop, ih (Nat.le_of_succ_le_succ hn)]
      rfl

/-- Strings that are the same up to case have the same hash of small letters. -/
theorem hash_of_icompare {a b : SklString} (ha : a.unicodeStr.Readable)
    (h : icompareString a b = some 0) :
    ∃ hash, bkdrHashUnicode a.unicodeStr true = some hash ∧
      bkdrHashUnicode b.unicodeStr true = some hash := by
  have hlen : a.length = a.unicodeStr.length / 2 := by
    unfold SklString.length
    split
    · rfl
    · next hnull =>
      unfold UnicodeString.Readable UnicodeString.memory at ha
      rw [Option.not_isSome_iff_eq_none.mp hnull] at ha
      exact (Nat.le_zero.mp ha).symm
  obtain ⟨heq, hmem, hmem', hmap⟩ := compareBy_eq_zero (fun x y hx hy => by
    rw [UInt16.lt_iff_toNat_lt] at hx hy
    exact UInt16.toNat_inj.mp (by omega)) h
  rw [bkdrHashUnicode, bkdrHashUnicode, ← heq, ← hlen, hashLoop_eq true hmem,
    hashLoop_eq true hmem']
  simp only [if_true, hmap]
  exact ⟨_, rfl, rfl⟩

end Hashes

section Tests

/-- A text starts with another one when it does so folded. -/
theorem startwithBy_fold (str : Option (List WChar)) (strLen : ℕ) (start : Option (List WChar))
    (sLen : ℕ) : startwithBy tolower str strLen start sLen =
      startwithBy id (str.map foldText) strLen (start.map foldText) sLen := by
  cases str with
  | none => rfl
  | some str =>
    cases start with
    | none => rfl
    | some start => simp only [startwithBy, Option.map_some, agreeLoop_fold]

/-- It ends with another one when it does so folded. -/
theorem endwithBy_fold (str : Option (List WChar)) (strLen : ℕ) (start : Option (List WChar))
    (startLen : ℕ) : endwithBy tolower str strLen start startLen =
      endwithBy id (str.map foldText) strLen (start.map foldText) startLen := by
  cases str with
  | none => rfl
  | some str =>
    cases start with
    | none => rfl
    | some start => simp only [endwithBy, Option.map_some, agreeLoop_fold, foldText_drop]

/-- So does a string start with one. -/
theorem memberStartwithBy_fold (s : SklString) (start : Option (List WChar)) (strLen : ℕ) :
    memberStartwithBy tolower s start strLen =
      memberStartwithBy id (foldString s) (start.map foldText) strLen := by
  cases start with
  | none => rfl
  | some start => simp [memberStartwithBy, startLoop_fold]

/-- So does it end with one. -/
theorem memberEndwithBy_fold (t : SklString) (s : Option (List WChar)) (strLen : ℕ) :
    memberEndwithBy tolower t s strLen =
      memberEndwithBy id (foldString t) (s.map foldText) strLen := by
  cases s with
  | none => rfl
  | some s => simp [memberEndwithBy, agreeLoop_fold, foldText_drop]

/-- The friends of a test whose two forms agree agree. -/
theorem friends_fold {test test' : StaticTest} (htest : ∀ str strLen start sLen,
    test str strLen start sLen = test' (str.map foldText) strLen (start.map foldText) sLen) :
    (∀ s start, ofStrings test s start = ofStrings test' (foldString s) (foldString start)) ∧
      (∀ s start, ofUnicodeString test s start =
        ofUnicodeString test' (foldUnicode s) (foldString start)) ∧
      ∀ s start, ofWchars test s start = ofWchars test' (foldText s) (foldString start) := by
  refine ⟨fun s start => htest .., fun s start => htest .., fun s start => ?_⟩
  simp only [ofWchars, rawlen_foldText, htest]
  rfl

end Tests

/-- Every operation up to case gives what the plain one gives for the small text. -/
structure UpToCase (pool : Pool) : Prop where
  icompareCounted : ∀ s str strlen,
    icompareCounted s str strlen = compareCounted (foldString s) (foldText str) strlen
  icompareNul : ∀ s str, icompareNul s str = compareNul (foldString s) (foldText str)
  icompareString : ∀ s str, icompareString s str = compareString (foldString s) (foldString str)
  icompareUnicode : ∀ s str,
    icompareUnicode s str = compareUnicode (foldString s) (foldUnicode str)
  istartwith : ∀ str strLen start sLen, istartwith str strLen start sLen =
    startwith (str.map foldText) strLen (start.map foldText) sLen
  istartwithFriends :
    (∀ s start, ofStrings StringSearch.istartwith s start =
      ofStrings startwith (foldString s) (foldString start)) ∧
    (∀ s start, ofUnicodeString StringSearch.istartwith s start =
      ofUnicodeString startwith (foldUnicode s) (foldString start)) ∧
    ∀ s start, ofWchars StringSearch.istartwith s start =
      ofWchars startwith (foldText s) (foldString start)
  memberIstartwith : ∀ s start strLen, SklString.istartwith s start strLen =
    SklString.startwith (foldString s) (start.map foldText) strLen
  memberIstartwithUnicode : ∀ s start, memberOfUnicode SklString.istartwith s start =
    memberOfUnicode SklString.startwith (foldString s) (foldUnicode start)
  iendwith : ∀ str strLen start startLen, iendwith str strLen start startLen =
    endwith (str.map foldText) strLen (start.map foldText) startLen
  iendwithFriends :
    (∀ s start, ofStrings StringSearch.iendwith s start =
      ofStrings endwith (foldString s) (foldString start)) ∧
    (∀ s start, ofUnicodeString StringSearch.iendwith s start =
      ofUnicodeString endwith (foldUnicode s) (foldString start)) ∧
    ∀ s start, ofWchars StringSearch.iendwith s start =
      ofWchars endwith (foldText s) (foldString start)
  memberIendwith : ∀ t s strLen, SklString.iendwith t s strLen =
    SklString.endwith (foldString t) (s.map foldText) strLen
  memberIendwithUnicode : ∀ t s, memberOfUnicode SklString.iendwith t s =
    memberOfUnicode SklString.endwith (foldString t) (foldUnicode s)
  /-- The block of the string has less than `2 ^ 32` bytes. -/
  ifind : ∀ s str matchlen pos, s.unicodeStr.memory.length < 2 ^ 31 → matchlen < 2 ^ 32 →
    pos ≤ s.length → SklString.ifind s str matchlen pos =
      SklString.find (foldString s) (foldText str) matchlen pos
  ifindChr : ∀ s chr pos,
    SklString.ifindChr s chr pos = SklString.findChr (foldString s) (tolower chr) pos
  rifind : ∀ s str matchlen,
    SklString.rifind s str matchlen = SklString.rfind (foldString s) (foldText str) matchlen
  rifindChr : ∀ s chr,
    SklString.rifindChr s chr = SklString.rfindChr (foldString s) (tolower chr)
  irepalce : ∀ str strLen old ns, (irepalce pool str strLen old ns).map foldString =
    (repalce pool (str.map foldText) strLen (old.map foldText) ns).map foldString
  memberIrepalce : ∀ s old ns, (SklString.irepalce pool s old ns).map foldString =
    (SklString.repalce pool (foldString s) (old.map foldText) ns).map foldString
  hash : ∀ a b : SklString, a.unicodeStr.Readable → StringCompare.icompareString a b = some 0 →
    ∃ hash, bkdrHashUnicode a.unicodeStr true = some hash ∧
      bkdrHashUnicode b.unicodeStr true = some hash ∧
      bkdrHash a.unicodeStr.memory (a.unicodeStr.length / 2) true = some hash ∧
      bkdrHash b.unicodeStr.memory (b.unicodeStr.length / 2) true = some hash
  hashes : ∀ (str : UnicodeString) (lowercase : Bool),
    bkdrHashUnicode str lowercase = bkdrHash str.memory (str.length / 2) lowercase

/-- The operations up to case are the plain ones on small text. -/
theorem upToCase (pool : Pool) : UpToCase pool where
  icompareCounted s str strlen := by
    simp [icompareCounted, compareCounted, compareBy_fold]
  icompareNul s str := by
    simp [icompareNul, compareNul, compareNulBy_fold]
  icompareString s str := by
    simp [icompareString, icompareCounted, compareString, compareCounted, compareBy_fold]
  icompareUnicode s str := by
    simp [icompareUnicode, icompareCounted, compareUnicode, compareCounted, compareBy_fold]
  istartwith := startwithBy_fold
  istartwithFriends := friends_fold startwithBy_fold
  memberIstartwith := memberStartwithBy_fold
  memberIstartwithUnicode s start := by
    simp [memberOfUnicode, SklString.istartwith, SklString.startwith, memberStartwithBy_fold]
  iendwith := endwithBy_fold
  iendwithFriends := friends_fold endwithBy_fold
  memberIendwith := memberEndwithBy_fold
  memberIendwithUnicode t s := by
    simp [memberOfUnicode, SklString.iendwith, SklString.endwith, memberEndwithBy_fold]
  ifind _ _ _ _ hblock hm hpos := ifind_fold hblock hm hpos
  ifindChr s chr pos := by
    simp [SklString.ifindChr, SklString.findChr, findChrBy, findChrLoop_fold]
  rifind := rifind_fold
  rifindChr s chr := by
    simp [SklString.rifindChr, SklString.rfindChr, rfindChrBy, rfindChrLoop_fold]
  irepalce := irepalce_fold pool
  memberIrepalce s old ns := by
    have hstatic := irepalce_fold pool s.unicodeStr.buffer (s.unicodeStr.length / 2) old ns
    unfold SklString.irepalce SklString.repalce
    simp only [Option.isNone_map]
    split
    · rfl
    · exact hstatic
  hash _ _ ha h := by
    obtain ⟨hash, hfst, hsnd⟩ := hash_of_icompare ha h
    exact ⟨hash, hfst, hsnd, hfst, hsnd⟩
  hashes _ _ := rfl

end KernelLib.StringFold
