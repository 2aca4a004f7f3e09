import KernelLib.StringParts
import KernelLib.StringSearch
import Mathlib.Data.List.TakeWhile

/-!
# Texts at the start and at the end of a string

The members take a text as a `UNICODE_STRING`, the free functions as a string.
The members for the start stop at a zero unit, as their loop says, and the free
functions answer nothing about a null pointer. Apart from that each of the tests
tells whether the text stands at the start, or at the end, of the string.
-/

namespace KernelLib.StringEnds

open WideMemory CountedStrings StringCompare StringReplace StringSearch StringParts

/-- The member `startwith` or `istartwith` for a `UNICODE_STRING`. -/
def memberStart : Matching → SklString → UnicodeString → Option Bool
  | .plain => memberOfUnicode SklString.startwith
  | .caseless => memberOfUnicode SklString.istartwith

/-- The member `endwith` or `iendwith` for a `UNICODE_STRING`. -/
def memberEnd : Matching → SklString → UnicodeString → Option Bool
  | .plain => memberOfUnicode SklString.endwith
  | .caseless => memberOfUnicode SklString.iendwith

/-- The free `startwith` or `istartwith` for two strings. -/
def freeStart : Matching → SklString → SklString → Option Bool
  | .plain => ofStrings startwith
  | .caseless => ofStrings istartwith

/-- The free `endwith` or `iendwith` for two strings. -/
def freeEnd : Matching → SklString → SklString → Option Bool
  | .plain => ofStrings endwith
  | .caseless => ofStrings iendwith

/-- A `UNICODE_STRING` with these characters, over a buffer. -/
structure Describes (us : UnicodeString) (chars : List WChar) : Prop where
  length : us.length = 2 * chars.length
  buffer : ∃ rest, us.buffer = some (chars ++ rest)

/-- A text stands at the start of the string. -/
abbrev Starts (fold : WChar → WChar) (ws chars : List WChar) : Prop :=
  chars.map fold <+: ws.map fold

/-- A text stands at the end of the string. -/
abbrev Ends (fold : WChar → WChar) (ws chars : List WChar) : Prop :=
  chars.map fold <:+ ws.map fold

/-- A text up to its first zero unit. -/
def beforeNul (chars : List WChar) : List WChar := chars.takeWhile (· ≠ 0)

/-- All tests give the answer, whichever way the text is passed. -/
structure AllAgree (m : Matching) (s : SklString) (us : UnicodeString) (p : SklString)
    (chars : List WChar) : Prop where
  start : memberStart m s us = some (decide (Starts m.fold s.wchars chars)) ∧
    freeStart m s p = some (decide (Starts m.fold s.wchars chars))
  ends : memberEnd m s us = some (decide (Ends m.fold s.wchars chars)) ∧
    freeEnd m s p = some (decide (Ends m.fold s.wchars chars))

/-- What the tests answer. -/
structure Answers (m : Matching) (s : SklString) (us : UnicodeString) (p : SklString)
    (chars : List WChar) : Prop where
  /-- The members for the start look at the text up to a zero unit. -/
  memberStart : memberStart m s us = some (decide (chars.length ≤ s.wchars.length ∧
    Starts m.fold s.wchars (beforeNul chars)))
  memberEnd : memberEnd m s us = some (decide (Ends m.fold s.wchars chars))
  freeStart : s.isValid ∨ chars ≠ [] →
    freeStart m s p = some (decide (Starts m.fold s.wchars chars))
  freeEnd : s.isValid ∨ chars ≠ [] → freeEnd m s p = some (decide (Ends m.fold s.wchars chars))
  /-- Without a zero unit all agree. -/
  agree : 0 ∉ chars → s.isValid ∨ chars ≠ [] → AllAgree m s us p chars

section Loops

variable {fold : WChar → WChar} {a b ws chars rest behind : List WChar} {n : ℕ}

@[simp] theorem starts_nil : Starts fold ws [] := List.nil_prefix

/-- The loop tells whether so many characters agree. -/
theorem agreeLoop_spec (fold : WChar → WChar) (ha : n ≤ a.length) (hb : n ≤ b.length) :
    agreeLoop fold a b n = some (decide ((a.take n).map fold = (b.take n).map fold)) := by
  induction n generalizing a b with
  | zero => simp [agreeLoop]
  | succ n ih =>
    obtain ⟨x, a, rfl⟩ := List.exists_cons_of_length_pos (Nat.lt_of_lt_of_le n.succ_pos ha)
    obtain ⟨y, b, rfl⟩ := List.exists_cons_of_length_pos (Nat.lt_of_lt_of_le n.succ_pos hb)
    rw [List.length_cons] at ha hb
    rw [agreeLoop, ih (by omega) (by omega)]
    by_cases hxy : fold x = fold y <;> simp [hxy]

/-- The loop of the members goes up to a zero unit. -/
theorem startLoop_spec (fold : WChar → WChar) (rest behind : List WChar)
    (hle : chars.length ≤ ws.length) :
    startLoop fold (ws ++ rest) ws.length (chars ++ behind) chars.length =
      some (decide (Starts fold ws (beforeNul chars))) := by
  induction chars generalizing ws with
  | nil => simp [startLoop, beforeNul]
  | cons c chars ih =>
    obtain ⟨a, ws, rfl⟩ := List.exists_cons_of_length_pos
      (Nat.lt_of_lt_of_le (Nat.succ_pos _) hle)
    have hrest := ih (Nat.le_of_succ_le_succ hle)
    by_cases hc : c = 0
    · simp [startLoop, beforeNul, hc]
    · by_cases hac : fold a = fold c
      · simpa [startLoop, beforeNul, Starts, hc, hac] using hrest
      · have hca : fold c ≠ fold a := Ne.symm hac
        simp [startLoop, beforeNul, Starts, hc, hac, hca]

theorem starts_iff :
    Starts fold ws chars ↔ (ws.take chars.length).map fold = chars.map fold := by
  rw [Starts, List.prefix_iff_eq_take, List.length_map, List.map_take, eq_comm]

theorem ends_iff :
    Ends fold ws chars ↔ (ws.drop (ws.length - chars.length)).map fold = chars.map fold := by
  rw [Ends, List.suffix_iff_eq_drop, List.length_map, List.length_map, List.map_drop, eq_comm]

/-- A text that stands in the string is not longer. -/
theorem starts_length_le (h : Starts fold ws chars) : chars.length ≤ ws.length := by
  simpa using h.length_le

theorem ends_length_le (h : Ends fold ws chars) : chars.length ≤ ws.length := by
  simpa using h.length_le

/-- So many characters at the start of the string agree if the text stands there. -/
theorem agreeLoop_start (fold : WChar → WChar) (rest behind : List WChar)
    (hle : chars.length ≤ ws.length) :
    agreeLoop fold (ws ++ rest) (chars ++ behind) chars.length =
      some (decide (Starts fold ws chars)) := by
  rw [agreeLoop_spec fold (by rw [List.length_append]; omega) (by rw [List.length_append]; omega),
    List.take_append_of_le_length hle, List.take_left]
  exact congrArg some (decide_eq_decide.mpr starts_iff.symm)

/-- So many characters at the end of the string agree if the text stands there. -/
theorem agreeLoop_end (fold : WChar → WChar) (rest behind : List WChar)
    (hle : chars.length ≤ ws.length) :
    agreeLoop fold ((ws ++ rest).drop (ws.length - chars.length)) (chars ++ behind) chars.length =
      some (decide (Ends fold ws chars)) := by
  have hlen : (ws.drop (ws.length - chars.length)).length = chars.length := by
    rw [List.length_drop]
    omega
  rw [List.drop_append_of_le_length (by omega),
    agreeLoop_spec fold (by rw [List.length_append]; omega) (by rw [List.length_append]; omega),
    List.take_append_of_le_length hlen.ge, List.take_of_length_le hlen.le, List.take_left]
  exact congrArg some (decide_eq_decide.mpr ends_iff.symm)

theorem beforeNul_of_not_mem (hz : 0 ∉ chars) : beforeNul chars = chars :=
  List.takeWhile_eq_self_iff.mpr fun c hc => by
    simpa using fun h0 : c = 0 => hz (h0 ▸ hc)

end Loops

section Tests

variable {m : Matching} {s p : SklString} {us : UnicodeString} {chars : List WChar}

theorem Describes.length_le (h : Describes us chars) : chars.length ≤ 32767 := by
  have hlt := us.length_lt
  have hlen := h.length
  omega

/-- A null string has no characters. -/
theorem length_lt_of_null (hr : s.unicodeStr.Readable) (hb : s.unicodeStr.buffer = none)
    (hor : s.isValid ∨ chars ≠ []) : s.wchars.length < chars.length := by
  have hnull : s.length = 0 := by simp [SklString.length, hb]
  have hne : chars ≠ [] := hor.resolve_left (by simp [SklString.isValid, hb])
  rw [length_wchars hr, hnull]
  exact List.length_pos_iff.mpr hne

section Passing

variable {P : Prop} [Decidable P]

/-- A member passes a text on that is not longer than the string. -/
theorem memberOfUnicode_spec {test : SklString → Option (List WChar) → ℕ → Option Bool}
    (hr : s.unicodeStr.Readable) (h : Describes us chars)
    (hfits : P → chars.length ≤ s.wchars.length)
    (htest : ∀ rest behind, s.unicodeStr.memory = s.wchars ++ rest →
      s.unicodeStr.length / 2 = s.wchars.length → chars.length ≤ s.wchars.length →
      test s (some (chars ++ behind)) chars.length = some (decide P)) :
    memberOfUnicode test s us = some (decide P) := by
  obtain ⟨behind, hbuf⟩ := h.buffer
  obtain ⟨rest, hrest⟩ := exists_rest s
  have hlen := length_wchars hr
  have hhalf : 2 * chars.length / 2 = chars.length := by omega
  rw [length_of_readable hr] at hlen
  rw [memberOfUnicode, h.length, hbuf, hhalf]
  split
  · rw [decide_eq_false fun hP => by have := hfits hP; omega]
  · exact htest rest behind hrest hlen.symm (by omega)

/-- A free function passes on the characters of a string that has a buffer. -/
theorem ofStrings_spec {test : StaticTest} (hr : s.unicodeStr.Readable)
    (h : Describes p.unicodeStr chars) (hor : s.isValid ∨ chars ≠ [])
    (hfits : P → chars.length ≤ s.wchars.length)
    (hnull : ∀ n str k, test none n str k = some false)
    (htest : ∀ rest behind, test (some (s.wchars ++ rest)) s.wchars.length
      (some (chars ++ behind)) chars.length = some (decide P)) :
    ofStrings test s p = some (decide P) := by
  obtain ⟨behind, hbuf⟩ := h.buffer
  obtain ⟨rest, hrest⟩ := exists_rest s
  have hlen := length_wchars hr
  have hhalf : 2 * chars.length / 2 = chars.length := by omega
  rw [length_of_readable hr] at hlen
  rw [ofStrings, h.length, hbuf, hhalf, ← hlen]
  cases hb : s.unicodeStr.buffer with
  | none =>
    have hlt := length_lt_of_null hr hb hor
    rw [hnull, decide_eq_false fun hP => by have := hfits hP; omega]
  | some b =>
    rw [UnicodeString.memory, hb, Option.getD_some] at hrest
    rw [hrest]
    exact htest rest behind

end Passing

/-- The members for the start. -/
theorem memberStart_spec (m : Matching) (hr : s.unicodeStr.Readable) (h : Describes us chars) :
    memberStart m s us = some (decide (chars.length ≤ s.wchars.length ∧
      Starts m.fold s.wchars (beforeNul chars))) := by
  have hby : memberStart m s us = memberOfUnicode (memberStartwithBy m.fold) s us := by
    cases m <;> rfl
  rw [hby]
  refine memberOfUnicode_spec hr h And.left fun rest behind hrest hhalf hle => ?_
  simp only [memberStartwithBy, hrest, hhalf, startLoop_spec m.fold _ _ hle, hle, true_and]

/-- The members for the end. -/
theorem memberEnd_spec (m : Matching) (hr : s.unicodeStr.Readable) (h : Describes us chars) :
    memberEnd m s us = some (decide (Ends m.fold s.wchars chars)) := by
  have hby : memberEnd m s us = memberOfUnicode (memberEndwithBy m.fold) s us := by
    cases m <;> rfl
  rw [hby]
  refine memberOfUnicode_spec hr h ends_length_le fun rest behind hrest hhalf hle => ?_
  have hne : chars.length ≠ npos := by
    have := h.length_le
    unfold npos
    omega
  simp only [memberEndwithBy, hrest, hhalf, if_neg hne, Option.bind_eq_bind, Option.bind_some,
    if_neg (Nat.not_lt_of_le hle)]
  exact agreeLoop_end m.fold rest behind hle

/-- The free functions for the start, of a string with a buffer or a text with characters. -/
theorem freeStart_spec (m : Matching) (hr : s.unicodeStr.Readable)
    (h : Describes p.unicodeStr chars) (hor : s.isValid ∨ chars ≠ []) :
    freeStart m s p = some (decide (Starts m.fold s.wchars chars)) := by
  have hby : freeStart m s p = ofStrings (startwithBy m.fold) s p := by
    cases m <;> rfl
  rw [hby]
  refine ofStrings_spec hr h hor starts_length_le (fun _ _ _ => rfl) fun rest behind => ?_
  rw [startwithBy]
  split
  · next hgt => rw [decide_eq_false fun hs => Nat.not_le_of_lt hgt (starts_length_le hs)]
  · next hle => exact agreeLoop_start m.fold rest behind (Nat.le_of_not_lt hle)

/-- The free functions for the end, likewise. -/
theorem freeEnd_spec (m : Matching) (hr : s.unicodeStr.Readable)
    (h : Describes p.unicodeStr chars) (hor : s.isValid ∨ chars ≠ []) :
    freeEnd m s p = some (decide (Ends m.fold s.wchars chars)) := by
  have hby : freeEnd m s p = ofStrings (endwithBy m.fold) s p := by
    cases m <;> rfl
  rw [hby]
  refine ofStrings_spec hr h hor ends_length_le (fun _ _ _ => rfl) fun rest behind => ?_
  rw [endwithBy]
  split
  · next hgt => rw [decide_eq_false fun hs => Nat.not_le_of_lt hgt (ends_length_le hs)]
  · next hle => exact agreeLoop_end m.fold rest behind (Nat.le_of_not_lt hle)

/-- The tests for every string and every text, also with zero units in it. -/
theorem answers (m : Matching) (hr : s.unicodeStr.Readable) (hus : Describes us chars)
    (hp : Describes p.unicodeStr chars) : Answers m s us p chars := by
  have hstart := memberStart_spec m hr hus
  have hend := memberEnd_spec m hr hus
  refine ⟨hstart, hend, freeStart_spec m hr hp, freeEnd_spec m hr hp, fun hz hor => ?_⟩
  refine ⟨⟨?_, freeStart_spec m hr hp hor⟩, hend, freeEnd_spec m hr hp hor⟩
  rw [hstart, beforeNul_of_not_mem hz, Option.some_inj, decide_eq_decide]
  refine ⟨And.right, fun h => ⟨?_, h⟩⟩
  simpa using h.length_le

/-- A text, as a string is constructed with it. -/
def constructed (chars : List WChar) : UnicodeString :=
  ((ofBuf .zeroed chars chars.length).getD .null).unicodeStr

/-- `ab`. -/
def abText : UnicodeString := constructed [97, 98]

/-- `a` and a zero unit. -/
def zeroText : UnicodeString := constructed [97, 0]

/-- No characters, but a buffer. -/
def emptyText : UnicodeString := constructed []

theorem answers_zeroText : Answers .plain ⟨abText⟩ zeroText ⟨zeroText⟩ [97, 0] :=
  answers .plain (by unfold UnicodeString.Readable; decide) ⟨rfl, [0], rfl⟩ ⟨rfl, [0], rfl⟩

/-- The member stops at the zero unit, and the free function at a null pointer. -/
theorem not_allAgree :
    (Describes zeroText [97, 0] ∧ ¬AllAgree .plain ⟨abText⟩ zeroText ⟨zeroText⟩ [97, 0]) ∧
      Describes emptyText [] ∧ ¬AllAgree .plain .null emptyText ⟨emptyText⟩ [] := by
  refine ⟨⟨⟨rfl, [0], rfl⟩, fun h => ?_⟩, ⟨rfl, [0], rfl⟩, fun h => ?_⟩
  · exact absurd (h.start.1.trans h.start.2.symm) (by decide)
  · exact absurd (h.start.1.trans h.start.2.symm) (by decide)

end Tests

end KernelLib.StringEnds
