import KernelLib.StringKeys

/-!
# The order of strings

All overloads of `compare` put strings in the order of a dictionary of 16-bit
units, which is the order of the keys of sets and maps. The overloads of
`compare` and `icompare` for a NUL-terminated string stop at the NUL; the
others are given a length. `rawlen` counts in 32 bits, so that a string of
2³² characters or more has another length than where its NUL is.
-/

namespace KernelLib.StringOrder

open WideMemory CountedStrings StringCompare StringKeys OrderedEntries Word32

/-- `rawlen`, an `unsigned`. -/
def rawlen32 (str : List WChar) : Option ℕ := (rawlen str).map u32

/-- Words in a dictionary: a proper start of a word comes before it, and else the
first difference decides. -/
inductive Precedes : List WChar → List WChar → Prop where
  /-- The first word ends first. -/
  | shorter (p : List WChar) (d : WChar) (y : List WChar) : Precedes p (p ++ d :: y)
  /-- The words differ after a common start. -/
  | differs (p : List WChar) (c d : WChar) (x y : List WChar) (h : c < d) :
    Precedes (p ++ c :: x) (p ++ d :: y)

variable {a b : Key} {x y : List WChar} {c d : WChar}

/-- Texts that begin alike compare by what follows. -/
theorem Precedes.cons (c : WChar) (h : Precedes x y) : Precedes (c :: x) (c :: y) := by
  cases h with
  | shorter _ d y => exact .shorter (c :: x) d y
  | differs p c' d x y hlt => exact .differs (c :: p) c' d x y hlt

/-- Words with the same first character. -/
theorem precedes_cons_self : Precedes (c :: x) (c :: y) ↔ Precedes x y := by
  refine ⟨fun h => ?_, Precedes.cons c⟩
  generalize hx : c :: x = x' at h
  generalize hy : c :: y = y' at h
  cases h with
  | shorter _ d z =>
    subst hx
    obtain ⟨-, rfl⟩ := List.cons.inj hy
    exact .shorter x d z
  | differs p c' d x' y' hlt =>
    cases p with
    | nil =>
      obtain ⟨rfl, -⟩ := List.cons.inj hx
      obtain ⟨rfl, -⟩ := List.cons.inj hy
      exact absurd hlt (UInt16.lt_irrefl _)
    | cons e p =>
      obtain ⟨-, rfl⟩ := List.cons.inj hx
      obtain ⟨-, rfl⟩ := List.cons.inj hy
      exact .differs p c' d x' y' hlt

/-- Words with different first characters. -/
theorem precedes_cons_ne (hne : c ≠ d) : Precedes (c :: x) (d :: y) ↔ c < d := by
  refine ⟨fun h => ?_, .differs [] c d x y⟩
  generalize hx : c :: x = x' at h
  generalize hy : d :: y = y' at h
  cases h with
  | shorter _ e z =>
    subst hx
    exact absurd (List.cons.inj hy).1.symm hne
  | differs p c' d' x' y' hlt =>
    cases p with
    | nil =>
      obtain ⟨rfl, -⟩ := List.cons.inj hx
      obtain ⟨rfl, -⟩ := List.cons.inj hy
      exact hlt
    | cons e p => exact absurd ((List.cons.inj hx).1.trans (List.cons.inj hy).1.symm) hne

/-- Nothing precedes the empty text. -/
theorem not_precedes_nil : ¬Precedes x [] := by
  intro h
  generalize hy : ([] : List WChar) = y at h
  cases h <;> simp at hy

/-- The order of lists of numbers is that of the dictionary. -/
theorem ranks_lt_iff : ranks id x < ranks id y ↔ Precedes x y := by
  induction x generalizing y with
  | nil =>
    cases y with
    | nil => exact iff_of_false (lt_irrefl _) not_precedes_nil
    | cons d y => exact iff_of_true (by simp [ranks]) (.shorter [] d y)
  | cons c x ih =>
    cases y with
    | nil => exact iff_of_false (by simp [ranks]) not_precedes_nil
    | cons d y =>
      have hranks : ranks id (c :: x) < ranks id (d :: y) ↔
          c.toNat < d.toNat ∨ c.toNat = d.toNat ∧ ranks id x < ranks id y := by
        simp [ranks, List.cons_lt_cons_iff]
      rw [hranks, ih]
      by_cases hcd : c = d
      · subst hcd
        simp [precedes_cons_self]
      · have hne : c.toNat ≠ d.toNat := fun he => hcd (UInt16.toNat_inj.mp he)
        rw [precedes_cons_ne hcd, UInt16.lt_iff_toNat_lt]
        simp [hne]

section Loops

variable {fold : WChar → WChar} {buf chars : List WChar} {m n : ℕ}

/-- The loop for a NUL-terminated string is the loop for the characters before the NUL. -/
theorem compareNulBy_eq (fold : WChar → WChar) (hbuf : m ≤ buf.length) (hz : 0 ∉ chars)
    (rest : List WChar) :
    compareNulBy fold buf m (chars ++ 0 :: rest) =
      compareBy fold buf m (chars ++ 0 :: rest) chars.length := by
  induction chars generalizing buf m with
  | nil => cases m <;> cases buf <;> simp [compareNulBy, compareBy]
  | cons b chars ih =>
    have hb : b ≠ 0 := fun h => hz (h ▸ List.mem_cons_self)
    cases m with
    | zero => simp [compareNulBy, compareBy, hb]
    | succ m =>
      obtain ⟨a, buf, rfl⟩ := List.exists_cons_of_length_pos (Nat.lt_of_lt_of_le m.succ_pos hbuf)
      rw [List.length_cons] at hbuf
      simp only [List.cons_append, compareNulBy, if_neg hb, List.length_cons, compareBy]
      rw [ih (by omega) fun h => hz (List.mem_cons_of_mem b h)]

/-- The length of a text without NULs, in 32 bits. -/
theorem rawlen32_eq (hz : 0 ∉ chars) (rest : List WChar) :
    rawlen32 (chars ++ 0 :: rest) = some (u32 chars.length) := by
  rw [rawlen32, rawlen_append_nul hz, Option.map_some]

end Loops

section Orders

/-- The sign of a comparison of two strings, for every overload of `compare`. -/
structure SharesOrder (a : Key) : Prop where
  string : ∀ b : Key, compareString a.str b.str = some (sign a.ranks b.ranks)
  unicode : ∀ us : UnicodeString, us.Readable →
    compareUnicode a.str us = some (sign a.ranks (ranks id us.wchars))
  counted : ∀ str n, n ≤ str.length →
    compareCounted a.str str n = some (sign a.ranks (ranks id (str.take n)))
  terminated : ∀ chars rest, 0 ∉ chars →
    compareNul a.str (chars ++ 0 :: rest) = some (sign a.ranks (ranks id chars))

/-- A comparison with counted text compares the ranks. -/
theorem counted_eq (a : Key) {str : List WChar} {n : ℕ} (h : n ≤ str.length) :
    compareCounted a.str str n = some (sign a.ranks (ranks id (str.take n))) := by
  rw [compareCounted, a.length_eq, compareBy_spec id a.readable h]
  rfl

/-- All comparisons of a string share one order. -/
theorem sharesOrder (a : Key) : SharesOrder a where
  string := compareString_eq a
  unicode us h := counted_eq a h
  counted str n h := counted_eq a h
  terminated chars rest hz := by
    have hlen : chars.length ≤ (chars ++ 0 :: rest).length := by simp
    rw [compareNul, a.length_eq, compareNulBy_eq id a.readable hz, ← a.length_eq]
    exact (counted_eq a hlen).trans (by rw [List.take_left])

/-- A sign of 0 means equality. -/
theorem sign_eq_zero {x y : List ℕ} : sign x y = 0 ↔ x = y := by
  unfold sign
  rcases lt_trichotomy x y with h | rfl | h
  · simp [h, h.ne]
  · simp
  · simp [h, h.not_gt, h.ne']

/-- Swapping the sides turns the sign. -/
theorem sign_swap (x y : List ℕ) : sign y x = -sign x y := by
  unfold sign
  rcases lt_trichotomy x y with h | rfl | h
  · simp [h, h.not_gt]
  · simp
  · simp [h, h.not_gt]

/-- `operator<` compares the ranks. -/
theorem less_eq (a b : Key) : less a.str b.str = some (decide (a.ranks < b.ranks)) := by
  rw [less, compareString_eq, Option.map_some]
  congr 1
  rw [decide_eq_decide, sign]
  split_ifs with h h' <;> simp [h]

/-- Comparison of strings is a total order on contents that all overloads share. -/
structure TotalOrder : Prop where
  shares : ∀ a : Key, SharesOrder a
  zero_iff : ∀ a b : Key, compareString a.str b.str = some 0 ↔ a.str.wchars = b.str.wchars
  swap : ∀ a b : Key, compareString b.str a.str = (compareString a.str b.str).map (-·)
  less_iff : ∀ a b : Key, less a.str b.str = some true ↔ Precedes a.str.wchars b.str.wchars
  trans : ∀ a b c : Key, less a.str b.str = some true → less b.str c.str = some true →
    less a.str c.str = some true
  total : ∀ a b : Key, a.str.wchars ≠ b.str.wchars →
    less a.str b.str = some true ∨ less b.str a.str = some true
  keys : ∀ pool, StrictWeak (stringKeys pool).lt
  terminated : ∀ (a : Key) chars rest, 0 ∉ chars → chars.length < 2 ^ 32 →
    compareNul a.str (chars ++ 0 :: rest) =
      (rawlen32 (chars ++ 0 :: rest)).bind (compareCounted a.str (chars ++ 0 :: rest))
  iterminated : ∀ (a : Key) chars rest, 0 ∉ chars → chars.length < 2 ^ 32 →
    icompareNul a.str (chars ++ 0 :: rest) =
      (rawlen32 (chars ++ 0 :: rest)).bind (icompareCounted a.str (chars ++ 0 :: rest))

/-- Strings compare equal when they have the same characters. -/
theorem zero_iff (a b : Key) : compareString a.str b.str = some 0 ↔ a.str.wchars = b.str.wchars := by
  rw [compareString_eq, Option.some.injEq, sign_eq_zero]
  exact ⟨ranks_injective, congrArg _⟩

/-- A string is less when its characters precede. -/
theorem less_iff (a b : Key) :
    less a.str b.str = some true ↔ Precedes a.str.wchars b.str.wchars := by
  rw [less_eq, Option.some.injEq, decide_eq_true_iff]
  exact ranks_lt_iff

/-- The order is total. -/
theorem compares_total : TotalOrder where
  shares := sharesOrder
  zero_iff := zero_iff
  swap a b := by
    rw [compareString_eq, compareString_eq, Option.map_some, sign_swap]
  less_iff := less_iff
  trans a b c hab hbc := by
    rw [less_eq, Option.some.injEq, decide_eq_true_iff] at hab hbc ⊢
    exact hab.trans hbc
  total a b hne := by
    have hranks : a.ranks ≠ b.ranks := fun h => hne (ranks_injective h)
    rw [less_eq, less_eq]
    simpa using lt_or_gt_of_ne hranks
  keys := strictWeak
  terminated a chars rest hz hlt := by
    rw [rawlen32_eq hz, u32_of_lt hlt, Option.bind_some, compareNul, a.length_eq,
      compareNulBy_eq id a.readable hz, compareCounted, a.length_eq]
  iterminated a chars rest hz hlt := by
    rw [rawlen32_eq hz, u32_of_lt hlt, Option.bind_some, icompareNul, a.length_eq,
      compareNulBy_eq tolower a.readable hz, icompareCounted, a.length_eq]

/-- A length that wraps to zero makes a string compare as an empty one. -/
theorem compareNul_ne_of_wrapped {n : ℕ} (hn : n ≠ 0) (hwrap : u32 n = 0) :
    compareNul .null (List.replicate n 1 ++ 0 :: []) ≠
      (rawlen32 (List.replicate n 1 ++ 0 :: [])).bind
        (compareCounted .null (List.replicate n 1 ++ 0 :: [])) := by
  have hz : (0 : WChar) ∉ List.replicate n 1 := by simp
  obtain ⟨k, rfl⟩ := Nat.exists_eq_succ_of_ne_zero hn
  rw [rawlen32_eq hz, List.length_replicate, hwrap, Option.bind_some, List.replicate_succ]
  simp [compareNul, compareNulBy, compareCounted, compareBy, SklString.length, SklString.null]

/-- 2³² characters and an empty string. -/
theorem wrapped_length_differs :
    compareNul .null (List.replicate (2 ^ 32) 1 ++ 0 :: []) ≠
      (rawlen32 (List.replicate (2 ^ 32) 1 ++ 0 :: [])).bind
        (compareCounted .null (List.replicate (2 ^ 32) 1 ++ 0 :: [])) :=
  compareNul_ne_of_wrapped (by decide) (by decide)

end Orders

end KernelLib.StringOrder
