import KernelLib.RegistryValues

/-!
# Registry keys

A key has slashes between its names, the registry has backslashes. The loops
of `RegistryPrivate::normalizedKey` go from head to head, an index outside of
the text fails; they leave the names before the first empty one. `keyPath` and
`keyName` cut a path at its last backslash.
-/

namespace KernelLib.RegistryKeys

open WideMemory SplitPaths RegistryValues

/-- `L'/'`. -/
def slash : WChar := 0x2F

/-- `L'\\'`. -/
def backslash : WChar := 0x5C

/-- `L"."`. -/
def dot : WString := [0x2E]

/-- `L"Default"`. -/
def defaultName : WString := [0x44, 0x65, 0x66, 0x61, 0x75, 0x6C, 0x74]

/-- `find_last_of` with one character. -/
def findLastOf (s : WString) (c : WChar) : Option ℕ :=
  (s.reverse.findIdx? (· == c)).map fun i => s.length - 1 - i

/-- `keyPath`. -/
def keyPath (rKey : WString) : WString :=
  match findLastOf rKey backslash with
  | none => []
  | some idx => rKey.take idx

/-- The names that stand for the unnamed value. -/
def valueName (res : WString) : WString := if res = defaultName ∨ res = dot then [] else res

/-- `keyName`. -/
def keyName (rKey : WString) : WString :=
  match findLastOf rKey backslash with
  | none => valueName rKey
  | some idx => valueName (rKey.drop (idx + 1))

/-- One character of `escapedKey`. -/
def escapedChar (c : WChar) : WChar :=
  if c = backslash then slash else if c = slash then backslash else c

/-- `escapedKey`. -/
def escapedKey (uKey : WString) : WString := uKey.map escapedChar

/-- The heads of the three loops of `normalizedKey`. -/
inductive LoopHead where
  /-- `while (i < result.size())`. -/
  | outer
  /-- `while (result.at(i) == L'/')`. -/
  | slashes
  /-- `while (result.at(i) != L'/')`. -/
  | name

/-- From `after_loop` on. -/
def afterLoop (result : WString) (i : ℕ) : WString :=
  if result ≠ [] then result.take (i - 1) else result

/-- From one of the loop heads on, for so many rounds at most. -/
def normalizedLoop : ℕ → LoopHead → WString → ℕ → Option WString
  | 0, _, _, _ => none
  | rounds + 1, .outer, result, i =>
    if i < result.length then normalizedLoop rounds .slashes result i
    else some (afterLoop result i)
  | rounds + 1, .slashes, result, i => do
    let c ← result[i]?
    if c = slash then
      -- `erase(i)` takes away all from there on
      let result := result.take i
      if i = result.length then return afterLoop result i
      normalizedLoop rounds .slashes result i
    else normalizedLoop rounds .name result i
  | rounds + 1, .name, result, i => do
    let c ← result[i]?
    if c ≠ slash then
      let i := i + 1
      if i = result.length then return result
      normalizedLoop rounds .name result i
    else normalizedLoop rounds .outer result (i + 1)

/-- `RegistryPrivate::normalizedKey`. -/
def normalizedKey (key : WString) : Option WString :=
  normalizedLoop (3 * key.length + 2) .outer key 0

section Normalized

variable {names : List WString} {name rest : WString} {rounds : ℕ}

/-- Where the names end, all that is kept are they. -/
theorem afterLoop_terminated (names : List WString) :
    afterLoop (terminated slash names) (terminated slash names).length = joined slash names := by
  by_cases hn : names = []
  · rw [hn]
    rfl
  · have hne : terminated slash names ≠ [] := by
      rw [terminated_eq_joined hn]
      simp
    rw [afterLoop, if_pos hne, terminated_eq_joined hn]
    simp

/-- The loop over a name, and all behind it. -/
theorem normalizedLoop_name (hn : slash ∉ name)
    (houter : ∀ (names : List WString) rest rounds', rounds' < rounds →
      3 * rest.length + 1 < rounds' → normalizedLoop rounds' .outer
        (terminated slash names ++ rest) (terminated slash names).length =
          some (joined slash (names ++ leading slash rest)))
    (hrest : rest ≠ []) (hname : name ≠ [] ∨ rest.head hrest ≠ slash)
    (hr : 3 * rest.length ≤ rounds) :
    normalizedLoop rounds .name (terminated slash names ++ name ++ rest)
        ((terminated slash names).length + name.length) =
      some (joined slash (names ++ leading slash (name ++ rest))) := by
  induction rounds generalizing name rest with
  | zero =>
    rw [Nat.le_zero, Nat.mul_eq_zero, List.length_eq_zero_iff] at hr
    exact absurd (hr.resolve_left (by decide)) hrest
  | succ rounds ih =>
    obtain ⟨c, rest, rfl⟩ := List.exists_cons_of_ne_nil hrest
    have hat : (terminated slash names ++ name ++ c :: rest)[(terminated slash names).length +
        name.length]? = some c := by
      rw [← List.length_append, List.getElem?_append_right (Nat.le_refl _), Nat.sub_self]
      rfl
    rw [List.length_cons] at hr
    rw [normalizedLoop, hat, Option.bind_eq_bind, Option.bind_some]
    by_cases hc : c = slash
    · -- the name ends here
      subst hc
      have hne : name ≠ [] := hname.resolve_right fun h => h rfl
      have hnext := houter (names ++ [name]) rest rounds (Nat.lt_succ_self _) (by omega)
      rw [terminated_append_singleton, List.append_assoc names] at hnext
      rw [if_neg (not_not.mpr rfl), leading_append_cons hne hn]
      simpa [Nat.add_assoc] using hnext
    · have hn' : slash ∉ name ++ [c] := by
        simp [hn, Ne.symm hc]
      rw [if_pos hc]
      by_cases hrest' : rest = []
      · subst hrest'
        rw [leading_of_not_mem (by simp) hn', joined_append_singleton]
        simp [Nat.add_assoc]
      · have hlen := List.length_pos_iff.mpr hrest'
        have hnext := ih hn' (fun names rest rounds' h => houter names rest rounds' (by omega))
          hrest' (.inl (by simp)) (by omega)
        rw [if_neg (by simp; omega)]
        simpa [Nat.add_assoc] using hnext

/-- The loop that is at the start of a name. -/
theorem normalizedLoop_outer (names : List WString) (rest : WString) (rounds : ℕ)
    (hr : 3 * rest.length + 1 < rounds) :
    normalizedLoop rounds .outer (terminated slash names ++ rest)
        (terminated slash names).length =
      some (joined slash (names ++ leading slash rest)) := by
  induction rounds using Nat.strong_induction_on generalizing names rest with
  | _ rounds ih =>
    obtain ⟨rounds, rfl⟩ : ∃ n, rounds = n + 2 := ⟨rounds - 2, by omega⟩
    cases rest with
    | nil =>
      rw [normalizedLoop, List.append_nil, if_neg (Nat.lt_irrefl _), afterLoop_terminated]
      simp
    | cons c rest =>
      have hat : (terminated slash names ++ c :: rest)[(terminated slash names).length]? = some c := by
        rw [List.getElem?_append_right (Nat.le_refl _), Nat.sub_self]
        rfl
      rw [List.length_cons] at hr
      rw [normalizedLoop, if_pos (by simp), normalizedLoop, hat, Option.bind_eq_bind,
        Option.bind_some]
      by_cases hc : c = slash
      · subst hc
        simp only [if_pos, List.take_left, leading_cons_self, List.append_nil]
        rw [afterLoop_terminated]
        rfl
      · have hname : normalizedLoop rounds .name (terminated slash names ++ [] ++ c :: rest)
            ((terminated slash names).length + 0) =
              some (joined slash (names ++ leading slash ([] ++ c :: rest))) :=
          normalizedLoop_name List.not_mem_nil
            (fun names rest rounds' h => ih rounds' (by omega) names rest)
            (List.cons_ne_nil _ _) (.inr hc) (by rw [List.length_cons]; omega)
        rw [if_neg hc]
        simpa using hname

/-- The names before the first empty one are left, with slashes between them. -/
theorem normalizedKey_eq (key : WString) :
    normalizedKey key = some (joined slash (leading slash key)) :=
  normalizedLoop_outer [] key _ (by omega)

end Normalized

section Paths

variable {key : WString} {ps : List WString} {name : WString} {c : WChar}

/-- The place behind the names before the last one. -/
theorem findLastOf_terminated (hn : c ∉ name) :
    findLastOf (terminated c ps ++ name) c =
      if ps = [] then none else some ((terminated c ps).length - 1) := by
  have hnone : name.reverse.findIdx? (· == c) = none := by
    rw [List.findIdx?_eq_none_iff]
    intro x hx
    rw [List.mem_reverse] at hx
    simpa using fun h : x = c => hn (h ▸ hx)
  rw [findLastOf, List.reverse_append, List.findIdx?_append, hnone]
  by_cases hps : ps = []
  · simp [hps]
  · rw [terminated_eq_joined hps, if_neg hps]
    simp [List.findIdx?_cons]

/-- The path of the last name. -/
theorem keyPath_joined (hn : backslash ∉ name) :
    keyPath (joined backslash (ps ++ [name])) = joined backslash ps := by
  rw [keyPath, joined_append_singleton, findLastOf_terminated hn]
  by_cases hps : ps = []
  · rw [if_pos hps, hps]
    rfl
  · simp only [if_neg hps]
    rw [terminated_eq_joined hps]
    simp

/-- The last name, or the unnamed value. -/
theorem keyName_joined (hn : backslash ∉ name) :
    keyName (joined backslash (ps ++ [name])) = valueName name := by
  rw [keyName, joined_append_singleton, findLastOf_terminated hn]
  by_cases hps : ps = []
  · rw [if_pos hps, hps]
    rfl
  · simp only [if_neg hps]
    rw [terminated_eq_joined hps]
    simp

theorem escapedChar_eq_backslash : escapedChar c = backslash ↔ c = slash := by
  unfold escapedChar
  split
  · simp_all [slash, backslash]
  · split <;> simp_all

@[simp] theorem nul_mem_escapedKey : 0 ∈ escapedKey name ↔ 0 ∈ name := by
  have hchar : ∀ c, escapedChar c = 0 ↔ c = 0 := by
    intro c
    unfold escapedChar
    split
    · simp_all [slash, backslash]
    · split <;> simp_all [slash, backslash]
  simp [escapedKey, hchar]

/-- The other separator between names is the same names with it. -/
theorem escapedKey_joined (ps : List WString) :
    escapedKey (joined slash ps) = joined backslash (ps.map escapedKey) :=
  map_joined escapedChar ps

/-- The names of a path in the registry that a key stands for. -/
def addressed (key : WString) : List WString := (segments slash key).map escapedKey

/-- A name with the other separators does not have that of the registry. -/
theorem backslash_not_mem_escapedKey (h : slash ∉ name) : backslash ∉ escapedKey name := by
  intro hmem
  obtain ⟨c, hc, heq⟩ := List.mem_map.mp hmem
  rw [escapedChar_eq_backslash] at heq
  exact h (heq ▸ hc)

end Paths

end KernelLib.RegistryKeys
