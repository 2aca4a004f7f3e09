import Mathlib.Data.List.Basic

/-!
# Replacing occurrences from left to right

A test says whether an occurrence of a fixed length stands at the front of a
list. The scan goes from left to right, goes on behind an occurrence when it
finds one, and replaces it. A scan that does not accept the occurrence that
ends with the list differs from the full one in that occurrence only.
-/

namespace KernelLib.ScanReplace

variable {α : Type*}

/-- The scan, with the number of elements left to skip. -/
def replaceFrom (found : List α → Bool) (k : ℕ) (new : List α) : ℕ → List α → List α
  | _, [] => []
  | n + 1, _ :: l => replaceFrom found k new n l
  | 0, c :: l =>
    if found (c :: l) then new ++ replaceFrom found k new (k - 1) l
    else c :: replaceFrom found k new 0 l

/-- The list with every occurrence that the scan finds replaced. -/
def replaceAll (found : List α → Bool) (k : ℕ) (new l : List α) : List α :=
  replaceFrom found k new 0 l

/-- The positions at which the scan finds an occurrence. -/
def occurrencesFrom (found : List α → Bool) (k : ℕ) : ℕ → List α → List ℕ
  | _, [] => []
  | n + 1, _ :: l => (occurrencesFrom found k n l).map (· + 1)
  | 0, c :: l =>
    if found (c :: l) then 0 :: (occurrencesFrom found k (k - 1) l).map (· + 1)
    else (occurrencesFrom found k 0 l).map (· + 1)

/-- The positions of the occurrences, from the start of the list. -/
def occurrences (found : List α → Bool) (k : ℕ) (l : List α) : List ℕ :=
  occurrencesFrom found k 0 l

variable {found : List α → Bool} {k n : ℕ} {new l : List α} {c : α}

/-- From a position on, the rest of the list is replaced. -/
theorem replaceFrom_eq_drop : replaceFrom found k new n l = replaceAll found k new (l.drop n) := by
  induction l generalizing n with
  | nil => simp [replaceAll, replaceFrom]
  | cons c l ih =>
    cases n with
    | zero => rfl
    | succ n => rw [replaceFrom, ih, List.drop_succ_cons]

/-- From a position on, the occurrences are those of the rest. -/
theorem occurrencesFrom_eq_drop :
    occurrencesFrom found k n l = (occurrences found k (l.drop n)).map (· + n) := by
  induction l generalizing n with
  | nil => simp [occurrences, occurrencesFrom]
  | cons c l ih =>
    cases n with
    | zero => simp [occurrences]
    | succ n =>
      rw [occurrencesFrom, ih, List.drop_succ_cons, List.map_map]
      rfl

/-- Inside of a list something is left to scan. -/
theorem drop_ne_nil (h : n < l.length) : l.drop n ≠ [] := by
  rw [ne_eq, List.drop_eq_nil_iff]
  omega

@[simp] theorem replaceAll_nil : replaceAll found k new [] = [] := rfl

@[simp] theorem occurrences_nil : occurrences found k ([] : List α) = [] := rfl

/-- At an occurrence the scan goes on behind it. -/
theorem replaceAll_found (hk : 0 < k) (hl : l ≠ []) (h : found l) :
    replaceAll found k new l = new ++ replaceAll found k new (l.drop k) := by
  cases l with
  | nil => exact absurd rfl hl
  | cons c l =>
    obtain ⟨j, rfl⟩ := Nat.exists_eq_succ_of_ne_zero (Nat.pos_iff_ne_zero.mp hk)
    rw [replaceAll, replaceFrom, if_pos h, replaceFrom_eq_drop]
    rfl

/-- An occurrence at the head is found, and the next ones are behind it. -/
theorem occurrences_found (hk : 0 < k) (hl : l ≠ []) (h : found l) :
    occurrences found k l = 0 :: (occurrences found k (l.drop k)).map (· + k) := by
  cases l with
  | nil => exact absurd rfl hl
  | cons c l =>
    obtain ⟨j, rfl⟩ := Nat.exists_eq_succ_of_ne_zero (Nat.pos_iff_ne_zero.mp hk)
    rw [occurrences, occurrencesFrom, if_pos h, occurrencesFrom_eq_drop, List.map_map]
    rfl

/-- Elsewhere it keeps an element. -/
theorem replaceAll_cons (h : ¬found (c :: l)) :
    replaceAll found k new (c :: l) = c :: replaceAll found k new l := by
  rw [replaceAll, replaceFrom, if_neg h]
  rfl

/-- Without one at the head they are those of the tail. -/
theorem occurrences_cons (h : ¬found (c :: l)) :
    occurrences found k (c :: l) = (occurrences found k l).map (· + 1) := by
  rw [occurrences, occurrencesFrom, if_neg h]
  rfl

/-- An element without an occurrence is kept. -/
theorem replaceAll_skip (hl : l ≠ []) (h : ¬found l) :
    replaceAll found k new l = l.take 1 ++ replaceAll found k new (l.drop 1) := by
  cases l with
  | nil => exact absurd rfl hl
  | cons c l => exact replaceAll_cons h

/-- It is passed over. -/
theorem occurrences_skip (hl : l ≠ []) (h : ¬found l) :
    occurrences found k l = (occurrences found k (l.drop 1)).map (· + 1) := by
  cases l with
  | nil => exact absurd rfl hl
  | cons c l => exact occurrences_cons h

/-- Without occurrences nothing is replaced. -/
theorem replaceAll_of_occurrences_nil (hk : 0 < k) (h : occurrences found k l = []) :
    replaceAll found k new l = l := by
  induction l with
  | nil => rfl
  | cons c l ih =>
    by_cases hf : found (c :: l)
    · rw [occurrences_found hk (by simp) hf] at h
      cases h
    · rw [occurrences_cons hf, List.map_eq_nil_iff] at h
      rw [replaceAll_cons hf, ih h]

/-- At each of the positions an occurrence stands. -/
theorem found_of_mem_occurrences (hk : 0 < k) (l : List α) {p : ℕ} (hp : p ∈ occurrences found k l) :
    found (l.drop p) := by
  match l with
  | [] => cases hp
  | c :: l =>
    by_cases hf : found (c :: l)
    · rw [occurrences_found hk (by simp) hf] at hp
      rcases List.mem_cons.mp hp with rfl | hp
      · exact hf
      · obtain ⟨q, hq, rfl⟩ := List.mem_map.mp hp
        rw [Nat.add_comm, ← List.drop_drop]
        exact found_of_mem_occurrences hk _ hq
    · rw [occurrences_cons hf] at hp
      obtain ⟨q, hq, rfl⟩ := List.mem_map.mp hp
      exact found_of_mem_occurrences hk l hq
termination_by l.length
decreasing_by all_goals simp <;> omega

section Lengths

/-- A list too short for an occurrence is kept. -/
theorem replaceAll_short {m : ℕ} (hfits : ∀ l, found l → m ≤ l.length) (h : l.length < m) :
    replaceAll found k new l = l := by
  induction l with
  | nil => rfl
  | cons c l ih =>
    have hn : ¬found (c :: l) := fun hf => absurd (hfits _ hf) (by omega)
    rw [List.length_cons] at h
    rw [replaceAll_cons hn, ih (by omega)]

/-- A list that is too short has no occurrences. -/
theorem occurrences_short {m : ℕ} (hfits : ∀ l, found l → m ≤ l.length) (h : l.length < m) :
    occurrences found k l = [] := by
  induction l with
  | nil => rfl
  | cons c l ih =>
    have hn : ¬found (c :: l) := fun hf => absurd (hfits _ hf) (by omega)
    rw [List.length_cons] at h
    rw [occurrences_cons hn, ih (by omega), List.map_nil]

/-- Each occurrence exchanges its length for that of the replacement. -/
theorem length_replaceAll (hk : 0 < k) (hfits : ∀ l, found l → k ≤ l.length) (l : List α) :
    (replaceAll found k new l).length + (occurrences found k l).length * k =
      l.length + (occurrences found k l).length * new.length := by
  match l with
  | [] => simp
  | c :: l =>
    by_cases hf : found (c :: l)
    · have hle := hfits _ hf
      have ih := length_replaceAll hk hfits ((c :: l).drop k)
      rw [replaceAll_found hk (by simp) hf, occurrences_found hk (by simp) hf]
      simp only [List.length_append, List.length_cons, List.length_map, List.length_drop,
        Nat.add_mul, Nat.one_mul] at ih hle ⊢
      omega
    · have ih := length_replaceAll hk hfits l
      rw [replaceAll_cons hf, occurrences_cons hf]
      simp only [List.length_cons, List.length_map] at ih ⊢
      omega
termination_by l.length
decreasing_by all_goals simp <;> omega

/-- An occurrence of the scan ends with the list. -/
def EndsFound (found : List α → Bool) (k : ℕ) (l : List α) : Prop :=
  ∃ p ∈ occurrences found k l, p + k = l.length

/-- The test that only accepts an occurrence with something behind it. -/
def before (found : List α → Bool) (k : ℕ) (l : List α) : Bool := found l && decide (k < l.length)

/-- An occurrence at the head is the end of the list, or the rest ends with one. -/
theorem endsFound_found (hk : 0 < k) (hfits : ∀ l, found l → k ≤ l.length) (hl : l ≠ [])
    (h : found l) :
    EndsFound found k l ↔ l.length = k ∨ EndsFound found k (l.drop k) := by
  have hle := hfits _ h
  unfold EndsFound
  rw [occurrences_found hk hl h, List.exists_mem_cons_iff, List.length_drop]
  refine or_congr (by omega) ?_
  constructor
  · rintro ⟨p, hp, he⟩
    obtain ⟨q, hq, rfl⟩ := List.mem_map.mp hp
    exact ⟨q, hq, by omega⟩
  · rintro ⟨q, hq, he⟩
    exact ⟨q + k, List.mem_map_of_mem hq, by omega⟩

/-- An element without an occurrence does not decide what the list ends with. -/
theorem endsFound_cons (h : ¬found (c :: l)) :
    EndsFound found k (c :: l) ↔ EndsFound found k l := by
  unfold EndsFound
  rw [occurrences_cons h, List.length_cons]
  constructor
  · rintro ⟨p, hp, he⟩
    obtain ⟨q, hq, rfl⟩ := List.mem_map.mp hp
    exact ⟨q, hq, by omega⟩
  · rintro ⟨q, hq, he⟩
    exact ⟨q + 1, List.mem_map_of_mem hq, by omega⟩

/-- At an occurrence with something behind it, both scans go on. -/
theorem before_iff : before found k l ↔ found l ∧ k < l.length := by
  simp [before]

/-- Without something behind it, nothing is accepted. -/
theorem before_fits (l : List α) (h : before found k l) : k + 1 ≤ l.length := (before_iff.mp h).2

/-- The scan that leaves out the occurrence at the end finds all others, and the
two results differ in the end of the list against the replacement. -/
theorem replaceAll_before (hk : 0 < k) (hfits : ∀ l, found l → k ≤ l.length) (l : List α) :
    (EndsFound found k l → ∃ u, replaceAll found k new l = u ++ new ∧
      replaceAll (before found k) k new l = u ++ l.drop (l.length - k) ∧ k ≤ l.length) ∧
    (¬EndsFound found k l → replaceAll (before found k) k new l = replaceAll found k new l) := by
  match l with
  | [] => simp [EndsFound]
  | c :: l =>
    by_cases hf : found (c :: l)
    · have hle := hfits _ hf
      have ih := replaceAll_before hk hfits ((c :: l).drop k)
      rw [endsFound_found hk hfits (by simp) hf, replaceAll_found hk (by simp) hf]
      by_cases hlen : k < (c :: l).length
      · have hb : before found k (c :: l) := before_iff.mpr ⟨hf, hlen⟩
        rw [replaceAll_found hk (by simp) hb]
        constructor
        · intro he
          obtain ⟨u, hu, hu', hku⟩ := ih.1 (he.resolve_left (by omega))
          rw [List.length_drop] at hku hu'
          refine ⟨new ++ u, by rw [hu, List.append_assoc], ?_, hle⟩
          rw [hu', List.drop_drop, List.append_assoc]
          congr 3
          omega
        · intro hn
          rw [not_or] at hn
          rw [ih.2 hn.2]
      · have heq : (c :: l).length = k := by omega
        constructor
        · intro _
          refine ⟨[], ?_, ?_, hle⟩
          · rw [← heq, List.drop_length, replaceAll_nil, List.append_nil, List.nil_append]
          · rw [replaceAll_short before_fits (by omega), heq, Nat.sub_self]
            rfl
        · intro hn
          exact absurd (.inl heq) hn
    · have hb : ¬before found k (c :: l) := fun h => hf (before_iff.mp h).1
      have ih := replaceAll_before hk hfits l
      rw [endsFound_cons hf, replaceAll_cons hf, replaceAll_cons hb]
      constructor
      · intro he
        obtain ⟨u, hu, hu', hku⟩ := ih.1 he
        refine ⟨c :: u, by rw [hu]; rfl, ?_, Nat.le_trans hku (Nat.le_succ _)⟩
        rw [hu', List.length_cons, Nat.succ_sub hku, List.drop_succ_cons]
        rfl
      · intro hn
        rw [ih.2 hn]
termination_by l.length
decreasing_by all_goals simp <;> omega

end Lengths

end KernelLib.ScanReplace
