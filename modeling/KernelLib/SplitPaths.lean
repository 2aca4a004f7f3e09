import Mathlib.Data.List.Induction
import Mathlib.Data.List.TakeWhile

/-!
# Paths as separated names

A path in text is a list of names with a separator between them. Its segments
are the names that are not empty. Splitting and joining are those of lists;
here is what is needed about the last name and about the names before the
first empty one.
-/

namespace KernelLib.SplitPaths

section Joining

variable {α : Type*} {sep : α} {ps : List (List α)}

/-- Names joined by a separator. -/
abbrev joined (sep : α) (ps : List (List α)) : List α := [sep].intercalate ps

/-- Names with a separator behind each. -/
def terminated (sep : α) (ps : List (List α)) : List α := ps.flatMap (· ++ [sep])

@[simp] theorem terminated_nil : terminated sep [] = [] := rfl

@[simp] theorem terminated_cons (p : List α) (ps : List (List α)) :
    terminated sep (p :: ps) = p ++ sep :: terminated sep ps := by
  simp [terminated]

theorem terminated_append_singleton (ps : List (List α)) (p : List α) :
    terminated sep (ps ++ [p]) = terminated sep ps ++ p ++ [sep] := by
  simp [terminated]

/-- The last name stands behind the others, which are all terminated. -/
theorem joined_append_singleton (ps : List (List α)) (name : List α) :
    joined sep (ps ++ [name]) = terminated sep ps ++ name := by
  induction ps with
  | nil => simp [terminated]
  | cons p ps ih =>
    have hne : ps ++ [name] ≠ [] := by simp
    rw [joined] at ih
    rw [List.cons_append, joined, List.intercalate_cons_of_ne_nil hne, ih]
    simp

/-- Terminated names are joined ones with a last separator. -/
theorem terminated_eq_joined (h : ps ≠ []) : terminated sep ps = joined sep ps ++ [sep] := by
  obtain ⟨ps, name, rfl⟩ := (List.eq_nil_or_concat ps).resolve_left h
  rw [List.concat_eq_append, joined_append_singleton, terminated_append_singleton]

theorem joined_cons_cons (p q : List α) (ps : List (List α)) :
    joined sep (p :: q :: ps) = p ++ sep :: joined sep (q :: ps) := by
  rw [joined, List.intercalate_cons_cons, List.append_assoc]
  rfl

/-- A mapping of the characters takes joined names to joined ones. -/
theorem map_joined {β : Type*} (f : α → β) (ps : List (List α)) :
    (joined sep ps).map f = joined (f sep) (ps.map (·.map f)) := by
  induction ps with
  | nil => rfl
  | cons p ps ih =>
    cases ps with
    | nil => simp
    | cons q ps =>
      rw [joined_cons_cons, List.map_append, List.map_cons, ih]
      exact (joined_cons_cons ..).symm

/-- Names that are not empty are joined to nothing only if there are none. -/
theorem joined_eq_nil_iff (h : [] ∉ ps) : joined sep ps = [] ↔ ps = [] := by
  rcases List.eq_nil_or_concat ps with rfl | ⟨ps, name, rfl⟩
  · simp
  · rw [List.concat_eq_append] at h ⊢
    rw [joined_append_singleton]
    constructor
    · intro hnil
      exact absurd (by simp [(List.append_eq_nil_iff.mp hnil).2]) h
    · intro hnil
      simp at hnil

/-- The other characters of joined names are those of the names. -/
theorem mem_joined {c : α} (hc : c ≠ sep) : c ∈ joined sep ps ↔ ∃ p ∈ ps, c ∈ p := by
  induction ps with
  | nil => simp
  | cons p ps ih =>
    cases ps with
    | nil => simp
    | cons q ps =>
      rw [joined_cons_cons, List.mem_append, List.mem_cons, ih]
      simp [hc]

end Joining

section Splitting

variable {α : Type*} [DecidableEq α] {sep : α} {l : List α}

/-- The names of a path that are not empty. -/
def segments (sep : α) (l : List α) : List (List α) := (l.splitOn sep).filter fun p => !p.isEmpty

/-- The names of a path before the first empty one. -/
def leading (sep : α) (l : List α) : List (List α) := (l.splitOn sep).takeWhile fun p => !p.isEmpty

/-- Names have no separator in them. -/
theorem not_mem_of_mem_splitOn {p : List α} (h : p ∈ l.splitOn sep) : sep ∉ p := by
  induction l generalizing p with
  | nil => simp_all
  | cons c l ih =>
    rw [List.splitOn_cons_eq_if_modifyHead] at h
    by_cases hc : c = sep
    · rw [if_pos (by simpa using hc), List.mem_cons] at h
      rcases h with rfl | h
      · exact List.not_mem_nil
      · exact ih h
    · rw [if_neg (by simpa using hc)] at h
      obtain ⟨q, qs, hq⟩ := List.exists_cons_of_ne_nil (List.splitOn_ne_nil sep l)
      rw [hq, List.modifyHead_cons, List.mem_cons] at h
      rw [hq] at ih
      rcases h with rfl | h
      · rw [List.mem_cons, not_or]
        exact ⟨Ne.symm hc, ih List.mem_cons_self⟩
      · exact ih (List.mem_cons_of_mem _ h)

/-- Joined names that are not empty are the segments. -/
theorem segments_joined {ps : List (List α)} (h : ∀ p ∈ ps, p ≠ [] ∧ sep ∉ p) :
    segments sep (joined sep ps) = ps := by
  cases ps with
  | nil => rfl
  | cons p ps =>
    rw [segments, List.splitOn_intercalate sep (fun q hq => (h q hq).2) (by simp)]
    exact List.filter_eq_self.mpr fun q hq => by simpa using (h q hq).1

/-- A segment is not empty and has no separator in it. -/
theorem mem_segments {p : List α} (h : p ∈ segments sep l) : p ≠ [] ∧ sep ∉ p := by
  obtain ⟨hmem, hne⟩ := List.mem_filter.mp h
  exact ⟨by simpa using hne, not_mem_of_mem_splitOn hmem⟩

/-- The other characters of a path are those of its segments. -/
theorem exists_mem_segments {c : α} (hc : c ≠ sep) : (∃ p ∈ segments sep l, c ∈ p) ↔ c ∈ l := by
  have hjoin : joined sep (l.splitOn sep) = l := List.intercalate_splitOn sep
  have hmem : c ∈ l ↔ ∃ p ∈ l.splitOn sep, c ∈ p := by rw [← mem_joined hc, hjoin]
  rw [hmem]
  constructor
  · rintro ⟨p, hp, hmem⟩
    exact ⟨p, (List.mem_filter.mp hp).1, hmem⟩
  · rintro ⟨p, hp, hmem⟩
    exact ⟨p, List.mem_filter.mpr ⟨hp, by simpa using List.ne_nil_of_mem hmem⟩, hmem⟩

/-- A name before the first empty one is not empty and has no separator in it. -/
theorem mem_leading {p : List α} (h : p ∈ leading sep l) : p ≠ [] ∧ sep ∉ p :=
  ⟨by simpa using List.mem_takeWhile_imp h,
    not_mem_of_mem_splitOn ((List.takeWhile_sublist _).subset h)⟩

@[simp] theorem leading_nil : leading sep [] = [] := by
  rw [leading, List.splitOn_nil]
  rfl

@[simp] theorem leading_cons_self : leading sep (sep :: l) = [] := by
  rw [leading, ← List.nil_append (sep :: l), List.splitOn_append_cons_self_of_not_mem List.not_mem_nil]
  rfl

/-- A name without a separator leads alone. -/
theorem leading_of_not_mem {p : List α} (hne : p ≠ []) (hsep : sep ∉ p) : leading sep p = [p] := by
  rw [leading, List.splitOn_eq_singleton hsep, List.takeWhile_cons_of_pos (by simpa using hne)]
  rfl

/-- A name before a separator leads what is behind it. -/
theorem leading_append_cons {p : List α} (hne : p ≠ []) (hsep : sep ∉ p) :
    leading sep (p ++ sep :: l) = p :: leading sep l := by
  rw [leading, List.splitOn_append_cons_self_of_not_mem hsep,
    List.takeWhile_cons_of_pos (by simpa using hne)]
  rfl

/-- The names before the first empty one of joined names are all of them. -/
theorem leading_joined {ps : List (List α)} (h : ∀ p ∈ ps, p ≠ [] ∧ sep ∉ p) :
    leading sep (joined sep ps) = ps := by
  cases ps with
  | nil => exact leading_nil
  | cons p ps =>
    rw [leading, List.splitOn_intercalate sep (fun q hq => (h q hq).2) (by simp)]
    exact List.takeWhile_eq_self_iff.mpr fun q hq => by simpa using (h q hq).1

@[simp] theorem leading_joined_leading : leading sep (joined sep (leading sep l)) = leading sep l :=
  leading_joined fun _ h => mem_leading h

@[simp] theorem leading_joined_segments :
    leading sep (joined sep (segments sep l)) = segments sep l :=
  leading_joined fun _ h => mem_segments h

/-- A path has no segments when it is made of separators. -/
theorem segments_eq_nil_iff : segments sep l = [] ↔ ∀ c ∈ l, c = sep := by
  constructor
  · intro h c hc
    by_contra hne
    obtain ⟨p, hp, -⟩ := (exists_mem_segments hne).mpr hc
    exact List.not_mem_nil (h ▸ hp)
  · intro h
    by_contra hne
    obtain ⟨p, hp⟩ := List.exists_mem_of_ne_nil _ hne
    obtain ⟨hnil, hsep⟩ := mem_segments hp
    obtain ⟨c, hc⟩ := List.exists_mem_of_ne_nil _ hnil
    have hcs : c ≠ sep := fun he => hsep (he ▸ hc)
    exact hcs (h c ((exists_mem_segments hcs).mp ⟨p, hp, hc⟩))

/-- No separator at the front, none at the end, and no two next to each other. -/
structure Tidy (sep : α) (l : List α) : Prop where
  front : ∀ r, l ≠ sep :: r
  back : ∀ r, l ≠ r ++ [sep]
  inside : ∀ r s, l ≠ r ++ sep :: sep :: s

/-- A path without empty names is tidy. -/
theorem tidy_of_nil_not_mem (h : [] ∉ l.splitOn sep) : Tidy sep l where
  front := by
    rintro r rfl
    rw [← List.nil_append (sep :: r), List.splitOn_append_cons_self] at h
    simp at h
  back := by
    rintro r rfl
    rw [List.splitOn_append_cons_self] at h
    simp at h
  inside := by
    rintro r s rfl
    rw [List.splitOn_append_cons_self, ← List.nil_append (sep :: s),
      List.splitOn_append_cons_self] at h
    simp at h

/-- Joined names that are not empty are tidy. -/
theorem tidy_joined {ps : List (List α)} (h : ∀ p ∈ ps, p ≠ [] ∧ sep ∉ p) :
    Tidy sep (joined sep ps) := by
  cases ps with
  | nil => exact ⟨by simp, by simp, by simp⟩
  | cons p ps =>
    refine tidy_of_nil_not_mem ?_
    rw [List.splitOn_intercalate sep (fun q hq => (h q hq).2) (by simp)]
    exact fun hmem => (h [] hmem).1 rfl

/-- Behind an empty name there are only empty ones. -/
def NoGap (sep : α) (l : List α) : Prop :=
  ∀ ps qs, l.splitOn sep = ps ++ [] :: qs → ∀ q ∈ qs, q = []

/-- The segments are the names before the first empty one and those behind it. -/
theorem segments_eq : segments sep l = leading sep l ++
    ((l.splitOn sep).dropWhile fun p => !p.isEmpty).filter fun p => !p.isEmpty := by
  have hall : (leading sep l).filter (fun p => !p.isEmpty) = leading sep l :=
    List.filter_eq_self.mpr fun p hp => by simpa using (mem_leading hp).1
  have hsplit : leading sep l ++ (l.splitOn sep).dropWhile (fun p => !p.isEmpty) = l.splitOn sep :=
    List.takeWhile_append_dropWhile
  nth_rewrite 1 [segments, ← hsplit]
  rw [List.filter_append, hall]

theorem leading_prefix : leading sep l <+: segments sep l := by
  rw [segments_eq]
  exact List.prefix_append _ _

/-- All segments come before the first empty name exactly when there is no gap. -/
theorem leading_eq_segments_iff : leading sep l = segments sep l ↔ NoGap sep l := by
  have hsplit : leading sep l ++ (l.splitOn sep).dropWhile (fun p => !p.isEmpty) = l.splitOn sep :=
    List.takeWhile_append_dropWhile
  rw [segments_eq, List.self_eq_append_right, List.filter_eq_nil_iff]
  constructor
  · intro h ps qs heq q hq
    -- an empty name is not among the leading ones, so that the gap is behind them
    have hmem : q ∈ (l.splitOn sep).dropWhile fun p => !p.isEmpty := by
      rcases List.append_eq_append_iff.mp (hsplit.trans heq) with ⟨c, rfl, hc⟩ | ⟨c, hlead, hc⟩
      · rw [hc]
        simp [hq]
      · cases c with
        | nil =>
          rw [List.nil_append] at hc
          rw [← hc]
          exact List.mem_cons_of_mem _ hq
        | cons x c =>
          obtain ⟨rfl, -⟩ := List.cons.inj hc
          exact absurd rfl (mem_leading (hlead ▸ by simp : [] ∈ leading sep l)).1
    simpa using h q hmem
  · intro h q hq
    cases hd : (l.splitOn sep).dropWhile fun p => !p.isEmpty with
    | nil =>
      rw [hd] at hq
      exact absurd hq List.not_mem_nil
    | cons x qs =>
      have hx : x = [] := by
        have hhead := List.head_dropWhile_not (fun p : List α => !p.isEmpty)
          (by rw [hd]; exact List.cons_ne_nil x qs)
        simpa [hd] using hhead
      subst hx
      rw [hd] at hq hsplit
      rcases List.mem_cons.mp hq with rfl | hq
      · simp
      · simp [h _ _ hsplit.symm q hq]

end Splitting

end KernelLib.SplitPaths
