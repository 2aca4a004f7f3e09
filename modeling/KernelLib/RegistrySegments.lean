import KernelLib.RegistryCalls

/-!
# The segments of a normalised key

`normalizedKey` is to leave the segments of a key with single slashes between
them. What it leaves is always in this form, and normalising it again changes
nothing, but of the segments it has only those before the first empty name.
-/

namespace KernelLib.RegistrySegments

open WideMemory SplitPaths RegistryValues RegistryKeys RegistryCalls

/-- Normalising a key keeps all of its segments, and leaves nothing else than them
with single slashes between them. -/
structure KeepsSegments (key : WString) : Prop where
  returns : normalizedKey key = some (joined slash (segments slash key))
  tidy : ∀ n, normalizedKey key = some n → Tidy slash n
  slashes : normalizedKey key = some [] → ∀ c ∈ key, c = slash
  again : ∀ n, normalizedKey key = some n → normalizedKey n = some n

section Kept

variable {key key' n : WString}

/-- What is left is tidy, whatever the key is. -/
theorem tidy_of_normalizedKey (h : normalizedKey key = some n) : Tidy slash n := by
  rw [normalizedKey_eq, Option.some.injEq] at h
  rw [← h]
  exact tidy_joined fun p hp => mem_leading hp

/-- What is left is left again. -/
theorem normalizedKey_idem (h : normalizedKey key = some n) : normalizedKey n = some n := by
  rw [normalizedKey_eq, Option.some.injEq] at h
  rw [normalizedKey_eq, ← h, leading_joined_leading]

/-- The segments are kept exactly if none of them stands behind an empty name. -/
theorem normalizedKey_eq_segments_iff :
    normalizedKey key = some (joined slash (segments slash key)) ↔ NoGap slash key := by
  rw [← leading_eq_segments_iff, normalizedKey_eq, Option.some.injEq]
  constructor
  · intro h
    have hlead := congrArg (leading slash) h
    rwa [leading_joined_leading, leading_joined_segments] at hlead
  · intro h
    rw [h]

theorem keepsSegments_iff (key : WString) : KeepsSegments key ↔ NoGap slash key := by
  constructor
  · intro h
    exact normalizedKey_eq_segments_iff.mp h.returns
  · intro hgap
    have hreturns := normalizedKey_eq_segments_iff.mpr hgap
    refine ⟨hreturns, fun n => tidy_of_normalizedKey, fun hnil => ?_, fun n => normalizedKey_idem⟩
    rw [hreturns, Option.some.injEq, joined_eq_nil_iff fun h => (mem_segments h).1 rfl] at hnil
    exact segments_eq_nil_iff.mp hnil

/-- Of two keys with the same segments, the same is looked up exactly if as many of
them stand before the first empty name. -/
theorem actualKey_eq_iff (h : segments slash key = segments slash key') :
    actualKey key = actualKey key' ↔
      (leading slash key).length = (leading slash key').length := by
  have hkey : ∀ k, actualKey k = some (groupPrefix ++ joined slash (leading slash k)) := by
    intro k
    rw [actualKey, normalizedKey_eq]
    rfl
  rw [hkey, hkey, Option.some.injEq, List.append_cancel_left_eq]
  constructor
  · intro heq
    have hlead := congrArg (leading slash) heq
    rw [leading_joined_leading, leading_joined_leading] at hlead
    rw [hlead]
  · intro hlen
    have hpre : leading slash key <+: leading slash key' :=
      List.prefix_of_prefix_length_le (h ▸ leading_prefix) leading_prefix hlen.le
    rw [hpre.eq_of_length hlen]

end Kept

/-- All segments of a key are kept exactly if none of them stands behind an empty
name, and the key stands for the value of another one with the same segments
exactly if as many of them stand before the first empty name in both. -/
theorem keepsSegments_and_actualKey_iff (key : WString) :
    (KeepsSegments key ↔ NoGap slash key) ∧
      ∀ key', segments slash key = segments slash key' →
        (actualKey key = actualKey key' ↔
          (leading slash key).length = (leading slash key').length) :=
  ⟨keepsSegments_iff key, fun _ => actualKey_eq_iff⟩

/-- Slashes behind the last name do no harm. -/
theorem keepsSegments_trailing : KeepsSegments [0x61, slash, 0x62, slash] ∧
    actualKey [0x61, slash, 0x62, slash] = actualKey [0x61, slash, 0x62] :=
  ⟨(keepsSegments_and_actualKey_iff _).1.mpr (leading_eq_segments_iff.mp (by decide)),
    ((keepsSegments_and_actualKey_iff _).2 _ (by decide)).mpr (by decide)⟩

/-- The key `a//b` loses its `b`, and does not stand for the value of `a/b`. -/
theorem not_keepsSegments_gap : ¬KeepsSegments [0x61, slash, slash, 0x62] ∧
    segments slash [0x61, slash, slash, 0x62] = segments slash [0x61, slash, 0x62] ∧
    actualKey [0x61, slash, slash, 0x62] ≠ actualKey [0x61, slash, 0x62] := by
  refine ⟨fun h => ?_, by decide, by decide⟩
  exact absurd h.returns (by decide)

end KernelLib.RegistrySegments
