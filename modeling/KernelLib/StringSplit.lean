import KernelLib.StringRfinds

/-!
# Splitting a string at its last separator

`rfind` of a character and two calls of `substr` take a string apart. Nothing is
lost: what stands in front, the character and what stands behind it are the
string again, and the part behind has no further separator.
-/

namespace KernelLib.StringSplit

open WideMemory CountedStrings StringReplace StringSearch StringParts StringFinds StringRfinds

variable {pool : Pool} {s : SklString} {ws : List WChar} {c : WChar} {p : ℕ}

/-- A string is split at a separator, and parts are exact. -/
structure Splits (pool : Pool) (s : SklString) (c : WChar) : Prop where
  /-- The two parts around the last separator, if there is one. -/
  around : ∃ p, SklString.rfindChr s c = some p ∧ (p = npos → c ∉ s.wchars) ∧
    (p ≠ npos → ∃ front back, substr pool s 0 p = some front ∧
      substr pool s (p + 1) npos = some back ∧
      s.wchars = front.wchars ++ c :: back.wchars ∧ c ∉ back.wchars)
  /-- The part from a position on, of so many characters at most. -/
  parts : ∀ pos count, pos < 2 ^ 32 → count < 2 ^ 32 →
    ((s.wchars.drop pos).take count).length < 32767 →
    ∃ part, substr pool s pos count = some part ∧ part.wchars = (s.wchars.drop pos).take count ∧
      (s.length ≤ pos → part.wchars = [])

/-- A character that occurs is read somewhere. -/
theorem occursAt_of_mem (hc : c ∈ ws) : ∃ p, OccursAt id ws [c] p := by
  obtain ⟨p, hp⟩ := List.mem_iff_getElem?.mp hc
  exact ⟨p, occursAt_singleton.mpr ⟨c, hp, rfl⟩⟩

/-- A list is taken apart at the last place of an element. -/
theorem split_at_last (hlast : IsGreatest {p | 0 ≤ p ∧ OccursAt id ws [c] p} p) :
    ws = ws.take p ++ c :: ws.drop (p + 1) ∧ c ∉ ws.drop (p + 1) := by
  obtain ⟨d, hd, hdc⟩ := occursAt_singleton.mp hlast.1.2
  obtain rfl : d = c := hdc
  obtain ⟨hlt, hget⟩ := List.getElem?_eq_some_iff.mp hd
  constructor
  · rw [← hget, ← List.drop_eq_getElem_cons hlt, List.take_append_drop]
  · intro hmem
    obtain ⟨q, hq⟩ := List.mem_iff_getElem?.mp hmem
    rw [List.getElem?_drop] at hq
    have hle : p + 1 + q ≤ p :=
      hlast.2 ⟨Nat.zero_le _, occursAt_singleton.mpr ⟨d, hq, rfl⟩⟩
    omega

/-- Splitting a string at its last separator loses nothing. -/
theorem splits (hpool : ∀ n, (pool.new n).isSome) (hr : s.unicodeStr.Readable) (c : WChar) :
    Splits pool s c := by
  have hlen := length_wchars hr
  have hle := length_le s
  constructor
  · obtain ⟨p, hp, hlast⟩ := rfindChr_spec .plain c hr
    refine ⟨p, hp, fun hnone hmem => ?_, fun hne => ?_⟩
    · obtain ⟨q, hq⟩ := occursAt_of_mem hmem
      have hfits := (hlast.isGreatest (Nat.zero_le q) hq).1.2.1
      unfold npos at hnone
      omega
    · have hocc := hlast.occursAt hne
      have hgreatest := hlast.isGreatest hocc.1 hocc.2
      have hlt : p + 1 ≤ s.wchars.length := hocc.2.1
      obtain ⟨hsplit, hnot⟩ := split_at_last hgreatest
      obtain ⟨front, hfront, hfw⟩ := substr_spec 0 p hpool hr (by
        rw [List.length_take, List.length_drop]
        omega)
      obtain ⟨back, hback, hbw⟩ := substr_spec (p + 1) npos hpool hr (by
        rw [List.length_take, List.length_drop]
        omega)
      have hall : (s.wchars.drop (p + 1)).take npos = s.wchars.drop (p + 1) := by
        refine List.take_of_length_le ?_
        rw [List.length_drop]
        unfold npos
        omega
      rw [List.drop_zero] at hfw
      rw [hall] at hbw
      exact ⟨front, back, hfront, hback, by rw [hfw, hbw]; exact hsplit, by rwa [hbw]⟩
  · intro pos count _ _ hlt
    obtain ⟨part, hpart, hw⟩ := substr_spec pos count hpool hr hlt
    refine ⟨part, hpart, hw, fun hpos => ?_⟩
    rw [hw, List.drop_eq_nil_of_le (by omega), List.take_nil]

theorem splits_cab : Splits .zeroed cab 97 := splits (fun _ => rfl) readable_cab 97

end KernelLib.StringSplit
