import KernelLib.StringFinds

/-!
# The last occurrence of a text

The backward searches for a text look at every position but the first of the
string, those for a character at that one, too. So the two kinds agree, and
`rfind` agrees with `find`, unless a text occurs at the start of the string and
nowhere else.
-/

namespace KernelLib.StringRfinds

open WideMemory Word32 CountedStrings StringCompare StringReplace StringSearch StringParts
open StringFinds

variable {m : Matching} {s : SklString} {needle : Needle} {fold : WChar → WChar}
  {ws chars buf rest : List WChar} {c : WChar} {n low pos r r' : ℕ}
  {test : List WChar → Option Bool}

/-- `rfind` or `rifind` of a text. -/
def rfind (m : Matching) (s : SklString) (needle : Needle) : Option ℕ :=
  match m with
  | .plain => SklString.rfind s needle.memory needle.matchlen
  | .caseless => SklString.rifind s needle.memory needle.matchlen

/-- `rfind` or `rifind` of a character. -/
def rfindChr : Matching → SklString → WChar → Option ℕ
  | .plain => SklString.rfindChr
  | .caseless => SklString.rifindChr

/-- The last occurrence from a position on, or `npos` without one. -/
def LastFrom (fold : WChar → WChar) (ws chars : List WChar) (low r : ℕ) : Prop :=
  IsGreatest {p | low ≤ p ∧ OccursAt fold ws chars p} r ∨
    r = npos ∧ ∀ p, low ≤ p → ¬OccursAt fold ws chars p

/-- A backward search gives the last occurrence, like the search for a character
where the text is one, and finds one where `find` does. -/
structure Rfinds (m : Matching) (s : SklString) (needle : Needle) : Prop where
  found : ∃ r, rfind m s needle = some r ∧ LastFrom m.fold s.wchars needle.chars 0 r ∧
    (∀ c, needle.chars = [c] → rfindChr m s c = some r) ∧
    (r = npos ↔ find m s needle 0 = some npos)

section Loops

theorem lastFrom_iff : LastFrom fold ws chars low r ↔
    IsGreatest {p | low ≤ p ∧ OccursAt fold ws chars p} r ∨
      r = npos ∧ ∀ p, p ∉ {p | low ≤ p ∧ OccursAt fold ws chars p} := by
  simp only [LastFrom, Set.mem_ofPred_eq, not_and]

/-- There is one last occurrence. -/
theorem LastFrom.unique (h : LastFrom fold ws chars low r) (h' : LastFrom fold ws chars low r') :
    r = r' :=
  result_unique (fun _ h => h.1) (fun _ _ => IsGreatest.unique) (lastFrom_iff.mp h)
    (lastFrom_iff.mp h')

theorem LastFrom.eq_npos (h : LastFrom fold ws chars low r)
    (hnone : ∀ p, low ≤ p → ¬OccursAt fold ws chars p) : r = npos :=
  h.unique (.inr ⟨rfl, hnone⟩)

/-- What is found is an occurrence. -/
theorem LastFrom.occursAt (h : LastFrom fold ws chars low r) (hne : r ≠ npos) :
    low ≤ r ∧ OccursAt fold ws chars r := by
  rcases h with h | ⟨rfl, -⟩
  · exact h.1
  · exact absurd rfl hne

/-- Where there is an occurrence one is found. -/
theorem LastFrom.isGreatest {p : ℕ} (h : LastFrom fold ws chars low r) (hp : low ≤ p)
    (hocc : OccursAt fold ws chars p) : IsGreatest {p | low ≤ p ∧ OccursAt fold ws chars p} r := by
  rcases h with h | ⟨-, hnone⟩
  · exact h
  · exact absurd hocc (hnone p hp)

/-- The backward loop looks at the positions down to the second. -/
theorem rfindLoop_spec (hfits : n + chars.length = ws.length)
    (htest : ∀ p, p ≤ n → test (buf.drop p) = some (decide (OccursAt fold ws chars p))) :
    ∃ r, rfindLoop test buf n = some r ∧ LastFrom fold ws chars 1 r := by
  suffices h : ∀ k ≤ n, (∀ p, k < p → ¬OccursAt fold ws chars p) →
      ∃ r, rfindLoop test buf k = some r ∧ LastFrom fold ws chars 1 r by
    exact h n le_rfl fun p hp => not_occursAt_of_length (by omega)
  intro k hk hnone
  induction k with
  | zero => exact ⟨npos, rfl, .inr ⟨rfl, fun p hp => hnone p hp⟩⟩
  | succ k ih =>
    rw [rfindLoop, htest (k + 1) hk]
    by_cases hocc : OccursAt fold ws chars (k + 1)
    · refine ⟨k + 1, by simp [hocc], .inl ⟨⟨by omega, hocc⟩, fun p hp => ?_⟩⟩
      by_contra hlt
      exact hnone p (by omega) hp.2
    · obtain ⟨r, hr, hlast⟩ := ih (by omega) fun p hp => by
        rcases Nat.eq_or_lt_of_le hp with rfl | hlt
        · exact hocc
        · exact hnone p hlt
      exact ⟨r, by simpa [hocc] using hr, hlast⟩

/-- A character occurs where it is read. -/
theorem occursAt_singleton :
    OccursAt fold ws [c] pos ↔ ∃ d, ws[pos]? = some d ∧ fold d = fold c := by
  unfold OccursAt
  constructor
  · rintro ⟨hle, heq⟩
    have hlt : pos < ws.length := hle
    refine ⟨ws[pos], List.getElem?_eq_getElem hlt, ?_⟩
    rw [List.drop_eq_getElem_cons hlt] at heq
    exact (List.cons.inj heq).1
  · rintro ⟨d, hd, heq⟩
    obtain ⟨hlt, rfl⟩ := List.getElem?_eq_some_iff.mp hd
    refine ⟨hlt, ?_⟩
    rw [List.drop_eq_getElem_cons hlt]
    exact congrArg (fun d => [d]) heq

/-- The backward loop for a character looks at all positions. -/
theorem rfindChrLoop_spec (fold : WChar → WChar) (ws rest : List WChar) (c : WChar) :
    ∃ r, rfindChrLoop fold (ws ++ rest) (fold c) ws.length = some r ∧ LastFrom fold ws [c] 0 r := by
  suffices h : ∀ k ≤ ws.length, (∀ p, k ≤ p → ¬OccursAt fold ws [c] p) →
      ∃ r, rfindChrLoop fold (ws ++ rest) (fold c) k = some r ∧ LastFrom fold ws [c] 0 r by
    refine h _ le_rfl fun p hp => not_occursAt_of_length ?_
    rw [List.length_singleton]
    omega
  intro k hk hnone
  induction k with
  | zero => exact ⟨npos, rfl, .inr ⟨rfl, hnone⟩⟩
  | succ k ih =>
    have hlt : k < ws.length := hk
    have hget : (ws ++ rest)[k]? = some ws[k] := by
      rw [List.getElem?_append_left hlt, List.getElem?_eq_getElem hlt]
    rw [rfindChrLoop, hget]
    by_cases heq : fold c = fold ws[k]
    · have hocc : OccursAt fold ws [c] k :=
        occursAt_singleton.mpr ⟨_, List.getElem?_eq_getElem hlt, heq.symm⟩
      refine ⟨k, by simp [heq], .inl ⟨⟨Nat.zero_le _, hocc⟩, fun p hp => ?_⟩⟩
      by_contra hgt
      exact hnone p (by omega) hp.2
    · obtain ⟨r, hr, hlast⟩ := ih (by omega) fun p hp hocc => by
        rcases Nat.eq_or_lt_of_le hp with rfl | hgt
        · obtain ⟨d, hd, hdc⟩ := occursAt_singleton.mp hocc
          rw [List.getElem?_eq_getElem hlt, Option.some_inj] at hd
          exact heq (hd ▸ hdc.symm)
        · exact hnone p hgt hocc
      exact ⟨r, by simpa [heq] using hr, hlast⟩

end Loops

section Searches

/-- The search for a character gives its last occurrence. -/
theorem rfindChr_spec (m : Matching) (c : WChar) (hr : s.unicodeStr.Readable) :
    ∃ r, rfindChr m s c = some r ∧ LastFrom m.fold s.wchars [c] 0 r := by
  obtain ⟨rest, hrest⟩ := exists_rest s
  have hloop := rfindChrLoop_spec m.fold s.wchars rest c
  rw [← hrest, length_wchars hr] at hloop
  cases m <;> exact hloop

theorem rfind_eq (m : Matching) :
    rfind m s needle = if u32 needle.chars.length > s.length then some npos
      else rfindLoop (hit m needle.memory (u32 needle.chars.length)) s.unicodeStr.memory
        (s.length - u32 needle.chars.length) := by
  have hby : ∀ test : List WChar → ℕ → List WChar → Option Bool,
      rfindBy test s needle.memory needle.matchlen =
        if u32 needle.chars.length > s.length then some npos
        else rfindLoop (test needle.memory (u32 needle.chars.length)) s.unicodeStr.memory
          (s.length - u32 needle.chars.length) := by
    intro test
    cases needle with
    | counted chars hne hlt =>
      have hu : u32 chars.length = chars.length := u32_of_lt (hlt.trans (by decide))
      simp [rfindBy, Needle.memory, Needle.matchlen, Needle.chars, hu, hlt.ne]
    | terminated chars hne hz =>
      have hraw : rawlen (chars ++ [0]) = some chars.length := rawlen_append_nul hz []
      simp [rfindBy, Needle.memory, Needle.matchlen, Needle.chars, hraw]
  cases m with
  | plain => exact hby bytesHit
  | caseless => exact hby charsHit

/-- A backward search finds the last occurrence behind the first position of what
is counted. -/
theorem rfind_spec (m : Matching) (needle : Needle) (hr : s.unicodeStr.Readable) :
    ∃ r, rfind m s needle = some r ∧
      LastFrom m.fold s.wchars (needle.chars.take (u32 needle.chars.length)) 1 r := by
  have hlen := length_wchars hr
  have hle := length_le s
  have hcounted := length_counted needle
  obtain ⟨behind, hbehind⟩ := needle.exists_behind
  obtain ⟨rest, hrest⟩ := exists_rest s
  rw [rfind_eq, hrest, hbehind, ← hlen]
  generalize needle.chars.take (u32 needle.chars.length) = chars at hcounted ⊢
  split
  · exact ⟨npos, rfl, .inr ⟨rfl, fun p _ => not_occursAt_of_length (by omega)⟩⟩
  · rw [← hcounted]
    exact rfindLoop_spec (by omega) fun p hp => hit_spec m (by omega) (by omega)

/-- The forward search from the start finds what is counted of a text. -/
theorem find_start (m : Matching) (needle : Needle) (hr : s.unicodeStr.Readable) :
    ∃ f, find m s needle 0 = some f ∧
      FirstFrom m.fold s.wchars (needle.chars.take (u32 needle.chars.length)) 0 f := by
  have hn := u32_lt needle.chars.length
  exact find_spec m needle hr (Nat.two_pow_pos 32) (by omega)

/-- A search that is right misses no text that `find` finds. -/
theorem Rfinds.behind (h : Rfinds m s needle) (hr : s.unicodeStr.Readable) {p : ℕ}
    (hp : OccursAt m.fold s.wchars (needle.chars.take (u32 needle.chars.length)) p) :
    needle.chars.length < 2 ^ 32 ∧ ∃ p, 0 < p ∧ OccursAt m.fold s.wchars needle.chars p := by
  have hlen := length_wchars hr
  have hle := length_le s
  obtain ⟨r, hrfind, hlast⟩ := rfind_spec m needle hr
  obtain ⟨f, hfind, hfirst⟩ := find_start m needle hr
  obtain ⟨r', hr', hlast', -, hagree⟩ := h.found
  obtain rfl : r = r' := Option.some.inj (hrfind.symm.trans hr')
  have hf : f ≠ npos := hfirst.ne_npos (by omega) (Nat.zero_le p) hp
  have hne : r ≠ npos := fun hr => hf (Option.some.inj (hfind.symm.trans (hagree.mp hr)))
  have hocc := (hlast'.occursAt hne).2
  have hfits := counted_of_occursAt hr hocc
  exact ⟨by omega, r, (hlast.occursAt hne).1, hocc⟩

/-- A text that does not occur is not found. -/
theorem rfinds_of_nowhere (hr : s.unicodeStr.Readable)
    (hnone : ∀ p, ¬OccursAt m.fold s.wchars (needle.chars.take (u32 needle.chars.length)) p) :
    Rfinds m s needle := by
  have hlen := length_wchars hr
  have hle := length_le s
  obtain ⟨r, hrfind, hlast⟩ := rfind_spec m needle hr
  obtain ⟨f, hfind, hfirst⟩ := find_start m needle hr
  have hnone' : ∀ p, ¬OccursAt m.fold s.wchars needle.chars p := by
    intro p hp
    have hfits := counted_of_occursAt hr hp
    have htake : needle.chars.take (u32 needle.chars.length) = needle.chars := by
      rw [u32_of_lt (by omega), List.take_length]
    exact hnone p (by rwa [htake])
  obtain rfl := hlast.eq_npos fun p _ => hnone p
  obtain rfl := hfirst.eq_npos fun p _ => hnone p
  refine ⟨npos, hrfind, .inr ⟨rfl, fun p _ => hnone' p⟩, fun c hc => ?_, by simp [hfind]⟩
  obtain ⟨q, hq, hqlast⟩ := rfindChr_spec m c hr
  rw [hq, hqlast.eq_npos fun p _ => hc ▸ hnone' p]

/-- A text that occurs behind the start is found where it occurs last. -/
theorem rfinds_of_behind (hr : s.unicodeStr.Readable) (hlt : needle.chars.length < 2 ^ 32) {p : ℕ}
    (hpos : 0 < p) (hp : OccursAt m.fold s.wchars needle.chars p) : Rfinds m s needle := by
  have hlen := length_wchars hr
  have hle := length_le s
  obtain ⟨r, hrfind, hlast⟩ := rfind_spec m needle hr
  obtain ⟨f, hfind, hfirst⟩ := find_start m needle hr
  rw [u32_of_lt hlt, List.take_length] at hlast hfirst
  have hgreatest := hlast.isGreatest hpos hp
  have hlast₀ : LastFrom m.fold s.wchars needle.chars 0 r := by
    refine .inl ⟨⟨Nat.zero_le _, hgreatest.1.2⟩, fun q hq => ?_⟩
    rcases Nat.eq_zero_or_pos q with rfl | hq₀
    · exact Nat.zero_le _
    · exact hgreatest.2 ⟨hq₀, hq.2⟩
  have hne : r ≠ npos := by
    have hfits := counted_of_occursAt hr hgreatest.1.2
    unfold npos
    omega
  have hf : f ≠ npos := hfirst.ne_npos (by omega) (Nat.zero_le p) hp
  refine ⟨r, hrfind, hlast₀, fun c hc => ?_, by simp [hfind, hne, hf]⟩
  obtain ⟨q, hq, hqlast⟩ := rfindChr_spec m c hr
  rw [hq, (hc ▸ hqlast : LastFrom m.fold s.wchars needle.chars 0 q).unique hlast₀]

/-- `rfind` and `rifind` give the last occurrence, and agree with the searches for
a character and with `find`, exactly when the text occurs nowhere or behind the
start. -/
theorem rfinds_iff (m : Matching) (s : SklString) (needle : Needle) (hr : s.unicodeStr.Readable) :
    Rfinds m s needle ↔
      (∀ p, ¬OccursAt m.fold s.wchars (needle.chars.take (u32 needle.chars.length)) p) ∨
      needle.chars.length < 2 ^ 32 ∧ ∃ p, 0 < p ∧ OccursAt m.fold s.wchars needle.chars p := by
  constructor
  · intro h
    by_cases hnone : ∀ p, ¬OccursAt m.fold s.wchars (needle.chars.take (u32 needle.chars.length)) p
    · exact .inl hnone
    · simp only [not_forall, not_not] at hnone
      obtain ⟨p, hp⟩ := hnone
      exact .inr (h.behind hr hp)
  · rintro (hnone | ⟨hlt, p, hpos, hp⟩)
    · exact rfinds_of_nowhere hr hnone
    · exact rfinds_of_behind hr hlt hpos hp

theorem rfinds_ab : Rfinds .plain cab ab :=
  (rfinds_iff .plain cab ab readable_cab).mpr (.inr ⟨by decide, 1, by decide, by decide⟩)

/-- A text at the start of the string is not found. -/
theorem not_rfinds_start : ¬Rfinds .plain cab (.counted [99] (by decide) (by decide)) := by
  rintro ⟨r, hr, -, hchr, -⟩
  have hc := hchr 99 rfl
  have heq : rfind .plain cab (.counted [99] (by decide) (by decide)) = rfindChr .plain cab 99 :=
    hr.trans hc.symm
  exact absurd heq (by decide)

end Searches

end KernelLib.StringRfinds
