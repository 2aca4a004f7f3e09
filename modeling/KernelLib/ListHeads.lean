import KernelLib.LinkedRing

/-!
# Relinking whole lists

The pointer programs of `skl::list` that are not in the usual set of ring
operations: the static `swap` and `append` on two heads, and the two
assignments that mark an entry as unlinked. Each comes with the rings it
leaves. `append` puts the entries of the second ring in front of those of
the first.
-/

namespace KernelLib.ListHeads

open LinkedRing

variable {α : Type}

/-- An entry that is on no list. -/
def unlinkedEntry : Entry α := ⟨none, none⟩

variable [DecidableEq α]

/-- The assignments that null both pointers of an entry. -/
def nullEntry (e : α) (m : Links α) : Option (Links α) :=
  (setFlink (some e) none m).bind (setBlink (some e) none)

/-- One half of `swap`: the head takes over the entries whose first and last
are given by the other head's old pointers. -/
def takeOver (h : α) (old : Entry α) (empty : Bool) (m : Links α) : Option (Links α) :=
  if empty then initializeListHead h m
  else do
    let m ← setFlink (some h) old.flink m
    let m ← setBlink (some h) old.blink m
    let m ← setBlink old.flink (some h) m
    setFlink old.blink (some h) m

/-- `swap(PLIST_ENTRY l, PLIST_ENTRY r)`. -/
def swapHeads (l r : α) (m : Links α) : Option (Links α) := do
  if l = r then return m
  let left ← m l
  let right ← m r
  let otherEmpty ← isListEmpty r m
  let thisEmpty ← isListEmpty l m
  let m ← takeOver l right otherEmpty m
  takeOver r left thisEmpty m

/-- `append(PLIST_ENTRY l, PLIST_ENTRY r)`. -/
def appendHeads (l r : α) (m : Links α) : Option (Bool × Links α) := do
  if ← isListEmpty r m then return (true, m)
  if l = r then return (false, m)
  let left ← m l
  let right ← m r
  let F := left.flink
  let b := right.blink
  let f := right.flink
  let m ← setBlink F b m
  let m ← setFlink b F m
  let m ← setFlink (some l) f m
  let m ← setBlink f (some l) m
  let m ← initializeListHead r m
  return (true, m)

section Specs

variable {m : Links α} {h e l r : α} {xs ys : List α}

/-- A nulled entry is unlinked. -/
theorem nullEntry_spec (he : (m e).isSome) :
    ∃ m', nullEntry e m = some m' ∧ m' e = some unlinkedEntry ∧ Frame m m' [e] := by
  refine ⟨withBlink (withFlink m e none) e none, by simp [nullEntry, he], ?_, ?_, by simp⟩
  · obtain ⟨entry, hentry⟩ := Option.isSome_iff_exists.mp he
    simp [withBlink, withFlink, hentry, unlinkedEntry]
  · intro c hc
    have hne : c ≠ e := by simpa using hc
    rw [withBlink_of_ne hne, withFlink_of_ne hne]

/-- A head that takes over a chain of entries closes the ring around them. -/
theorem takeOver_spec {old : Entry α} (hh : (m h).isSome) (hnd : (h :: xs).Nodup)
    (hch : xs.IsChain (Linked m)) (hall : ∀ c ∈ xs, (m c).isSome)
    (hfirst : xs ≠ [] → old.flink = xs.head?) (hlast : xs ≠ [] → old.blink = xs.getLast?) :
    ∃ m', takeOver h old xs.isEmpty m = some m' ∧ Ring m' h xs ∧ Frame m m' (h :: xs) := by
  cases hxs : xs with
  | nil => exact initializeListHead_spec hh
  | cons q vs =>
    obtain ⟨p, hp⟩ : ∃ p, xs.getLast? = some p :=
      Option.isSome_iff_exists.mp (by simp [hxs])
    have hpm : p ∈ xs := List.mem_of_getLast? hp
    have hqm : q ∈ xs := by simp [hxs]
    obtain ⟨hhx, hndx⟩ := List.nodup_cons.mp hnd
    have hph : p ≠ h := fun hx => hhx (hx ▸ hpm)
    have hqh : q ≠ h := fun hx => hhx (hx ▸ hqm)
    have hf : old.flink = some q := by simpa [hxs] using hfirst
    have hb : old.blink = some p := (hlast (by simp [hxs])).trans hp
    have hnext : ∀ c, next (withFlink (withBlink (withBlink (withFlink m h (some q)) h (some p)) q
        (some h)) p (some h)) c = if c = p then some h else if c = h then some q else next m c := by
      intro c
      rw [next_withFlink (by simpa using hall p hpm), next_withBlink, next_withBlink,
        next_withFlink hh]
    have hprev : ∀ c, prev (withFlink (withBlink (withBlink (withFlink m h (some q)) h (some p)) q
        (some h)) p (some h)) c = if c = q then some h else if c = h then some p else prev m c := by
      intro c
      rw [prev_withFlink, prev_withBlink (by simpa using hall q hqm),
        prev_withBlink (by simpa using hh), prev_withFlink]
    refine ⟨withFlink (withBlink (withBlink (withFlink m h (some q)) h (some p)) q (some h)) p
      (some h), ?_, ?_, ?_, by simp⟩
    · simp [takeOver, hf, hb, hh, hall p hpm, hall q hqm]
    · rw [← hxs]
      refine ring_of_chain hnd hxs hp (chain_congr ?_ ?_ hch) ?_ ?_
      · intro c hc
        have hcm := List.dropLast_subset _ hc
        rw [hnext, if_neg (ne_of_mem_dropLast hndx hp hc),
          if_neg (fun hx : c = h => hhx (hx ▸ hcm))]
      · intro c hc
        have hcm := List.mem_of_mem_tail hc
        rw [hprev, if_neg (ne_of_mem_tail hndx hxs hc),
          if_neg (fun hx : c = h => hhx (hx ▸ hcm))]
      · simp [Linked, hnext, hprev, Ne.symm hph]
      · simp [Linked, hnext, hprev, Ne.symm hqh]
    · rw [← hxs]
      intro c hc
      simp only [List.mem_cons, not_or] at hc
      rw [withFlink_of_ne (fun hx : c = p => hc.2 (hx ▸ hpm)),
        withBlink_of_ne (fun hx : c = q => hc.2 (hx ▸ hqm)), withBlink_of_ne hc.1,
        withFlink_of_ne hc.1]

/-- A swap exchanges the entries of two rings. -/
theorem swapHeads_spec (hl : Ring m l xs) (hr : Ring m r ys)
    (hd : ∀ c ∈ l :: xs, c ∉ r :: ys) :
    ∃ m', swapHeads l r m = some m' ∧ Ring m' l ys ∧ Ring m' r xs ∧
      Frame m m' (l :: r :: (xs ++ ys)) := by
  obtain ⟨left, hleft⟩ := Option.isSome_iff_exists.mp (hl.isSome List.mem_cons_self)
  obtain ⟨right, hright⟩ := Option.isSome_iff_exists.mp (hr.isSome List.mem_cons_self)
  have hlr : l ≠ r := fun hx => hd l List.mem_cons_self (hx ▸ List.mem_cons_self)
  have hlys : l ∉ ys := fun hx => hd l List.mem_cons_self (List.mem_cons_of_mem _ hx)
  have hrxs : r ∉ xs := fun hx => hd r (List.mem_cons_of_mem _ hx) List.mem_cons_self
  obtain ⟨m₁, hm₁, hring₁, hf₁⟩ := takeOver_spec (h := l) (hl.isSome List.mem_cons_self)
    (List.nodup_cons.mpr ⟨hlys, (List.nodup_cons.mp hr.nodup).2⟩) hr.isChain
    (fun c hc => hr.isSome (List.mem_cons_of_mem _ hc)) (hr.head_entry hright).1
    (hr.head_entry hright).2
  have hsame : ∀ c ∈ xs, m₁ c = m c := by
    intro c hc
    refine hf₁.same c fun hx => ?_
    rcases List.mem_cons.mp hx with rfl | hx
    · exact (List.nodup_cons.mp hl.nodup).1 hc
    · exact hd c (List.mem_cons_of_mem _ hc) (List.mem_cons_of_mem _ hx)
  have hch₁ : xs.IsChain (Linked m₁) := by
    refine chain_congr ?_ ?_ hl.isChain
    · exact fun c hc => by simp only [next, hsame c (List.dropLast_subset _ hc)]
    · exact fun c hc => by simp only [prev, hsame c (List.mem_of_mem_tail hc)]
  obtain ⟨m₂, hm₂, hring₂, hf₂⟩ := takeOver_spec (h := r)
    (by rw [hf₁.alloc]; exact hr.isSome List.mem_cons_self)
    (List.nodup_cons.mpr ⟨hrxs, (List.nodup_cons.mp hl.nodup).2⟩) hch₁
    (fun c hc => by rw [hf₁.alloc]; exact hl.isSome (List.mem_cons_of_mem _ hc))
    (hl.head_entry hleft).1 (hl.head_entry hleft).2
  refine ⟨m₂, ?_, hring₁.frame hf₂ ?_, hring₂, ?_, ?_⟩
  · simp [swapHeads, hlr, hleft, hright, isListEmpty_spec hl, isListEmpty_spec hr, hm₁, hm₂]
  · intro c hc hx
    rcases List.mem_cons.mp hc with rfl | hc
    · rcases List.mem_cons.mp hx with hx | hx
      · exact hlr hx
      · exact (List.nodup_cons.mp hl.nodup).1 hx
    · rcases List.mem_cons.mp hx with rfl | hx
      · exact (List.nodup_cons.mp hr.nodup).1 hc
      · exact hd c (List.mem_cons_of_mem _ hx) (List.mem_cons_of_mem _ hc)
  · intro c hc
    simp only [List.mem_cons, List.mem_append, not_or] at hc
    rw [hf₂.same c (by simp [hc]), hf₁.same c (by simp [hc])]
  · exact fun c => (hf₂.alloc c).trans (hf₁.alloc c)

/-- Appending an empty ring does nothing. -/
theorem appendHeads_empty (hr : Ring m r []) : appendHeads l r m = some (true, m) := by
  simp [appendHeads, isListEmpty_spec hr]

/-- A non-empty ring is not appended to itself. -/
theorem appendHeads_self (hr : Ring m r ys) (hy : ys ≠ []) :
    appendHeads r r m = some (false, m) := by
  simp [appendHeads, isListEmpty_spec hr, hy]

section Splice

variable {f b F : α} {vs ws : List α}

/-- The memory after the writes that put the entries from `f` to `b` between the
head `l` and the address `F` behind it. -/
def spliced (l f b F : α) (m : Links α) : Links α :=
  withBlink (withFlink (withFlink (withBlink m F (some b)) b (some F)) l (some f)) f (some l)

theorem next_spliced (hb : (m b).isSome) (hl : (m l).isSome) (c : α) :
    next (spliced l f b F m) c = if c = l then some f else if c = b then some F else next m c := by
  rw [spliced, next_withBlink, next_withFlink (by simpa using hl),
    next_withFlink (by simpa using hb), next_withBlink]

theorem prev_spliced (hF : (m F).isSome) (hf : (m f).isSome) (c : α) :
    prev (spliced l f b F m) c = if c = f then some l else if c = F then some b else prev m c := by
  rw [spliced, prev_withBlink (by simpa using hf), prev_withFlink, prev_withFlink,
    prev_withBlink hF]

theorem spliced_of_ne {c : α} (hl : c ≠ l) (hf : c ≠ f) (hb : c ≠ b) (hF : c ≠ F) :
    spliced l f b F m c = m c := by
  rw [spliced, withBlink_of_ne hf, withFlink_of_ne hl, withFlink_of_ne hb, withBlink_of_ne hF]

/-- The entries between two rings' heads and tails make one ring. -/
theorem spliced_ring (hl : Ring m l xs) (hr : Ring m r ys) (hF : xs ++ [l] = F :: vs)
    (hchF : (F :: vs).IsChain (Linked m)) (hFvs : F ∉ vs) (hFl : F ∈ l :: xs) (hf : ys = f :: ws)
    (hb : ys.getLast? = some b) (hd : ∀ c ∈ l :: xs, c ∉ r :: ys) :
    Ring (spliced l f b F m) l (ys ++ xs) := by
  have hfy : f ∈ ys := by simp [hf]
  have hby : b ∈ ys := List.mem_of_getLast? hb
  have hys : ∀ c ∈ ys, c ∉ l :: xs := fun c hc hx => hd c hx (List.mem_cons_of_mem _ hc)
  have hndl := List.nodup_cons.mp hl.nodup
  have hndy := (List.nodup_cons.mp hr.nodup).2
  have hnext := fun c => next_spliced (l := l) (f := f) (F := F)
    (hr.isSome (List.mem_cons_of_mem _ hby)) (hl.isSome List.mem_cons_self) c
  have hprev := fun c => prev_spliced (l := l) (b := b)
    (hl.isSome hFl) (hr.isSome (List.mem_cons_of_mem _ hfy)) c
  have hnd : (l :: (ys ++ xs)).Nodup := by
    refine List.nodup_cons.mpr ⟨?_, hndy.append hndl.2 ?_⟩
    · rw [List.mem_append]
      rintro (hy | hx)
      · exact hys l hy List.mem_cons_self
      · exact hndl.1 hx
    · exact fun c hc hx => hys c hc (List.mem_cons_of_mem _ hx)
  have hfront : ys.IsChain (Linked (spliced l f b F m)) := by
    refine chain_congr ?_ ?_ hr.isChain
    · intro c hc
      have hcy := List.dropLast_subset _ hc
      rw [hnext, if_neg (fun hx : c = l => hys c hcy (hx ▸ List.mem_cons_self)),
        if_neg (ne_of_mem_dropLast hndy hb hc)]
    · intro c hc
      have hcy := List.mem_of_mem_tail hc
      rw [hprev, if_neg (ne_of_mem_tail hndy hf hc),
        if_neg (fun hx : c = F => hys c hcy (hx ▸ hFl))]
  have hback : (F :: vs).IsChain (Linked (spliced l f b F m)) := by
    refine chain_congr ?_ ?_ hchF
    · intro c hc
      rw [← hF, List.dropLast_concat] at hc
      rw [hnext, if_neg (fun hx : c = l => hndl.1 (hx ▸ hc)),
        if_neg (fun hx : c = b => hys b hby (hx ▸ List.mem_cons_of_mem _ hc))]
    · intro c hc
      have hcl : c ∈ l :: xs := by
        have hm : c ∈ xs ++ [l] := by rw [hF]; exact List.mem_cons_of_mem _ hc
        simpa [or_comm] using hm
      rw [hprev, if_neg (fun hx : c = f => hys f hfy (hx ▸ hcl)),
        if_neg (fun hx : c = F => hFvs (hx ▸ hc))]
  have hsplit : l :: (ys ++ xs) ++ [l] = l :: (ys ++ F :: vs) := by
    rw [List.cons_append, List.append_assoc, hF]
  refine ⟨hnd, ?_⟩
  rw [hsplit, hf, List.cons_append, List.isChain_cons_cons, ← List.cons_append, ← hf,
    List.isChain_append]
  refine ⟨by simp [Linked, hnext, hprev], hfront, hback, ?_⟩
  intro x hx y hy
  rw [hb, Option.mem_some] at hx
  rw [List.head?_cons, Option.mem_some] at hy
  have hbl : b ≠ l := fun hx => hys b hby (hx ▸ List.mem_cons_self)
  have hFf : F ≠ f := fun hx => hys f hfy (hx ▸ hFl)
  simp [Linked, hnext, hprev, ← hx, ← hy, hbl, hFf]

end Splice

/-- The entries of a non-empty second ring come to stand before those of the first. -/
theorem appendHeads_spec (hl : Ring m l xs) (hr : Ring m r ys) (hy : ys ≠ [])
    (hd : ∀ c ∈ l :: xs, c ∉ r :: ys) :
    ∃ m', appendHeads l r m = some (true, m') ∧ Ring m' l (ys ++ xs) ∧ Ring m' r [] ∧
      Frame m m' (l :: r :: (xs ++ ys)) := by
  obtain ⟨left, hleft⟩ := Option.isSome_iff_exists.mp (hl.isSome List.mem_cons_self)
  obtain ⟨right, hright⟩ := Option.isSome_iff_exists.mp (hr.isSome List.mem_cons_self)
  obtain ⟨F, vs, hF, hlF, hchF, hFvs, hFl⟩ := hl.exists_first
  obtain ⟨f, ws, hf⟩ := List.exists_cons_of_ne_nil hy
  obtain ⟨b, hb⟩ : ∃ b, ys.getLast? = some b := Option.isSome_iff_exists.mp (by simp [hf])
  have hleftF : left.flink = some F := by simpa [next, hleft] using hlF.1
  have hrightf : right.flink = some f := by simpa [hf] using (hr.head_entry hright).1
  have hrightb : right.blink = some b := ((hr.head_entry hright).2 hy).trans hb
  have hfy : f ∈ ys := by simp [hf]
  have hby : b ∈ ys := List.mem_of_getLast? hb
  have hlr : l ≠ r := fun hx => hd l List.mem_cons_self (hx ▸ List.mem_cons_self)
  have hrxs : r ∉ xs := fun hx => hd r (List.mem_cons_of_mem _ hx) List.mem_cons_self
  have hrys := (List.nodup_cons.mp hr.nodup).1
  have hring := spliced_ring hl hr hF hchF hFvs hFl hf hb hd
  have hrs : (spliced l f b F m r).isSome := by
    simpa [spliced] using hr.isSome List.mem_cons_self
  obtain ⟨m₂, hm₂, hring₂, hf₂⟩ := initializeListHead_spec hrs
  refine ⟨m₂, ?_, hring.frame hf₂ ?_, hring₂, ?_,
    fun c => (hf₂.alloc c).trans (by simp [spliced])⟩
  · have hemp : ys.isEmpty = false := by simpa using hy
    simp [appendHeads, isListEmpty_spec hr, hemp, hlr, hleft, hright, hleftF, hrightf, hrightb,
      hl.isSome hFl, hr.isSome (List.mem_cons_of_mem _ hby), hr.isSome (List.mem_cons_of_mem _ hfy)]
    change (initializeListHead r (spliced l f b F m)).bind _ = _
    rw [hm₂]
    rfl
  · intro c hc hx
    rw [List.mem_singleton.mp hx] at hc
    simp [Ne.symm hlr, hrys, hrxs] at hc
  · intro c hc
    simp only [List.mem_cons, List.mem_append, not_or] at hc
    have hcF : c ≠ F := by
      rintro rfl
      rcases List.mem_cons.mp hFl with hx | hx
      · exact hc.1 hx
      · exact hc.2.2.1 hx
    rw [hf₂.same c (by simp [hc])]
    exact spliced_of_ne hc.1 (fun hx => hc.2.2.2 (hx ▸ hfy)) (fun hx => hc.2.2.2 (hx ▸ hby)) hcF

end Specs

end KernelLib.ListHeads
