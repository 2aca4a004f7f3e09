import KernelLib.VectorRanges

/-!
# What each method does to one vector

A vector keeps a list when its buffer has the bytes that were asked for its
capacity, as far as 32 bits go, and holds the elements from slot zero on.
Nothing is assumed of the capacity itself: where its byte count wrapped, the
methods work as long as the elements are within the bytes that there are,
and fail otherwise. For each method there is a lemma that says when it
succeeds and what it leaves, and one that says what its success implies.
-/

namespace KernelLib.VectorSteps

open PoolBlocks VectorItems VectorMethods VectorModel VectorGaps VectorRanges Word32

variable {V : Type} {w c n i k pos : ℕ} {h h' : Heap V} {t t' : Pool (ℕ × V)} {d : Option ℕ}
  {x x' : Vec} {m m' : Contents V} {us vs : List (ℕ × V)} {xs : List V} {ok flag : Bool}

section Keeping

/-- A vector keeps a list in a buffer of the bytes asked for. -/
structure Kept (w : ℕ) (t : Pool (ℕ × V)) (x : Vec) (m : Contents V) : Prop where
  size : x.size = m.elems.length
  capacity : x.capacity = m.capacity
  lt : m.capacity < 2 ^ 32
  fits : m.elems.length * w ≤ u32 (m.capacity * w)
  buffer : x.data = none ∧ m.capacity = 0 ∨ ∃ p b, x.data = some p ∧ t.block p = some b ∧
    b.bytes = u32 (m.capacity * w) ∧ b.Holds 0 m.elems

/-- A capacity whose byte count does not wrap makes a list stored. -/
theorem stores_iff (hw : 0 < w) :
    Stores w t x m ↔ Kept w t x m ∧ m.capacity * w < 2 ^ 32 := by
  constructor
  · intro hs
    have hbytes : u32 (m.capacity * w) = m.capacity * w := u32_of_lt hs.bytes
    refine ⟨⟨hs.size, hs.capacity, (Nat.le_mul_of_pos_right _ hw).trans_lt hs.bytes, ?_, ?_⟩, hs.bytes⟩
    · rw [hbytes]
      exact Nat.mul_le_mul_right w hs.le
    · rw [hbytes]
      exact hs.buffer
  · rintro ⟨hk, hlt⟩
    have hbytes : u32 (m.capacity * w) = m.capacity * w := u32_of_lt hlt
    have hfits := hk.fits
    have hbuffer := hk.buffer
    rw [hbytes] at hfits hbuffer
    exact ⟨hk.size, hk.capacity, Nat.le_of_mul_le_mul_right hfits hw, hlt, hbuffer⟩

/-- Only the block of its buffer matters to a vector. -/
theorem Kept.congr (hk : Kept w t x m) (hb : ∀ p, x.data = some p → t'.block p = t.block p) :
    Kept w t' x m := by
  refine ⟨hk.size, hk.capacity, hk.lt, hk.fits, ?_⟩
  rcases hk.buffer with hn | ⟨p, b, hp, hbl, hrest⟩
  · exact .inl hn
  · exact .inr ⟨p, b, hp, (hb p hp).trans hbl, hrest⟩

/-- The buffer of a vector is allocated. -/
theorem Kept.live (hk : Kept w t x m) : ∀ p, x.data = some p → (t.block p).isSome := by
  rintro p hp
  rcases hk.buffer with ⟨hn, -⟩ | ⟨q, b, hq, hb, -⟩
  · simp [hp] at hn
  · obtain rfl : q = p := Option.some.inj (hq.symm.trans hp)
    simp [hb]

/-- A vector without a buffer is empty. -/
theorem kept_empty : Kept w t ⟨none, 0, 0⟩ (Contents.empty : Contents V) :=
  ⟨rfl, rfl, by simp [Contents.empty], by simp [Contents.empty], .inl ⟨rfl, rfl⟩⟩

/-- The buffer of a vector is not above those allocated. -/
theorem Kept.data_lt (hf : t.Fresh) (hk : Kept w t x m) :
    ∀ q, x.data = some q → q < t.allocated := by
  intro q hq
  by_contra hge
  simpa [hf q (by omega)] using hk.live q hq

/-- The bytes of the buffer are those that were asked for. -/
theorem Kept.bytes {p : ℕ} {b : Block (ℕ × V)} (hk : Kept w t x m) (hd : x.data = some p)
    (hb : t.block p = some b) : b.bytes = u32 (m.capacity * w) := by
  rcases hk.buffer with ⟨hn, -⟩ | ⟨q, c, hq, hc, hbytes, -⟩
  · simp [hd] at hn
  · obtain rfl : q = p := Option.some.inj (hq.symm.trans hd)
    obtain rfl : c = b := Option.some.inj (hc.symm.trans hb)
    exact hbytes

/-- The elements take less than `2 ^ 32` bytes. -/
theorem Kept.bytes_lt (hk : Kept w t x m) : m.elems.length * w < 2 ^ 32 :=
  hk.fits.trans_lt (u32_lt _)

/-- Byte counts of parts of a buffer are exact. -/
theorem Kept.bytes_eq (hk : Kept w t x m) (hn : n ≤ m.elems.length) : u32 (n * w) = n * w :=
  u32_of_lt ((Nat.mul_le_mul_right w hn).trans_lt hk.bytes_lt)

/-- So there are less than `2 ^ 32` of them. -/
theorem Kept.size_lt (hw : 0 < w) (hk : Kept w t x m) : m.elems.length < 2 ^ 32 :=
  (Nat.le_mul_of_pos_right _ hw).trans_lt hk.bytes_lt

/-- Wrapping never makes a number larger. -/
theorem u32_le (n : ℕ) : u32 n ≤ n := Nat.mod_le _ _

/-- The size is not beyond the capacity. -/
theorem Kept.le (hw : 0 < w) (hk : Kept w t x m) : m.elems.length ≤ m.capacity :=
  Nat.le_of_mul_le_mul_right (hk.fits.trans (u32_le _)) hw

/-- A vector is full or has slots left. -/
theorem Kept.full (hw : 0 < w) (hk : Kept w t x m) (hroom : ¬x.size < x.capacity) :
    x.size = x.capacity := by
  have hle := hk.le hw
  rw [hk.size, hk.capacity] at hroom ⊢
  omega

/-- Without elements nothing is in the way of a missing buffer. -/
theorem Kept.elems_eq_nil (hw : 0 < w) (hk : Kept w t x m) (hd : x.data = none) : m.elems = [] := by
  rcases hk.buffer with ⟨-, hz⟩ | ⟨p, b, hp, -⟩
  · have hle := hk.le hw
    exact List.eq_nil_of_length_eq_zero (by omega)
  · simp [hp] at hd

/-- The slots behind the elements are a gap. -/
theorem Kept.gap (hk : Kept w t x m) (hd : x.data.isSome)
    (hn : (m.elems.length + n) * w ≤ u32 (m.capacity * w)) :
    Gap w t x.data (u32 (m.capacity * w)) m.elems [] n := by
  rcases hk.buffer with ⟨hnone, -⟩ | ⟨p, b, hp, hb, hbytes, hu⟩
  · simp [hnone] at hd
  · exact ⟨by simpa using hn, p, b, hp, hb, hbytes, hu, holds_nil _ _⟩

/-- A vector with a capacity has a buffer. -/
theorem Kept.data_isSome (hk : Kept w t x m) (hpos : m.capacity ≠ 0) : x.data.isSome := by
  rcases hk.buffer with ⟨-, hz⟩ | ⟨p, b, hp, -⟩
  · exact absurd hz hpos
  · simp [hp]

/-- A buffer without a gap is that of a vector. -/
theorem gap_kept (ho : Gap w t d (u32 (c * w)) us [] n) (hc : c < 2 ^ 32) :
    Kept w t ⟨d, c, us.length⟩ ⟨us, c⟩ := by
  obtain ⟨hle, p, b, hd, hb, hbytes, hu, -⟩ := ho
  exact ⟨rfl, rfl, hc, fits_of_le (by simp only; omega) hle, .inr ⟨p, b, hd, hb, hbytes, hu⟩⟩

/-- A part of the elements can be copied from. -/
theorem Kept.lends (us vs ws : List (ℕ × V)) (hw : 0 < w) (hk : Kept w t x m)
    (he : m.elems = us ++ vs ++ ws) : Lends w t x.data us.length vs := by
  have hle := hk.fits
  rw [he, List.length_append, List.length_append] at hle
  cases hd : x.data with
  | none =>
    have hnil := hk.elems_eq_nil hw hd
    rw [he] at hnil
    simp only [List.append_eq_nil_iff] at hnil
    exact .inl hnil.1.2
  | some q =>
    rcases hk.buffer with ⟨hn, -⟩ | ⟨p, b, hp, hb, hbytes, hu⟩
    · simp [hd] at hn
    · obtain rfl : p = q := Option.some.inj (hp.symm.trans hd)
      rw [he, List.append_assoc, holds_append, holds_append, Nat.zero_add] at hu
      exact .inr ⟨p, b, rfl, hb, hbytes ▸ fits_of_le (by omega) hle, hu.2.1⟩

/-- The elements are read from the buffer. -/
theorem Kept.reads (hw : 0 < w) (hk : Kept w t x m) : Reads w t x.data 0 m.elems := by
  cases hd : x.data with
  | none =>
    rw [hk.elems_eq_nil hw hd]
    intro k hk
    simp at hk
  | some q =>
    have ho := hk.gap (n := 0) (by simp [hd]) (by simpa using hk.fits)
    rw [hd] at ho
    exact ho.reads

/-- The number of elements from a position on does not wrap. -/
theorem Kept.tail_eq (hw : 0 < w) (hk : Kept w t x m) (hpos : pos ≤ m.elems.length) :
    sub32 x.size pos = (m.elems.drop pos).length := by
  rw [hk.size, sub32_of_le hpos (hk.size_lt hw), List.length_drop]

/-- The members of a vector are what they stand for. -/
theorem vec_eta (hk : Kept w t x m) : (⟨x.data, m.capacity, m.elems.length⟩ : Vec) = x := by
  rw [← hk.capacity, ← hk.size]

/-- A method of one vector: what it keeps afterwards, the elements made and
ended, and that no other block than its buffer changed. -/
structure Acts (w : ℕ) (h h' : Heap V) (x x' : Vec) (m' : Contents V) (made : ℕ)
    (ended : List ℕ) : Prop where
  kept : Kept w h'.pool x' m'
  replaces : Replaces h.pool h'.pool x.data x'.data
  constructed : h'.constructed = h.constructed + made
  destroyed : h'.destroyed = h.destroyed ++ ended

/-- A vector that changes nothing replaces its buffer by itself. -/
theorem Kept.replaces (hf : t.Fresh) (hk : Kept w t x m) : Replaces t t x.data x.data :=
  .refl hf hk.live

/-- Nothing happened. -/
theorem acts_refl (hf : h.pool.Fresh) (hk : Kept w h.pool x m) : Acts w h h x x m 0 [] :=
  ⟨hk, hk.replaces hf, rfl, (List.append_nil _).symm⟩

/-- The method ends with one list in the buffer that it leaves in place. -/
theorem acts_of_gap {j : ℕ} (hrep : Replaces h.pool t x.data d) (hwr : Writes t t' d)
    (ho : Gap w t' d (u32 (c * w)) us [] k) (hc : c < 2 ^ 32) :
    Acts w h ⟨t', h.constructed + j, h.destroyed⟩ x ⟨d, c, us.length⟩ ⟨us, c⟩ j [] :=
  ⟨gap_kept ho hc, hrep.writes hwr, rfl, (List.append_nil _).symm⟩

end Keeping

section Relocation

variable {p : ℕ} {b : Block (ℕ × V)} {s : Pool (ℕ × V)}

/-- All elements are moved to another block that has bytes for them. -/
theorem copyAll_spec (hw : 0 < w) (hk : Kept w t x m) (hb : t'.block p = some b)
    (hle : m.elems.length * w ≤ b.bytes)
    (hkeep : ∀ q, x.data = some q → t'.block q = t.block q) (hne : x.data ≠ some p) :
    ∃ b', copyAll w x (some p) t' = some (t'.set p (some b')) ∧ b'.bytes = b.bytes ∧
      b'.Holds 0 m.elems := by
  have hlend : Lends w t' x.data 0 m.elems :=
    (hk.lends [] m.elems [] hw (by simp)).congr hkeep
  obtain ⟨b', hm, hb', hu, -⟩ := move_spec (i := 0) hw hb (by rwa [Nat.zero_add]) hlend
  refine ⟨b', ?_, hb', hu⟩
  rw [copyAll, hk.size, hk.bytes_eq le_rfl, copy_of_ne hne.symm, hm]

/-- They are moved only where there are bytes for them. -/
theorem fits_of_copyAll (hk : Kept w t x m) (hb : t'.block p = some b)
    (hc : copyAll w x (some p) t' = some s) : m.elems.length * w ≤ b.bytes := by
  rw [copyAll, hk.size, hk.bytes_eq le_rfl] at hc
  rcases Nat.eq_zero_or_pos (m.elems.length * w) with hz | hpos
  · rw [hz]
    exact Nat.zero_le _
  · obtain ⟨q, e, -, -, hq, he, -, -, hle, -⟩ := move_eq_some hpos.ne' (move_of_copy hc)
    obtain rfl := Option.some.inj hq
    obtain rfl : b = e := Option.some.inj (hb.symm.trans he)
    omega

/-- All elements are moved to another block, around a gap. -/
theorem copyAround_spec (hw : 0 < w) (hk : Kept w t x m) (hb : t'.block p = some b)
    (hpos : pos ≤ m.elems.length) (hle : (m.elems.length + i) * w ≤ b.bytes)
    (hkeep : ∀ q, x.data = some q → t'.block q = t.block q) (hne : x.data ≠ some p) :
    ∃ b', copyAround w pos i x (some p) t' = some (t'.set p (some b')) ∧ b'.bytes = b.bytes ∧
      b'.Holds 0 (m.elems.take pos) ∧ b'.Holds (pos + i) (m.elems.drop pos) := by
  have htake : (m.elems.take pos).length = pos := List.length_take_of_le hpos
  have hdrop : (m.elems.drop pos).length = m.elems.length - pos := List.length_drop
  have hhead : Lends w t' x.data 0 (m.elems.take pos) :=
    (hk.lends [] _ (m.elems.drop pos) hw (by simp)).congr hkeep
  obtain ⟨b₁, hm₁, hb₁, hu₁, -⟩ := move_spec (i := 0) hw hb (fits_of_le (by omega) hle) hhead
  have htail : Lends w (t'.set p (some b₁)) x.data pos (m.elems.drop pos) := by
    have hl := (hk.lends (m.elems.take pos) (m.elems.drop pos) [] hw (by simp)).congr hkeep
    rw [htake] at hl
    exact hl.congr fun q hq => set_block_of_ne _ fun he => hne (he ▸ hq)
  obtain ⟨b₂, hm₂, hb₂, hv₂, hkeep₂⟩ := move_spec (i := pos + i) hw (set_block_self t' p (some b₁))
    (hb₁ ▸ fits_of_le (by omega) hle) htail
  refine ⟨b₂, ?_, hb₂.trans hb₁, hkeep₂ 0 _ hu₁ (by omega), hv₂⟩
  rw [htake] at hm₁
  rw [copyAround, hk.tail_eq hw hpos, hk.bytes_eq hpos, hk.bytes_eq (by omega),
    copy_of_ne hne.symm, hm₁, Option.bind_eq_bind, Option.bind_some, copy_of_ne hne.symm, hm₂,
    set_set]

/-- A tail that was copied behind a gap was within the new block. -/
theorem fits_of_copyAround (hw : 0 < w) (hk : Kept w t x m) (hb : t'.block p = some b)
    (hpos : pos < m.elems.length) (hc : copyAround w pos i x (some p) t' = some s) :
    (m.elems.length + i) * w ≤ b.bytes := by
  obtain ⟨s₁, hs₁, hc⟩ := Option.bind_eq_some_iff.mp hc
  obtain ⟨b₁, hb₁, hbytes⟩ := bytes_of_move (move_of_copy hs₁) hb
  rw [hk.tail_eq hw hpos.le, hk.bytes_eq (by rw [List.length_drop]; omega)] at hc
  have hlen : (m.elems.drop pos).length * w ≠ 0 := by
    rw [List.length_drop]
    exact Nat.mul_ne_zero (by omega) (by omega)
  obtain ⟨q, e, -, -, hq, he, -, -, hle, -⟩ := move_eq_some hlen (move_of_copy hc)
  obtain rfl := Option.some.inj hq
  obtain rfl : b₁ = e := Option.some.inj (hb₁.symm.trans he)
  rw [← Nat.add_mul, List.length_drop, hbytes] at hle
  exact fits_of_le (by omega) hle

/-- From behind the end so many bytes would be moved that they leave the buffer. -/
theorem no_tail_of_move (hw : 0 < w) (hk : Kept w t x m) (hpos : x.size < pos)
    (hlt : pos * w < 2 ^ 32)
    (hkeep : ∀ q c, x.data = some q → t.block q = some c →
      ∃ e, t'.block q = some e ∧ e.bytes = c.bytes)
    (hm : t'.move w d i x.data pos (u32 (sub32 x.size pos * w)) = some s) : False := by
  have hp : pos < 2 ^ 32 := (Nat.le_mul_of_pos_right _ hw).trans_lt hlt
  have hsub : sub32 x.size pos = 2 ^ 32 - (pos - x.size) := by
    unfold sub32 u32
    omega
  have hd : (pos - x.size) * w < 2 ^ 32 := (Nat.mul_le_mul_right w (Nat.sub_le _ _)).trans_lt hlt
  have hd₀ : 0 < (pos - x.size) * w := Nat.mul_pos (by omega) hw
  have hbytes : u32 (sub32 x.size pos * w) = 2 ^ 32 - (pos - x.size) * w := by
    have hsum : (2 ^ 32 - (pos - x.size)) * w + (pos - x.size) * w = 2 ^ 32 * w := by
      rw [← Nat.add_mul, Nat.sub_add_cancel (by omega)]
    have hw1 : 2 ^ 32 * w = 2 ^ 32 * (w - 1) + 2 ^ 32 := by
      conv_lhs => rw [← Nat.sub_add_cancel hw]
      ring
    rw [hsub]
    unfold u32
    omega
  obtain ⟨-, -, q, e, -, -, hq, he, -, hle, -⟩ := move_eq_some (by omega) hm
  obtain ⟨c, hc⟩ := Option.isSome_iff_exists.mp (hk.live q hq)
  obtain ⟨e', he', heq⟩ := hkeep q c hq hc
  obtain rfl : e' = e := Option.some.inj (he'.symm.trans he)
  have hlt' : e'.bytes < 2 ^ 32 := by
    rw [heq, hk.bytes hq hc]
    exact u32_lt _
  have hsplit : pos * w = (pos - x.size) * w + x.size * w := by
    rw [← Nat.add_mul, Nat.sub_add_cancel hpos.le]
  omega

/-- Going over to a new buffer, once it is known how it is filled. -/
theorem relocate_spec {fill : Option ℕ → Pool (ℕ × V) → Option (Pool (ℕ × V))}
    {Q : Block (ℕ × V) → Prop} (hf : h.pool.Fresh) (hk : Kept w h.pool x m)
    (hfill : ∀ t' p b, t'.block p = some b → b.bytes = u32 (n * w) →
      (∀ q, x.data = some q → t'.block q = h.pool.block q) → x.data ≠ some p →
      ∃ b', fill (some p) t' = some (t'.set p (some b')) ∧ b'.bytes = u32 (n * w) ∧ Q b') :
    ∃ t p b, relocate w true n fill x h = some (true, { x with data := some p, capacity := n },
        h.withPool t) ∧ t.block p = some b ∧ b.bytes = u32 (n * w) ∧ Q b ∧
      Replaces h.pool t x.data (some p) ∧ x.data ≠ some p := by
  have halloc := Replaces.alloc hf (u32 (n * w))
  have hlt := hk.data_lt hf
  have hne : x.data ≠ some h.pool.allocated := fun hd => (hlt _ hd).false
  obtain ⟨b', hfill', hb', hQ⟩ := hfill (h.pool.alloc true (u32 (n * w))).2 h.pool.allocated
    ⟨u32 (n * w), fun _ => none⟩ (set_block_self _ _ _) rfl
    (fun q hq => set_block_of_ne _ (hlt q hq).ne) hne
  set t₁ := (h.pool.alloc true (u32 (n * w))).2.set h.pool.allocated (some b')
  have hrep : Replaces h.pool t₁ none (some h.pool.allocated) :=
    halloc.writes (writes_set (set_block_self _ _ _))
  have hreloc : relocate w true n fill x h = (freeData x t₁).map fun t =>
      (true, { x with data := some h.pool.allocated, capacity := n }, h.withPool t) := by
    have ha : h.pool.alloc true (u32 (n * w)) =
      (some h.pool.allocated, (h.pool.alloc true (u32 (n * w))).2) := rfl
    rw [relocate, ha]
    simp only [hfill', Option.bind_eq_bind, Option.bind_some]
    cases freeData x t₁ <;> rfl
  cases hd : x.data with
  | none =>
    refine ⟨t₁, h.pool.allocated, b', ?_, set_block_self _ _ _, hb', hQ, hrep, by simp⟩
    simp [hreloc, freeData, hd]
  | some q =>
    have hq : q ≠ h.pool.allocated := (hlt q hd).ne
    obtain ⟨c, hc⟩ := Option.isSome_iff_exists.mp (hk.live q hd)
    have hc₁ : t₁.block q = some c := (hrep.frame q (by simp) (by simpa using hq.symm)).trans hc
    refine ⟨t₁.set q none, h.pool.allocated, b', ?_, ?_, hb', hQ,
      hrep.after (Replaces.refl hrep.fresh ?_).drop (fun _ h => Option.some.inj h ▸ hlt q hd),
      by simpa using hq⟩
    · simp [hreloc, freeData, hd, free_some hc₁]
    · rw [set_block_of_ne _ hq.symm]
      exact set_block_self _ _ _
    · rintro _ ⟨⟩
      simp [hc₁]

/-- A buffer that was relocated was filled. -/
theorem fill_of_relocate {fill : Option ℕ → Pool (ℕ × V) → Option (Pool (ℕ × V))}
    {r : Bool × Vec × Heap V} (hr : relocate w true n fill x h = some r) :
    ∃ s, fill (some h.pool.allocated) (h.pool.alloc true (u32 (n * w))).2 = some s := by
  have ha : h.pool.alloc true (u32 (n * w)) =
    (some h.pool.allocated, (h.pool.alloc true (u32 (n * w))).2) := rfl
  rw [relocate, ha] at hr
  obtain ⟨s, hs, -⟩ := Option.bind_eq_some_iff.mp hr
  exact ⟨s, hs⟩

/-- A larger buffer takes over all elements when it has bytes for them. -/
theorem relocateAll_spec (hw : 0 < w) (hf : h.pool.Fresh) (hk : Kept w h.pool x m)
    (hle : m.elems.length * w ≤ u32 (n * w)) :
    ∃ t p, relocate w true n (copyAll w x) x h =
        some (true, { x with data := some p, capacity := n }, h.withPool t) ∧
      Gap w t (some p) (u32 (n * w)) m.elems [] 0 ∧ Replaces h.pool t x.data (some p) ∧
      x.data ≠ some p := by
  obtain ⟨t, p, b, hr, hb, hbytes, hu, hrep, hne⟩ := relocate_spec (Q := fun b => b.Holds 0 m.elems)
    hf hk fun t' p b hb hbytes hkeep hne => by
      obtain ⟨b', hc, hb', hu⟩ := copyAll_spec hw hk hb (hbytes ▸ hle) hkeep hne
      exact ⟨b', hc, hb'.trans hbytes, hu⟩
  exact ⟨t, p, hr, ⟨by simpa using hle, p, b, rfl, hb, hbytes, hu, holds_nil _ _⟩, hrep, hne⟩

/-- It takes them over only then. -/
theorem fits_of_relocateAll {r : Bool × Vec × Heap V} (hk : Kept w h.pool x m)
    (hr : relocate w true n (copyAll w x) x h = some r) :
    m.elems.length * w ≤ u32 (n * w) := by
  obtain ⟨s, hs⟩ := fill_of_relocate hr
  exact fits_of_copyAll hk (alloc_block _ _) hs

/-- A larger buffer takes over all elements around a gap. -/
theorem relocateAround_spec (hw : 0 < w) (hf : h.pool.Fresh) (hk : Kept w h.pool x m)
    (hpos : pos ≤ m.elems.length) (hle : (m.elems.length + i) * w ≤ u32 (n * w)) :
    ∃ t p, relocate w true n (copyAround w pos i x) x h =
        some (true, { x with data := some p, capacity := n }, h.withPool t) ∧
      Gap w t (some p) (u32 (n * w)) (m.elems.take pos) (m.elems.drop pos) i ∧
      Replaces h.pool t x.data (some p) ∧ x.data ≠ some p := by
  have htake : (m.elems.take pos).length = pos := List.length_take_of_le hpos
  obtain ⟨t, p, b, hr, hb, hbytes, ⟨hu, hv⟩, hrep, hne⟩ := relocate_spec
    (Q := fun b => b.Holds 0 (m.elems.take pos) ∧ b.Holds (pos + i) (m.elems.drop pos))
    hf hk fun t' p b hb hbytes hkeep hne => by
      obtain ⟨b', hc, hb', hu, hv⟩ := copyAround_spec hw hk hb hpos (hbytes ▸ hle) hkeep hne
      exact ⟨b', hc, hb'.trans hbytes, hu, hv⟩
  refine ⟨t, p, hr, ⟨fits_of_le ?_ hle, p, b, rfl, hb, hbytes, hu, by rwa [htake]⟩, hrep, hne⟩
  rw [htake, List.length_drop]
  omega

/-- It has bytes for them and for the gap then. -/
theorem fits_of_relocateAround {r : Bool × Vec × Heap V} (hw : 0 < w) (hk : Kept w h.pool x m)
    (hpos : pos < m.elems.length)
    (hr : relocate w true n (copyAround w pos i x) x h = some r) :
    (m.elems.length + i) * w ≤ u32 (n * w) := by
  obtain ⟨s, hs⟩ := fill_of_relocate hr
  exact fits_of_copyAround hw hk (alloc_block _ _) hpos hs

end Relocation

section Insertion

variable {y : Arg V} {z : V} {q : Option ℕ} {p j : ℕ}

/-- The list after an insertion, in a buffer for `c` elements. -/
def inserted (m : Contents V) (pos c id : ℕ) (xs : List V) : Contents V :=
  ⟨m.elems.take pos ++ numbered id xs ++ m.elems.drop pos, c⟩

/-- An insertion makes the vector longer by what is inserted. -/
theorem inserted_length (hpos : pos ≤ m.elems.length) (id : ℕ) (xs : List V) :
    (inserted m pos c id xs).elems.length = m.elems.length + xs.length := by
  simp only [inserted, List.length_append, List.length_take, List.length_drop, numbered_length]
  omega

/-- What is inserted stands between what was in front of it and behind it. -/
theorem inserted_values (m : Contents V) (pos c id : ℕ) (zs : List V) :
    (inserted m pos c id zs).values = m.values.take pos ++ zs ++ m.values.drop pos := by
  simp [inserted, Contents.values]

/-- A grown capacity is a number of 32 bits. -/
theorem growth_lt (c : ℕ) : growth c < 2 ^ 32 := by
  unfold growth
  split_ifs
  · exact u32_lt _
  · exact u32_lt _
  · decide

/-- A reference that does not lead into the vector. -/
def Apart (x : Vec) (y : Arg V) : Prop := ∀ j, y ≠ .slot x.data j

/-- An argument that is read from a slot is the element there. -/
theorem valueOf_slot (hv : h.valueOf w (.slot q j) = some z) :
    ∃ e, h.pool.read w q j = some (e, z) := by
  obtain ⟨⟨e, z'⟩, he, rfl⟩ := Option.map_eq_some_iff.mp hv
  exact ⟨e, he⟩

/-- What is read elsewhere is read there when the buffer was replaced. -/
theorem read_relocated {e : ℕ × V} (hf : h.pool.Fresh) (hq : q ≠ x.data)
    (hread : h.pool.read w q j = some e) (hrep : Replaces h.pool t x.data (some p)) :
    q ≠ some p ∧ t.read w q j = some e := by
  obtain ⟨p', b, rfl, hb, -⟩ := read_eq_some.mp hread
  obtain ⟨hp, hblock⟩ := hrep.keeps hf (by simp [hb]) (Ne.symm hq)
  exact ⟨Ne.symm hp, (read_congr fun p'' hp'' => by rw [← Option.some.inj hp'', hblock]).trans hread⟩

/-- A reference to something else gives the same in a new buffer. -/
theorem yields_relocated (hf : h.pool.Fresh) (hy : Apart x y)
    (hv : h.valueOf w y = some z) (hrep : Replaces h.pool t x.data (some p)) :
    Yields w t (some p) us y z := by
  cases y with
  | outside z' => exact Option.some.inj hv
  | slot q j =>
    obtain ⟨e, he⟩ := valueOf_slot hv
    obtain ⟨hp, hread⟩ := read_relocated hf (fun hq => hy j (by rw [hq])) he hrep
    exact (if_neg hp).mpr ⟨e, hread⟩

/-- Nothing can be read in a buffer that was freed. -/
theorem read_freed (hrep : Replaces h.pool t x.data (some p)) (hne : x.data ≠ some p) (j : ℕ) :
    t.read w x.data j = none := by
  cases hd : x.data with
  | none => rfl
  | some q =>
    have hgone : t.block q = none := hrep.gone hne.symm q hd
    simp [Pool.read, Pool.deref, hgone]

/-- Nothing is read from a buffer that was freed. -/
theorem valueOf_freed (hrep : Replaces h.pool t x.data (some p)) (hne : x.data ≠ some p) (j : ℕ) :
    (h.withPool t).valueOf w (.slot x.data j) = none := by
  simp [Heap.valueOf, read_freed hrep hne]

/-- The last part of an insertion: one element goes into the gap. -/
theorem place_gap (hw : 0 < w) (hk : Kept w h.pool x m) (hpos : pos ≤ m.elems.length)
    (hrep : Replaces h.pool t x.data d) (hc : c < 2 ^ 32)
    (ho : Gap w t d (u32 (c * w)) (m.elems.take pos) (m.elems.drop pos) 1)
    (hy : (h.withPool t).valueOf w y = some z) :
    ∃ x' h', place w pos y ⟨d, c, x.size⟩ (h.withPool t) = some (x', h') ∧
      Acts w h h' x x' (inserted m pos c h.constructed [z]) 1 [] := by
  have htake : (m.elems.take pos).length = pos := List.length_take_of_le hpos
  obtain ⟨f, hcons, hgap⟩ := Gap.construct (h := h.withPool t) ho y
  rw [hy, Option.map_some, htake] at hcons
  obtain ⟨ho', hwr⟩ := hgap z
  have hacts := acts_of_gap (h := h) (j := 1) hrep hwr (gap_zero.mp ho') hc
  have hlen := inserted_length (c := c) hpos h.constructed [z]
  have hsize : u32 (x.size + 1) = (inserted m pos c h.constructed [z]).elems.length := by
    have hle := hacts.kept.size_lt hw
    rw [hlen, hk.size]
    refine u32_of_lt (lt_of_eq_of_lt ?_ hle)
    simp only [List.length_append, htake, List.length_drop, List.length_singleton]
    omega
  refine ⟨_, _, ?_, hacts⟩
  simp only [place, hcons, Option.bind_eq_bind, Option.bind_some, hsize]
  rfl

/-- An element that was placed had a value and was within the block. -/
theorem place_some {r : Vec × Heap V} (hp : place w pos y x h = some r) :
    ∃ z p b, h.valueOf w y = some z ∧ x.data = some p ∧ h.pool.block p = some b ∧
      (pos + 1) * w ≤ b.bytes := by
  obtain ⟨h₁, hc, -⟩ := Option.bind_eq_some_iff.mp hp
  obtain ⟨z, p, b, hz, hd, hb, hle, -⟩ := construct_some hc
  exact ⟨z, p, b, hz, hd, hb, hle⟩

/-- The same from what was done. -/
theorem place_gap_some (hw : 0 < w) (hk : Kept w h.pool x m) (hpos : pos ≤ m.elems.length)
    (hrep : Replaces h.pool t x.data d) (hc : c < 2 ^ 32)
    (ho : Gap w t d (u32 (c * w)) (m.elems.take pos) (m.elems.drop pos) 1)
    (hp : place w pos y ⟨d, c, x.size⟩ (h.withPool t) = some (x', h')) :
    ∃ z, (h.withPool t).valueOf w y = some z ∧
      Acts w h h' x x' (inserted m pos c h.constructed [z]) 1 [] := by
  obtain ⟨z, -, -, hz, -⟩ := place_some hp
  obtain ⟨x₁, h₁, hp₁, hacts⟩ := place_gap hw hk hpos hrep hc ho hz
  obtain ⟨rfl, rfl⟩ : x₁ = x' ∧ h₁ = h' := by simpa [hp₁] using hp
  exact ⟨z, hz, hacts⟩

/-- How an insertion of one element at a position ends. -/
inductive Inserted (w : ℕ) (ok : Bool) (h : Heap V) (x : Vec) (m : Contents V) (pos : ℕ)
    (y : Arg V) : Bool × Vec × Heap V → Prop where
  /-- The pool refused a larger buffer. -/
  | refused (hroom : ¬x.size < x.capacity) (hok : ok = false) : Inserted w ok h x m pos y (false, x, h)
  /-- The element went into the old buffer, which is not reported. -/
  | inPlace (z : V) (x' : Vec) (h' : Heap V) (hroom : x.size < x.capacity)
    (hfits : (m.elems.length + 1) * w ≤ u32 (m.capacity * w))
    (hacts : Acts w h h' x x' (inserted m pos m.capacity h.constructed [z]) 1 []) :
    Inserted w ok h x m pos y (false, x', h')
  /-- The element went into a new buffer. -/
  | grown (z : V) (x' : Vec) (h' : Heap V) (hroom : ¬x.size < x.capacity) (hok : ok = true)
    (hfits : (m.elems.length + 1) * w ≤ u32 (growth m.capacity * w)) (hapart : Apart x y)
    (hacts : Acts w h h' x x' (inserted m pos (growth m.capacity) h.constructed [z]) 1 []) :
    Inserted w ok h x m pos y (true, x', h')

/-- With room `push_back` constructs in place, and returns `false`. -/
theorem pushBack_room (hroom : x.size < x.capacity) :
    pushBack w ok y x h = (place w x.size y x h).map fun r => (false, r) := by
  rw [pushBack, if_pos hroom]
  cases place w x.size y x h <;> rfl

/-- The rest of an insertion after a buffer was asked for. -/
def placeThere (put : Vec → Heap V → Option (Vec × Heap V)) (r : Bool × Vec × Heap V) :
    Option (Bool × Vec × Heap V) :=
  if r.1 then (put r.2.1 r.2.2).map fun r => (true, r) else some (false, r.2)

/-- Without room it goes over to a larger buffer first. -/
theorem pushBack_full (hw : 0 < w) (hk : Kept w t x m) (hroom : ¬x.size < x.capacity) :
    pushBack w ok y x h = (relocate w ok (growth m.capacity) (copyAll w x) x h).bind
      (placeThere fun v h => place w v.size y v h) := by
  rw [pushBack, if_neg hroom, if_pos (hk.full hw hroom).symm, hk.capacity]
  refine congrArg _ (funext fun r => ?_)
  obtain ⟨there, v, h⟩ := r
  cases there
  · rfl
  · cases hp : place w v.size y v h <;> simp [placeThere, hp]

/-- An element goes behind the others when there are bytes for it. -/
theorem pushBack_inPlace (hw : 0 < w) (hf : h.pool.Fresh) (hk : Kept w h.pool x m)
    (hroom : x.size < x.capacity) (hfits : (m.elems.length + 1) * w ≤ u32 (m.capacity * w))
    (hy : Yields w h.pool x.data m.elems y z) (ok : Bool) :
    ∃ x' h', pushBack w ok y x h = some (false, x', h') ∧
      Acts w h h' x x' (inserted m m.elems.length m.capacity h.constructed [z]) 1 [] := by
  have hd : x.data.isSome := hk.data_isSome fun hz => by
    rw [hk.capacity] at hroom
    omega
  have ho := hk.gap hd hfits
  have ho' : Gap w h.pool x.data (u32 (m.capacity * w)) (m.elems.take m.elems.length)
      (m.elems.drop m.elems.length) 1 := by simpa using ho
  obtain ⟨x', h', hp, hacts⟩ := place_gap (h := h) hw hk le_rfl (hk.replaces hf) hk.lt ho'
    (hy.valueOf ho)
  rw [hk.size, vec_eta hk] at hp
  refine ⟨x', h', ?_, hacts⟩
  rw [pushBack_room hroom, hk.size, show h = h.withPool h.pool from rfl, hp]
  rfl

/-- An element goes behind the others in a new buffer. -/
theorem pushBack_grown (hw : 0 < w) (hf : h.pool.Fresh) (hk : Kept w h.pool x m)
    (hroom : ¬x.size < x.capacity)
    (hfits : (m.elems.length + 1) * w ≤ u32 (growth m.capacity * w)) (hy : Apart x y)
    (hv : h.valueOf w y = some z) :
    ∃ x' h', pushBack w true y x h = some (true, x', h') ∧
      Acts w h h' x x' (inserted m m.elems.length (growth m.capacity) h.constructed [z]) 1 [] := by
  obtain ⟨t, p, hr, ho, hrep, -⟩ := relocateAll_spec (n := growth m.capacity) hw hf hk
    (fits_of_le (by omega) hfits)
  have ho₁ := ho.rest hfits
  have ho' : Gap w t (some p) (u32 (growth m.capacity * w)) (m.elems.take m.elems.length)
      (m.elems.drop m.elems.length) 1 := by simpa using ho₁
  have hyt : Yields w (h.withPool t).pool (some p) m.elems y z := yields_relocated hf hy hv hrep
  obtain ⟨x', h', hp, hacts⟩ := place_gap (h := h) hw hk le_rfl hrep (growth_lt _) ho'
    (hyt.valueOf ho₁)
  refine ⟨x', h', ?_, hacts⟩
  rw [pushBack_full hw hk hroom, hr, Option.bind_some]
  rw [← hk.size] at hp
  simp only [placeThere, if_true, hp, Option.map_some]

/-- How `push_back` ends. -/
theorem pushBack_some {r : Bool × Vec × Heap V} (hw : 0 < w) (hf : h.pool.Fresh)
    (hk : Kept w h.pool x m) (hr : pushBack w ok y x h = some r) :
    Inserted w ok h x m m.elems.length y r := by
  by_cases hroom : x.size < x.capacity
  · rw [pushBack_room hroom] at hr
    obtain ⟨⟨x', h'⟩, hp, rfl⟩ := Option.map_eq_some_iff.mp hr
    obtain ⟨z, p, b, -, hd, hb, hle⟩ := place_some hp
    have hfits : (m.elems.length + 1) * w ≤ u32 (m.capacity * w) := by
      rw [← hk.bytes hd hb, ← hk.size]
      exact hle
    obtain ⟨z, -, hacts⟩ := place_gap_some (t := h.pool) hw hk le_rfl (hk.replaces hf) hk.lt
      (by simpa using hk.gap (by simp [hd]) hfits) (by rw [← hk.size, ← hk.capacity]; exact hp)
    exact .inPlace z x' h' hroom hfits hacts
  · rw [pushBack_full hw hk hroom] at hr
    cases ok with
    | false =>
      obtain rfl := Option.some.inj hr
      exact .refused hroom rfl
    | true =>
      obtain ⟨r', hreloc, hr⟩ := Option.bind_eq_some_iff.mp hr
      obtain ⟨t, p, hreloc', ho, hrep, hne⟩ :=
        relocateAll_spec hw hf hk (fits_of_relocateAll hk hreloc)
      obtain rfl := Option.some.inj (hreloc'.symm.trans hreloc)
      obtain ⟨⟨x', h'⟩, hp, rfl⟩ := Option.map_eq_some_iff.mp hr
      obtain ⟨z, q, b, hz, hd, hb, hle⟩ := place_some hp
      have hfits : (m.elems.length + 1) * w ≤ u32 (growth m.capacity * w) := by
        rw [← ho.bytes_eq hd hb, ← hk.size]
        exact hle
      have hapart : Apart x y := by
        rintro j rfl
        simp [valueOf_freed hrep hne] at hz
      obtain ⟨z, -, hacts⟩ := place_gap_some (t := t) hw hk le_rfl hrep (growth_lt _)
        (by simpa using ho.rest hfits) (by rw [← hk.size]; exact hp)
      exact .grown z x' h' hroom rfl hfits hapart hacts

variable {onto : V → Option V}

/-- A reference to something else than the slot is read as it is. -/
theorem placeOnto_eq (hy : y ≠ .slot x.data pos) : placeOnto w onto pos y x h = place w pos y x h := by
  cases y with
  | outside z => rfl
  | slot q j =>
    have hne : ¬(q = x.data ∧ j = pos) := by
      rintro ⟨rfl, rfl⟩
      exact hy rfl
    rw [placeOnto, if_neg hne]

/-- A construction reads its argument. -/
theorem placeOnto_some {r : Vec × Heap V} (hp : placeOnto w onto pos y x h = some r) :
    (∃ y', place w pos y' x h = some r) ∧ ∃ z, h.valueOf w y = some z := by
  cases y with
  | outside z => exact ⟨⟨_, hp⟩, z, rfl⟩
  | slot q j =>
    unfold placeOnto at hp
    dsimp only at hp
    split at hp
    · obtain ⟨z, hz, hp⟩ := Option.bind_eq_some_iff.mp hp
      obtain ⟨z', -, hp⟩ := Option.bind_eq_some_iff.mp hp
      exact ⟨⟨_, hp⟩, z, hz⟩
    · obtain ⟨z, p, b, hz, -⟩ := place_some hp
      exact ⟨⟨_, hp⟩, z, hz⟩

/-- Behind the end nothing is inserted. -/
theorem insertArg_behind (hpos : x.size < pos) :
    insertArg w onto ok pos y x h = some (false, x, h) := by
  rw [insertArg, if_pos hpos]
  rfl

/-- At the end `insert` is `push_back`. -/
theorem insertArg_end (hk : Kept w t x m) :
    insertArg w onto ok m.elems.length y x h = pushBack w ok y x h := by
  rw [insertArg, if_neg (by rw [hk.size]; omega), if_pos hk.size.symm]

/-- Elements behind the position are moved by one slot and the one there stays
readable; then the new one is constructed. -/
theorem insertArg_room (onto : V → Option V) (ok : Bool) (y : Arg V) (hw : 0 < w)
    (hk : Kept w h.pool x m) (hpos : pos < m.elems.length) (hroom : x.size < x.capacity)
    (hfits : (m.elems.length + 1) * w ≤ u32 (m.capacity * w)) :
    ∃ t, Writes h.pool t x.data ∧
      Gap w t x.data (u32 (m.capacity * w)) (m.elems.take pos) (m.elems.drop pos) 1 ∧
      t.read w x.data pos = some m.elems[pos] ∧
      insertArg w onto ok pos y x h =
        (placeOnto w onto pos y x (h.withPool t)).map fun r => (false, r) := by
  have htake : (m.elems.take pos).length = pos := List.length_take_of_le hpos.le
  have hdrop : (m.elems.drop pos).length = m.elems.length - pos := List.length_drop
  have hd : x.data.isSome := hk.data_isSome fun hz => by
    rw [hk.capacity] at hroom
    omega
  have ho : Gap w h.pool x.data (u32 (m.capacity * w)) (m.elems.take pos) (m.elems.drop pos) 0 := by
    rw [gap_zero, List.take_append_drop]
    exact hk.gap hd (by simpa using hk.fits)
  obtain ⟨t, hm, ho', hwr⟩ := ho.shift (i := 1) hw (fits_of_le (by omega) hfits)
  simp only [htake, Nat.add_zero] at hm
  refine ⟨t, hwr, ho', ?_, ?_⟩
  · -- the first moved slot is behind `pos`
    have hread := hk.reads hw pos hpos
    rwa [Nat.zero_add, ← read_of_move hm (Nat.lt_succ_self pos)] at hread
  · have hle : ¬x.size < pos := by
      rw [hk.size]
      omega
    have hne : pos ≠ x.size := by
      rw [hk.size]
      omega
    rw [insertArg, if_neg hle, if_neg hne, if_pos hroom, hk.tail_eq hw hpos.le, Nat.mul_comm w,
      hk.bytes_eq (by omega), hm]
    simp only [Option.bind_eq_bind, Option.bind_some]
    cases placeOnto w onto pos y x (h.withPool t) <;> rfl

/-- Placing an element in the gap that a move within the buffer opened. -/
theorem place_room {t : Pool (ℕ × V)} {y : Arg V} {z : V} (hw : 0 < w) (hf : h.pool.Fresh)
    (hk : Kept w h.pool x m) (hpos : pos ≤ m.elems.length) (hwr : Writes h.pool t x.data)
    (ho : Gap w t x.data (u32 (m.capacity * w)) (m.elems.take pos) (m.elems.drop pos) 1)
    (hy : (h.withPool t).valueOf w y = some z) :
    ∃ x' h', place w pos y x (h.withPool t) = some (x', h') ∧
      Acts w h h' x x' (inserted m pos m.capacity h.constructed [z]) 1 [] := by
  have hplace := place_gap hw hk hpos ((hk.replaces hf).writes hwr) hk.lt ho hy
  rwa [hk.size, vec_eta hk] at hplace

/-- A value of the caller goes in front of others in the same buffer. -/
theorem insertArg_value (onto : V → Option V) (hw : 0 < w) (hf : h.pool.Fresh)
    (hk : Kept w h.pool x m) (hpos : pos ≤ m.elems.length) (hroom : x.size < x.capacity)
    (hfits : (m.elems.length + 1) * w ≤ u32 (m.capacity * w)) (ok : Bool) (z : V) :
    ∃ x' h', insertArg w onto ok pos (.outside z) x h = some (false, x', h') ∧
      Acts w h h' x x' (inserted m pos m.capacity h.constructed [z]) 1 [] := by
  rcases hpos.eq_or_lt with rfl | hmid
  · rw [insertArg_end hk]
    exact pushBack_inPlace hw hf hk hroom hfits (y := .outside z) rfl ok
  · obtain ⟨t, hwr, ho, -, hins⟩ :=
      insertArg_room onto ok (.outside z) hw hk hmid hroom hfits
    obtain ⟨x', h', hp, hacts⟩ := place_room (y := .outside z) hw hf hk hpos hwr ho rfl
    refine ⟨x', h', ?_, hacts⟩
    rw [hins, placeOnto, hp]
    rfl

/-- A tail that was moved stayed within the buffer. -/
theorem fits_of_insertArg {r : Bool × Vec × Heap V} (hw : 0 < w) (hk : Kept w h.pool x m)
    (hpos : pos < m.elems.length) (hroom : x.size < x.capacity)
    (hr : insertArg w onto ok pos y x h = some r) :
    (m.elems.length + 1) * w ≤ u32 (m.capacity * w) := by
  have hle : ¬x.size < pos := by
    rw [hk.size]
    omega
  have hne : pos ≠ x.size := by
    rw [hk.size]
    omega
  rw [insertArg, if_neg hle, if_neg hne, if_pos hroom, hk.tail_eq hw hpos.le, Nat.mul_comm w,
    hk.bytes_eq (by rw [List.length_drop]; omega)] at hr
  obtain ⟨t, hm, -⟩ := Option.bind_eq_some_iff.mp hr
  have hdrop : (m.elems.drop pos).length = m.elems.length - pos := List.length_drop
  obtain ⟨p, b, -, -, hp, hb, -, -, hfits, -⟩ :=
    move_eq_some (Nat.mul_ne_zero (by omega) (by omega)) hm
  rw [← Nat.add_mul, hk.bytes hp hb] at hfits
  exact fits_of_le (by omega) hfits

/-- Without room `insert` goes over to a larger buffer with a gap first. -/
theorem insertArg_full (hw : 0 < w) (hk : Kept w t x m) (hpos : pos < m.elems.length)
    (hroom : ¬x.size < x.capacity) :
    insertArg w onto ok pos y x h =
      (relocate w ok (growth m.capacity) (copyAround w pos 1 x) x h).bind
        (placeThere fun v h => placeOnto w onto pos y v h) := by
  have hle : ¬x.size < pos := by
    rw [hk.size]
    omega
  have hne : pos ≠ x.size := by
    rw [hk.size]
    omega
  rw [insertArg, if_neg hle, if_neg hne, if_neg hroom, if_pos (hk.full hw hroom), hk.capacity]
  refine congrArg _ (funext fun r => ?_)
  obtain ⟨there, v, h⟩ := r
  cases there
  · rfl
  · cases hp : placeOnto w onto pos y v h <;> simp [placeThere, hp]

/-- A full vector that gets no larger buffer. -/
theorem insertArg_refused (hw : 0 < w) (hk : Kept w h.pool x m)
    (hpos : pos ≤ m.elems.length) (hroom : ¬x.size < x.capacity) :
    insertArg w onto false pos y x h = some (false, x, h) := by
  rcases hpos.eq_or_lt with rfl | hmid
  · rw [insertArg_end hk, pushBack_full hw hk hroom]
    rfl
  · rw [insertArg_full hw hk hmid hroom]
    rfl

/-- An element goes in front of others in a new buffer. -/
theorem insertArg_grown (onto : V → Option V) (hw : 0 < w) (hf : h.pool.Fresh) (hk : Kept w h.pool x m)
    (hpos : pos ≤ m.elems.length) (hroom : ¬x.size < x.capacity)
    (hfits : (m.elems.length + 1) * w ≤ u32 (growth m.capacity * w)) (hy : Apart x y)
    (hv : h.valueOf w y = some z) :
    ∃ x' h', insertArg w onto true pos y x h = some (true, x', h') ∧
      Acts w h h' x x' (inserted m pos (growth m.capacity) h.constructed [z]) 1 [] := by
  rcases hpos.eq_or_lt with rfl | hmid
  · rw [insertArg_end hk]
    exact pushBack_grown hw hf hk hroom hfits hy hv
  obtain ⟨t, p, hr, ho, hrep, -⟩ := relocateAround_spec (n := growth m.capacity) hw hf hk hpos hfits
  have hyt : Yields w (h.withPool t).pool (some p) (m.elems.take pos) y z :=
    yields_relocated hf hy hv hrep
  obtain ⟨x', h', hp, hacts⟩ := place_gap (h := h) hw hk hpos hrep (growth_lt _) ho (hyt.valueOf ho)
  have hne : y ≠ .slot (some p) pos := by
    rintro rfl
    -- the new block was not there before
    obtain ⟨e, he⟩ := valueOf_slot hv
    obtain ⟨p', b, hp', hb, -⟩ := read_eq_some.mp he
    obtain ⟨hpp, -⟩ := hrep.keeps (q := p) hf (by simp [Option.some.inj hp' ▸ hb])
      fun hd => hy pos (by rw [hd])
    exact hpp rfl
  refine ⟨x', h', ?_, hacts⟩
  rw [insertArg_full hw hk hmid hroom, hr, Option.bind_some]
  simp only [placeThere, if_true, placeOnto_eq (x := ⟨some p, growth m.capacity, x.size⟩) hne, hp,
    Option.map_some]

/-- How `insert` of one element ends, at a position that there is. -/
theorem insertArg_some {r : Bool × Vec × Heap V} (hw : 0 < w) (hf : h.pool.Fresh)
    (hk : Kept w h.pool x m) (hpos : pos ≤ m.elems.length)
    (hr : insertArg w onto ok pos y x h = some r) : Inserted w ok h x m pos y r := by
  rcases hpos.eq_or_lt with rfl | hmid
  · rw [insertArg_end hk] at hr
    exact pushBack_some hw hf hk hr
  by_cases hroom : x.size < x.capacity
  · have hfits := fits_of_insertArg hw hk hmid hroom hr
    obtain ⟨t, hwr, ho, -, hins⟩ := insertArg_room onto ok y hw hk hmid
      hroom hfits
    rw [hins] at hr
    obtain ⟨⟨x', h'⟩, hp, rfl⟩ := Option.map_eq_some_iff.mp hr
    obtain ⟨⟨y', hp⟩, -⟩ := placeOnto_some hp
    obtain ⟨z, -, hacts⟩ := place_gap_some (t := t) hw hk hpos ((hk.replaces hf).writes hwr) hk.lt
      ho (by rw [hk.size, vec_eta hk]; exact hp)
    exact .inPlace z x' h' hroom hfits hacts
  · rw [insertArg_full hw hk hmid hroom] at hr
    cases ok with
    | false =>
      obtain rfl := Option.some.inj hr
      exact .refused hroom rfl
    | true =>
      obtain ⟨r', hreloc, hr⟩ := Option.bind_eq_some_iff.mp hr
      have hfits := fits_of_relocateAround hw hk hmid hreloc
      obtain ⟨t, p, hreloc', ho, hrep, hne⟩ := relocateAround_spec hw hf hk hpos hfits
      obtain rfl := Option.some.inj (hreloc'.symm.trans hreloc)
      obtain ⟨⟨x', h'⟩, hp, rfl⟩ := Option.map_eq_some_iff.mp hr
      obtain ⟨⟨y', hp⟩, z, hz⟩ := placeOnto_some hp
      have hapart : Apart x y := by
        rintro j rfl
        simp [valueOf_freed hrep hne] at hz
      obtain ⟨z, -, hacts⟩ := place_gap_some (t := t) hw hk hpos hrep (growth_lt _) ho hp
      exact .grown z x' h' hroom rfl hfits hapart hacts

end Insertion

section Ranges

variable {ys : List (Item V)} {p j range ns : ℕ} {r : Bool × Vec × Heap V}

/-- The capacity that an insertion of so many elements asks for. -/
def rangeCount (x : Vec) (n : ℕ) : ℕ :=
  if growth x.capacity < u32 (x.size + u32 n) then u32 (x.size + u32 n) else growth x.capacity

/-- The size to come is a number of 32 bits. -/
theorem rangeCount_lt (x : Vec) (n : ℕ) : rangeCount x n < 2 ^ 32 := by
  unfold rangeCount
  split_ifs
  · exact u32_lt _
  · exact growth_lt _

/-- A larger buffer that is refused leaves the vector. -/
theorem makeRoom_refused (hlt : x.capacity < ns) :
    makeRoom w false ns pos range x h = some (false, x, h) := by
  rw [makeRoom, if_pos hlt]
  rfl

/-- What a reference will lead to, from what it is before the insertion: a value
elsewhere, or a slot of the vector's own buffer. A pointer into a buffer that is
replaced leads nowhere. -/
def Foresees (w : ℕ) (h : Heap V) (x : Vec) (m : Contents V) (moved : Prop) :
    Item V → Sight V → Prop
  | .arg (.outside z), .value z' => z = z'
  | .arg (.slot q j), .value z => q ≠ x.data ∧ ∃ e, h.pool.read w q j = some (e, z)
  | .arg (.slot q _), .gone => moved ∧ q = x.data
  | .arg (.slot q j), .slot k => ¬moved ∧ q = x.data ∧ j = k ∧ j < m.elems.length
  | .own j, .slot k => j = k ∧ j < m.elems.length
  | _, _ => False

/-- What was foreseen for a new buffer is seen in it. -/
theorem Foresees.relocated {y : Item V} {e : Sight V} {moved : Prop} (hf : h.pool.Fresh)
    (hy : Foresees w h x m moved y e) (hmoved : moved) (hrep : Replaces h.pool t x.data (some p))
    (hne : x.data ≠ some p) : Sees w t (some p) m.elems.length (y.read (some p)) e := by
  match y, e, hy with
  | .arg (.outside _), .value _, hz => exact hz
  | .arg (.slot q j), .value z, ⟨hq, e, he⟩ =>
    obtain ⟨hp, hread⟩ := read_relocated hf hq he hrep
    exact ⟨hp, e, hread⟩
  | .arg (.slot q j), .gone, ⟨_, hq⟩ => exact ⟨hq ▸ hne, hq ▸ read_freed hrep hne j⟩
  | .arg (.slot _ _), .slot _, ⟨hno, _⟩ => exact absurd hmoved hno
  | .own j, .slot _, ⟨hk, hlt⟩ => exact ⟨rfl, hk, hlt⟩

/-- What was foreseen for the old buffer is seen in it. -/
theorem Foresees.moved {y : Item V} {e : Sight V} {moved : Prop}
    (hy : Foresees w h x m moved y e) (hstay : ¬moved) (hwr : Writes h.pool t x.data) :
    Sees w t x.data m.elems.length (y.read x.data) e := by
  match y, e, hy with
  | .arg (.outside _), .value _, hz => exact hz
  | .arg (.slot q j), .value z, ⟨hq, e, he⟩ => exact ⟨hq, e, (read_frame hwr hq j).trans he⟩
  | .arg (.slot q j), .gone, ⟨hmoved, _⟩ => exact absurd hmoved hstay
  | .arg (.slot _ _), .slot _, ⟨_, hq, hk, hlt⟩ => exact ⟨hq, hk, hlt⟩
  | .own j, .slot _, ⟨hk, hlt⟩ => exact ⟨rfl, hk, hlt⟩

/-- What lies in the slots for a range: nothing in a new buffer, and the old
elements in the one where they were. -/
def leftIn (moved : Prop) [Decidable moved] (zs : List V) (k : ℕ) : Option V :=
  if moved then none else zs[k]?

/-- A freed buffer is not the new one. -/
theorem read_freeData {s s' : Pool (ℕ × V)} (hfree : freeData x s = some s') (hne : x.data ≠ some p) :
    s'.read w (some p) j = s.read w (some p) j := by
  unfold freeData at hfree
  split at hfree
  · obtain ⟨⟨q, c⟩, hq, rfl⟩ := Option.map_eq_some_iff.mp hfree
    have hqp : p ≠ q := fun he => hne (he ▸ (deref_eq_some.mp hq).1)
    simp [Pool.read, Pool.deref, set_block_of_ne _ hqp]
  · rw [Option.some.inj hfree]

/-- A new buffer has nothing in the slots that a copy left free. -/
theorem hole_relocated {hole : ℕ → Option V} (hw : 0 < w) (hf : h.pool.Fresh)
    (hk : Kept w h.pool x m) (hpos : pos ≤ m.elems.length)
    (hr : relocate w true n (copyAround w pos i x) x h = some (true, x', h.withPool t))
    (hnone : ∀ k, hole k = none) : Hole w t x'.data pos i hole m.elems.length := by
  intro k hle hlt _
  have ha : h.pool.alloc true (u32 (n * w)) =
    (some h.pool.allocated, (h.pool.alloc true (u32 (n * w))).2) := rfl
  rw [relocate, ha] at hr
  obtain ⟨s, hs, hr⟩ := Option.bind_eq_some_iff.mp hr
  obtain ⟨s', hfree, hr⟩ := Option.bind_eq_some_iff.mp hr
  obtain ⟨s₁, hs₁, hs⟩ := Option.bind_eq_some_iff.mp hs
  have hx : x'.data = some h.pool.allocated := by
    rw [← (Prod.mk.inj (Prod.mk.inj (Option.some.inj hr)).2).1]
  have ht : t = s' := congrArg Heap.pool (Prod.mk.inj (Prod.mk.inj (Option.some.inj hr)).2).2.symm
  rw [hk.bytes_eq hpos] at hs₁
  rw [hx, ht, read_freeData hfree fun hd => (hk.data_lt hf _ hd).false,
    read_of_move (move_of_copy hs) hlt, read_behind_move hw (move_of_copy hs₁) (by omega), hnone]
  simp [Pool.read, Pool.deref, alloc_block]

/-- Room for a range, in a new buffer or in the old one. -/
theorem makeRoom_spec (hw : 0 < w) (hf : h.pool.Fresh) (hk : Kept w h.pool x m)
    (hpos : pos ≤ m.elems.length) (hd : m.capacity < ns ∨ m.capacity ≠ 0)
    (hok : m.capacity < ns → ok = true)
    (hfits : (m.elems.length + range) * w ≤ u32 (max m.capacity ns * w)) :
    ∃ t d, makeRoom w ok ns pos range x h =
        some (true, ⟨d, max m.capacity ns, x.size⟩, h.withPool t) ∧
      Gap w t d (u32 (max m.capacity ns * w)) (m.elems.take pos) (m.elems.drop pos) range ∧
      Replaces h.pool t x.data d ∧
      Hole w t d pos range (leftIn (m.capacity < ns) m.values) m.elems.length ∧
      ∀ y e, Foresees w h x m (m.capacity < ns) y e → Sees w t d m.elems.length (y.read d) e := by
  have htake : (m.elems.take pos).length = pos := List.length_take_of_le hpos
  have hdrop : (m.elems.drop pos).length = m.elems.length - pos := List.length_drop
  by_cases hlt : m.capacity < ns
  · rw [max_eq_right hlt.le] at hfits ⊢
    obtain ⟨t, p, hr, ho, hrep, hne⟩ := relocateAround_spec hw hf hk hpos hfits
    refine ⟨t, some p, ?_, ho, hrep, hole_relocated hw hf hk hpos hr fun k => if_pos hlt,
      fun y e hy => hy.relocated hf hlt hrep hne⟩
    rw [makeRoom, if_pos (by rwa [hk.capacity]), hok hlt]
    exact hr
  · have hsome : x.data.isSome := hk.data_isSome (hd.resolve_left hlt)
    rw [max_eq_left (not_lt.mp hlt)] at hfits ⊢
    have ho : Gap w h.pool x.data (u32 (m.capacity * w)) (m.elems.take pos) (m.elems.drop pos) 0 := by
      rw [gap_zero, List.take_append_drop]
      exact hk.gap hsome (by simpa using hk.fits)
    obtain ⟨t, hm, ho', hwr⟩ := ho.shift (i := range) hw (fits_of_le (by omega) hfits)
    simp only [htake, Nat.add_zero] at hm
    refine ⟨t, x.data, ?_, ho', (hk.replaces hf).writes hwr, fun k _ hk' hlen => ?_,
      fun y e hy => hy.moved hlt hwr⟩
    · rw [makeRoom, if_neg (by rwa [hk.capacity]), hk.tail_eq hw hpos, hk.bytes_eq (by omega), hm,
        ← hk.capacity]
      rfl
    · have hread := hk.reads hw k hlen
      rw [Nat.zero_add] at hread
      rw [read_of_move hm hk', hread, leftIn, if_neg hlt]
      simp [Contents.values, hlen]

/-- The buffer after room was made has the bytes that were asked for it. -/
theorem bytes_of_makeRoom (hf : h.pool.Fresh) (hk : Kept w h.pool x m)
    (hm : makeRoom w ok ns pos range x h = some (true, r.2)) :
    r.2.1.size = x.size ∧ ∀ p b, r.2.1.data = some p → r.2.2.pool.block p = some b →
      b.bytes = u32 (max m.capacity ns * w) := by
  by_cases hlt : x.capacity < ns
  · have hlt' : m.capacity < ns := by rwa [← hk.capacity]
    rw [makeRoom, if_pos hlt] at hm
    cases ok with
    | false => exact absurd (congrArg (fun o => o.map Prod.fst) hm) (by simp [relocate, Pool.alloc])
    | true =>
      have ha : h.pool.alloc true (u32 (ns * w)) =
        (some h.pool.allocated, (h.pool.alloc true (u32 (ns * w))).2) := rfl
      rw [relocate, ha] at hm
      obtain ⟨s, hs, hm⟩ := Option.bind_eq_some_iff.mp hm
      obtain ⟨s', hs', hm⟩ := Option.bind_eq_some_iff.mp hm
      obtain ⟨s₁, hc₁, hc₂⟩ := Option.bind_eq_some_iff.mp hs
      obtain ⟨b₁, hb₁, hbytes₁⟩ := bytes_of_move (move_of_copy hc₁) (alloc_block h.pool _)
      obtain ⟨b₂, hb₂, hbytes₂⟩ := bytes_of_move (move_of_copy hc₂) hb₁
      have hr := (Prod.mk.inj (Option.some.inj hm)).2
      rw [← hr, max_eq_right hlt'.le]
      refine ⟨rfl, fun p b hp hb => ?_⟩
      obtain rfl := Option.some.inj hp
      have hblock : s'.block h.pool.allocated = some b₂ := by
        unfold freeData at hs'
        split at hs'
        · obtain ⟨⟨q, c⟩, hq, rfl⟩ := Option.map_eq_some_iff.mp hs'
          have hlt := hk.data_lt hf q (deref_eq_some.mp hq).1
          rw [set_block_of_ne _ hlt.ne', hb₂]
        · rw [← Option.some.inj hs', hb₂]
      obtain rfl : b₂ = b := Option.some.inj (hblock.symm.trans hb)
      rw [hbytes₂, hbytes₁]
  · rw [makeRoom, if_neg hlt] at hm
    obtain ⟨s, hs, hr⟩ := Option.map_eq_some_iff.mp hm
    have hr := (Prod.mk.inj hr).2
    rw [← hr, max_eq_left (by rw [← hk.capacity]; exact not_lt.mp hlt)]
    refine ⟨rfl, fun p b hp hb => ?_⟩
    rcases hk.buffer with ⟨hn, -⟩ | ⟨q, c, hq, hc, hbytes, -⟩
    · simp [hn] at hp
    · obtain rfl : q = p := Option.some.inj (hq.symm.trans hp)
      obtain ⟨c', hc', hbytes'⟩ := bytes_of_move hs hc
      obtain rfl : c' = b := Option.some.inj (hc'.symm.trans hb)
      rw [hbytes', hbytes]

/-- No room is made behind the end. -/
theorem pos_le_of_makeRoom (hw : 0 < w) (hf : h.pool.Fresh) (hk : Kept w h.pool x m)
    (hlt : pos * w < 2 ^ 32) (hm : makeRoom w ok ns pos range x h = some (true, r.2)) :
    pos ≤ m.elems.length := by
  by_contra hpos
  have hpos' : x.size < pos := by
    rw [hk.size]
    omega
  by_cases hns : x.capacity < ns
  · rw [makeRoom, if_pos hns] at hm
    cases ok with
    | false => exact absurd (congrArg (fun o => o.map Prod.fst) hm) (by simp [relocate, Pool.alloc])
    | true =>
      obtain ⟨s, hs⟩ := fill_of_relocate hm
      obtain ⟨s₁, hc₁, hc₂⟩ := Option.bind_eq_some_iff.mp hs
      refine no_tail_of_move hw hk hpos' hlt (fun q c hq hc => ?_) (move_of_copy hc₂)
      have hc₀ : (h.pool.alloc true (u32 (ns * w))).2.block q = some c :=
        (set_block_of_ne _ (hk.data_lt hf q hq).ne).trans hc
      obtain ⟨e, he, hbytes⟩ := bytes_of_move (move_of_copy hc₁) hc₀
      exact ⟨e, he, hbytes⟩
  · rw [makeRoom, if_neg hns] at hm
    obtain ⟨s, hs, -⟩ := Option.map_eq_some_iff.mp hm
    exact no_tail_of_move hw hk hpos' hlt (fun q c _ hc => ⟨c, hc, rfl⟩) hs

/-- With a granted buffer, or without a need for one, there is room. -/
theorem makeRoom_there (hok : x.capacity < ns → ok = true)
    (hm : makeRoom w ok ns pos range x h = some r) : r.1 = true := by
  by_cases hns : x.capacity < ns
  · obtain rfl := hok hns
    have ha : h.pool.alloc true (u32 (ns * w)) =
      (some h.pool.allocated, (h.pool.alloc true (u32 (ns * w))).2) := rfl
    rw [makeRoom, if_pos hns, relocate, ha] at hm
    obtain ⟨s, -, hm⟩ := Option.bind_eq_some_iff.mp hm
    obtain ⟨s', -, hm⟩ := Option.bind_eq_some_iff.mp hm
    rw [← Option.some.inj hm]
  · rw [makeRoom, if_neg hns] at hm
    obtain ⟨s, -, rfl⟩ := Option.map_eq_some_iff.mp hm
    rfl

/-- A tail that was moved behind the room for a range is within the buffer. -/
theorem fits_of_makeRoom (hw : 0 < w) (hk : Kept w h.pool x m) (hpos : pos < m.elems.length)
    (hok : x.capacity < ns → ok = true) (hm : makeRoom w ok ns pos range x h = some r) :
    (m.elems.length + range) * w ≤ u32 (max m.capacity ns * w) := by
  by_cases hns : x.capacity < ns
  · obtain rfl := hok hns
    rw [makeRoom, if_pos hns] at hm
    rw [max_eq_right (by rw [← hk.capacity]; exact hns.le)]
    exact fits_of_relocateAround hw hk hpos hm
  · have hdrop : (m.elems.drop pos).length = m.elems.length - pos := List.length_drop
    rw [makeRoom, if_neg hns, hk.tail_eq hw hpos.le, hk.bytes_eq (by omega)] at hm
    obtain ⟨s, hs, -⟩ := Option.map_eq_some_iff.mp hm
    obtain ⟨p, b, -, -, hp, hb, -, -, hfits, -⟩ :=
      move_eq_some (Nat.mul_ne_zero (by omega) (by omega)) hs
    rw [← Nat.add_mul, hk.bytes hp hb] at hfits
    rw [max_eq_left (by rw [← hk.capacity]; exact not_lt.mp hns)]
    exact fits_of_le (by omega) hfits

/-- A vector without a buffer asks for more than it has. -/
theorem lt_rangeCount (hk : Kept w t x m) (n : ℕ) : m.capacity < rangeCount x n ∨ m.capacity ≠ 0 := by
  by_cases hz : m.capacity = 0
  · left
    have hgrow : growth x.capacity = 10 := by
      rw [hk.capacity, hz]
      rfl
    rw [rangeCount, hgrow, hz]
    split_ifs <;> omega
  · exact .inr hz

/-- Nothing is inserted from an empty range. -/
theorem insertItems_nil : insertItems w ok pos ([] : List (Item V)) x h = some (false, x, h) := rfl

/-- A range is inserted into room that was made for it. -/
theorem insertItems_ne (hne : ys ≠ []) :
    insertItems w ok pos ys x h =
      (makeRoom w ok (rangeCount x ys.length) pos (u32 ys.length) x h).bind fun r =>
        if r.1 then (constructItems w r.2.1.data pos ys r.2.2).map fun h =>
          (true, { r.2.1 with size := u32 (r.2.1.size + u32 ys.length) }, h)
        else some (false, r.2) := by
  have hempty : ys.isEmpty = false := by simpa using hne
  simp only [insertItems, hempty, Bool.false_eq_true, if_false]
  refine congrArg _ (funext fun r => ?_)
  obtain ⟨there, v, h⟩ := r
  cases there
  · rfl
  · cases constructItems w v.data pos ys h <;> simp

/-- A range is not inserted when a larger buffer is refused. -/
theorem insertItems_refused (hne : ys ≠ []) (hlt : x.capacity < rangeCount x ys.length) :
    insertItems w false pos ys x h = some (false, x, h) := by
  rw [insertItems_ne hne, makeRoom_refused hlt]
  rfl

/-- What fits into a block is less than `2 ^ 32` elements. -/
theorem length_lt_of_fits (hw : 0 < w) (hfits : (i + n) * w ≤ u32 k) : n < 2 ^ 32 :=
  lt_of_le_of_lt ((Nat.le_add_left n i).trans ((Nat.le_mul_of_pos_right _ hw).trans hfits)) (u32_lt _)

/-- The last part of the insertion of a range. -/
theorem acts_of_range (hpos : pos ≤ m.elems.length) (hk : Kept w h.pool x m) (hw : 0 < w)
    (hlen : xs.length = n) (hrep : Replaces h.pool t x.data d) (hc : c < 2 ^ 32)
    (hwr : Writes t t' d)
    (ho : Gap w t' d (u32 (c * w)) (m.elems.take pos ++ numbered h.constructed xs)
      (m.elems.drop pos) 0) :
    Acts w h ⟨t', h.constructed + n, h.destroyed⟩ x ⟨d, c, u32 (x.size + u32 n)⟩
      (inserted m pos c h.constructed xs) n [] := by
  have hacts := acts_of_gap (h := h) (j := n) hrep hwr (gap_zero.mp ho) hc
  have hlen' := inserted_length (c := c) hpos h.constructed xs
  have hlt := hacts.kept.size_lt hw
  have hsize : u32 (x.size + u32 n) = (inserted m pos c h.constructed xs).elems.length := by
    have hlt' : m.elems.length + n < 2 ^ 32 := by
      rw [← hlen, ← hlen']
      exact hlt
    rw [hlen', hlen, hk.size, u32_of_lt (n := n) (by omega), u32_of_lt hlt']
  rw [hsize]
  exact hacts

/-- A range goes in as it is met by the loop, when there are bytes for it. -/
theorem insertItems_collect (seen : List (Sight V)) (ok : Bool) (hw : 0 < w) (hf : h.pool.Fresh)
    (hk : Kept w h.pool x m) (hpos : pos ≤ m.elems.length) (hne : ys ≠ [])
    (hok : m.capacity < rangeCount x ys.length → ok = true)
    (hfits : (m.elems.length + ys.length) * w ≤ u32 (max m.capacity (rangeCount x ys.length) * w))
    (hseen : List.Forall₂ (Foresees w h x m (m.capacity < rangeCount x ys.length)) ys seen) :
    match collect (leftIn (m.capacity < rangeCount x ys.length) m.values) (m.values.drop pos)
      (m.values.take pos) seen with
    | some zs => zs.length = ys.length ∧ ∃ x' h', insertItems w ok pos ys x h = some (true, x', h') ∧
        Acts w h h' x x' (inserted m pos (max m.capacity (rangeCount x ys.length)) h.constructed zs)
          ys.length []
    | none => insertItems w ok pos ys x h = none := by
  have hrange : u32 ys.length = ys.length := u32_of_lt (length_lt_of_fits hw hfits)
  have htake : (m.elems.take pos).length = pos := List.length_take_of_le hpos
  obtain ⟨t, d, hm, ho, hrep, hhole, hsees⟩ :=
    makeRoom_spec hw hf hk hpos (lt_rangeCount hk _) hok hfits
  have hcollect := constructItems_collect (h := h.withPool t)
    (hseen.imp fun y e hy => hsees y e hy) ho (by rwa [htake])
    (by rw [htake, List.length_drop]; omega)
  rw [htake, List.map_drop, List.map_take] at hcollect
  have hins : insertItems w ok pos ys x h = (constructItems w d pos ys (h.withPool t)).map fun h =>
      (true, ⟨d, max m.capacity (rangeCount x ys.length), u32 (x.size + ys.length)⟩, h) := by
    rw [insertItems_ne hne, hrange, hm]
    rfl
  rw [Contents.values]
  cases hc : collect (leftIn (m.capacity < rangeCount x ys.length) (m.elems.map Prod.snd))
      ((m.elems.map Prod.snd).drop pos) ((m.elems.map Prod.snd).take pos) seen with
  | none =>
    rw [Contents.values, hc] at hcollect
    rw [hins, hcollect, Option.map_none]
  | some zs =>
    rw [Contents.values, hc] at hcollect
    obtain ⟨hlen, t', hcons, ho', hwr⟩ := hcollect
    have hcap : max m.capacity (rangeCount x ys.length) < 2 ^ 32 := max_lt hk.lt (rangeCount_lt _ _)
    refine ⟨hlen, _, _, by rw [hins, hcons]; rfl, ?_⟩
    have hacts := acts_of_range hpos hk hw hlen hrep hcap hwr ho'
    rwa [hrange] at hacts

/-- How an insertion of a range ends. -/
inductive RangeInserted (w : ℕ) (ok : Bool) (h : Heap V) (x : Vec) (m : Contents V) (pos : ℕ)
    (ys : List (Item V)) : Bool × Vec × Heap V → Prop where
  /-- There is nothing to insert. -/
  | nothing (hnil : ys = []) : RangeInserted w ok h x m pos ys (false, x, h)
  /-- The pool refused a larger buffer. -/
  | refused (hne : ys ≠ []) (hlt : m.capacity < rangeCount x ys.length) (hok : ok = false) :
    RangeInserted w ok h x m pos ys (false, x, h)
  /-- The range was inserted. -/
  | done (xs : List V) (x' : Vec) (h' : Heap V) (hne : ys ≠ []) (hpos : pos ≤ m.elems.length)
    (hok : m.capacity < rangeCount x ys.length → ok = true)
    (hfits : (m.elems.length + ys.length) * w ≤
      u32 (max m.capacity (rangeCount x ys.length) * w))
    (hlen : xs.length = ys.length)
    (hacts : Acts w h h' x x'
      (inserted m pos (max m.capacity (rangeCount x ys.length)) h.constructed xs) ys.length []) :
    RangeInserted w ok h x m pos ys (true, x', h')

/-- How `insert` of a range ends. -/
theorem insertItems_some (hw : 0 < w) (hf : h.pool.Fresh) (hk : Kept w h.pool x m)
    (hr : insertItems w ok pos ys x h = some r) : RangeInserted w ok h x m pos ys r := by
  by_cases hne : ys = []
  · subst hne
    obtain rfl := Option.some.inj (insertItems_nil.symm.trans hr)
    exact .nothing rfl
  by_cases hrefused : m.capacity < rangeCount x ys.length ∧ ok = false
  · obtain ⟨hlt, rfl⟩ := hrefused
    rw [insertItems_ne hne, makeRoom_refused (by rwa [hk.capacity])] at hr
    obtain rfl := Option.some.inj hr
    exact .refused hne hlt rfl
  have hok : m.capacity < rangeCount x ys.length → ok = true := fun hlt => by
    by_contra hno
    exact hrefused ⟨hlt, by simpa using hno⟩
  rw [insertItems_ne hne] at hr
  obtain ⟨⟨there, v, h₁⟩, hm, hr⟩ := Option.bind_eq_some_iff.mp hr
  cases there with
  | false => simpa using makeRoom_there (by rwa [hk.capacity]) hm
  | true =>
    obtain ⟨h₂, hc, rfl⟩ := Option.map_eq_some_iff.mp hr
    obtain ⟨p, b, hp, hb, hle⟩ := fits_of_constructItems hne hc
    obtain ⟨-, hbytes⟩ := bytes_of_makeRoom (r := (true, v, h₁)) hf hk hm
    rw [hbytes p b hp hb] at hle
    have hpos : pos ≤ m.elems.length := pos_le_of_makeRoom (r := (true, v, h₁)) hw hf hk
      ((fits_of_le (Nat.le_add_right pos _) hle).trans_lt (u32_lt _)) hm
    have hfits : (m.elems.length + ys.length) * w ≤
        u32 (max m.capacity (rangeCount x ys.length) * w) := by
      rcases hpos.eq_or_lt with rfl | hmid
      · exact hle
      · have hfits := fits_of_makeRoom hw hk hmid (by rwa [hk.capacity]) hm
        rwa [u32_of_lt (length_lt_of_fits hw hle)] at hfits
    obtain ⟨t, d, hm', ho, hrep, -, -⟩ :=
      makeRoom_spec hw hf hk hpos (lt_rangeCount hk _) hok hfits
    rw [u32_of_lt (length_lt_of_fits hw hfits)] at hm
    obtain ⟨rfl, rfl⟩ := Prod.mk.inj (Prod.mk.inj (Option.some.inj (hm'.symm.trans hm))).2
    have htake : (m.elems.take pos).length = pos := List.length_take_of_le hpos
    obtain ⟨xs, hlen, hcon, hdes, ho', hwr⟩ := constructItems_some (h := h.withPool t) (htake ▸ hc) ho
    have hcap : max m.capacity (rangeCount x ys.length) < 2 ^ 32 := max_lt hk.lt (rangeCount_lt _ _)
    have hacts := acts_of_range hpos hk hw hlen hrep hcap hwr ho'
    have hh : h₂ = ⟨h₂.pool, h.constructed + ys.length, h.destroyed⟩ := by
      cases h₂
      simp_all
    rw [hh]
    exact .done xs _ _ hne hpos hok hfits hlen hacts

end Ranges

section Copies

variable {r : Vec} {p need : ℕ}

/-- `reserve` leaves the vector when a larger buffer is refused. -/
theorem reserve_refused (hlt : m.capacity < n) (hk : Kept w t x m) :
    reserve w false n x h = some (false, x, h) := by
  rw [reserve, if_pos (by rwa [hk.capacity])]
  rfl

/-- `reserve` keeps the elements and has the capacity that was asked for. -/
theorem reserve_spec (hw : 0 < w) (hf : h.pool.Fresh) (hk : Kept w h.pool x m) (hn : n < 2 ^ 32)
    (hok : m.capacity < n → ok = true) (hfits : m.elems.length * w ≤ u32 (max m.capacity n * w)) :
    ∃ x' h', reserve w ok n x h = some (true, x', h') ∧
      Acts w h h' x x' { m with capacity := max m.capacity n } 0 [] := by
  by_cases hlt : m.capacity < n
  · obtain rfl := hok hlt
    rw [max_eq_right hlt.le] at hfits ⊢
    obtain ⟨t, p, hr, ho, hrep, -⟩ := relocateAll_spec hw hf hk hfits
    refine ⟨⟨some p, n, x.size⟩, h.withPool t, ?_, ?_⟩
    · rw [reserve, if_pos (by rwa [hk.capacity])]
      exact hr
    · have hacts := acts_of_gap (j := 0) hrep (.refl _ _) ho hn
      rwa [← hk.size] at hacts
  · rw [max_eq_left (not_lt.mp hlt), reserve, if_neg (by rwa [hk.capacity])]
    exact ⟨x, h, rfl, acts_refl hf hk⟩

/-- A buffer that was reserved has bytes for the elements. -/
theorem reserve_some {res : Bool × Vec × Heap V} (hk : Kept w h.pool x m)
    (hr : reserve w ok n x h = some res) :
    m.capacity < n ∧ ok = false ∧ res = (false, x, h) ∨
      (m.capacity < n → ok = true) ∧ m.elems.length * w ≤ u32 (max m.capacity n * w) := by
  by_cases hlt : m.capacity < n
  · cases ok with
    | false =>
      rw [reserve_refused hlt hk] at hr
      exact .inl ⟨hlt, rfl, (Option.some.inj hr).symm⟩
    | true =>
      rw [reserve, if_pos (by rwa [hk.capacity])] at hr
      rw [max_eq_right hlt.le]
      exact .inr ⟨fun _ => rfl, fits_of_relocateAll hk hr⟩
  · rw [max_eq_left (not_lt.mp hlt)]
    exact .inr ⟨fun h => absurd h hlt, hk.fits⟩

/-- Filling the end of a buffer with copies of the elements of another vector. -/
theorem copies_spec {bytes : ℕ} (hw : 0 < w) (hbytes : bytes < 2 ^ 32)
    (ho : Gap w h.pool x.data bytes us [] m'.elems.length) (hx : x.size = us.length)
    (hr : Kept w h.pool r m') (hne : ∀ p, r.data = some p → x.data ≠ some p) :
    ∃ t₁ t, h.pool.copy w x.data us.length r.data 0 (u32 (r.size * w)) = some t₁ ∧
      copyLoop w (fun _ => r) (r.size + 1) 0 x (h.withPool t₁) =
        some ({ x with size := us.length + m'.elems.length },
          ⟨t, h.constructed + m'.elems.length, h.destroyed⟩) ∧
      Gap w t x.data bytes (us ++ numbered h.constructed m'.values) [] 0 ∧
      Writes h.pool t x.data := by
  have hl : Lends w h.pool r.data 0 m'.elems := hr.lends [] m'.elems [] hw (by simp)
  obtain ⟨t₁, hcopy, ho₁, hw₁⟩ := ho.copy hw hl le_rfl hne
  have hr₁ : Kept w t₁ r m' := hr.congr fun p hp => hw₁.frame p (hne p hp)
  obtain ⟨t, hloop, ho₂, hw₂⟩ := copyLoop_spec (h := h.withPool t₁) (i := 0) hw hbytes ho₁ hx
    (by rw [hr.size, Nat.zero_add]) (hr₁.reads hw) hne
  refine ⟨t₁, t, ?_, ?_, ho₂, hw₁.trans hw₂⟩
  · rw [hr.size, hr.bytes_eq le_rfl, hcopy]
  · rw [hr.size, hloop]
    rfl

/-- `vector(const vector& r)`. -/
theorem copyConstruct_spec {a : Model V} (hw : 0 < w) (hf : h.pool.Fresh)
    (hr : Kept w h.pool r m) (ha : h.constructed = a.constructed) (ok : Bool) :
    ∃ x' h', copyConstruct w ok r h = some (x', h') ∧
      Acts w h h' ⟨none, 0, 0⟩ x' (a.copyOf ok m).1 (a.copyOf ok m).2 [] := by
  cases ok with
  | false => exact ⟨_, _, rfl, kept_empty, .refl hf (by simp), rfl, (List.append_nil _).symm⟩
  | true =>
    have hbytes : u32 (r.capacity * w) = u32 (m.capacity * w) := by rw [hr.capacity]
    have hne : ∀ p, r.data = some p → some h.pool.allocated ≠ some p := fun p hp he =>
      (hr.data_lt hf p hp).ne (Option.some.inj he).symm
    set t₀ := (h.pool.alloc true (u32 (m.capacity * w))).2
    have hr₀ : Kept w t₀ r m := hr.congr fun p hp => set_block_of_ne _ fun he =>
      hne p hp (congrArg some he.symm)
    have ho : Gap w t₀ (some h.pool.allocated) (u32 (m.capacity * w)) [] [] m.elems.length :=
      ⟨by simpa using hr.fits, _, _, rfl, alloc_block _ _, rfl, holds_nil _ _, holds_nil _ _⟩
    obtain ⟨t₁, t, hcopy, hloop, ho', hwr⟩ := copies_spec (h := h.withPool t₀)
      (x := ⟨some h.pool.allocated, m.capacity, 0⟩) hw (u32_lt _) ho rfl hr₀ hne
    have hacts := acts_of_gap (x := ⟨none, 0, 0⟩) (j := m.elems.length)
      (Replaces.alloc hf (u32 (m.capacity * w))) hwr ho' hr.lt
    refine ⟨⟨some h.pool.allocated, m.capacity, m.elems.length⟩,
      ⟨t, h.constructed + m.elems.length, h.destroyed⟩, ?_, ?_⟩
    · have halloc : h.pool.alloc true (u32 (m.capacity * w)) = (some h.pool.allocated, t₀) := rfl
      simp only [List.length_nil, Nat.zero_add] at hcopy hloop
      rw [copyConstruct, hbytes, halloc, hr.capacity]
      change (t₀.copy w (some h.pool.allocated) 0 r.data 0 (u32 (r.size * w))).bind _ = _
      rw [show t₀.copy w (some h.pool.allocated) 0 r.data 0 (u32 (r.size * w)) = some t₁ from hcopy]
      exact hloop
    · simp only [List.nil_append, numbered_length, Contents.values, List.length_map] at hacts
      simpa [Model.copyOf, ← ha, Contents.values] using hacts

/-- The move from another pool type copies the bytes to a new buffer, and the old
buffer has no owner from then on. -/
theorem moveAcross_spec (hw : 0 < w) (hf : h.pool.Fresh) (hr : Kept w h.pool r m) (ok : Bool) :
    ∃ x' r' t, moveAcross w ok r h = some (x', r', h.withPool t) ∧
      Replaces h.pool t none x'.data ∧ (∀ q, r.data = some q → t.block q = h.pool.block q) ∧
      (ok = true ∧ r' = ⟨none, 0, 0⟩ ∧ Kept w t x' m ∨
        ok = false ∧ r' = r ∧ x' = ⟨none, 0, 0⟩ ∧ t = h.pool) := by
  cases ok with
  | false =>
    exact ⟨_, _, h.pool, rfl, .refl hf (by simp), fun _ _ => rfl, .inr ⟨rfl, rfl, rfl, rfl⟩⟩
  | true =>
    have hlt := hr.data_lt hf
    have hne : r.data ≠ some h.pool.allocated := fun hd => (hlt _ hd).false
    set t₀ := (h.pool.alloc true (u32 (m.capacity * w))).2
    have hb₀ : t₀.block h.pool.allocated = some ⟨u32 (m.capacity * w), fun _ => none⟩ := alloc_block _ _
    have hr₀ : ∀ q, r.data = some q → t₀.block q = h.pool.block q := fun q hq =>
      set_block_of_ne _ (hlt q hq).ne
    obtain ⟨b, hcopy, hbytes, hu⟩ := copyAll_spec hw hr hb₀ hr.fits hr₀ hne
    have hrep : Replaces h.pool (t₀.set h.pool.allocated (some b)) none (some h.pool.allocated) :=
      (Replaces.alloc hf _).writes (writes_set hb₀)
    refine ⟨⟨some h.pool.allocated, r.capacity, r.size⟩, ⟨none, 0, 0⟩, _, ?_, hrep, fun q hq => ?_,
      .inl ⟨rfl, rfl, hr.size, hr.capacity, hr.lt, hr.fits,
        .inr ⟨_, b, rfl, set_block_self _ _ _, hbytes, hu⟩⟩⟩
    · have halloc : h.pool.alloc true (u32 (m.capacity * w)) = (some h.pool.allocated, t₀) := rfl
      rw [copyAll] at hcopy
      rw [moveAcross, hr.capacity, halloc]
      simp only [hcopy, Option.bind_eq_bind, Option.bind_some]
      rfl
    · exact (set_block_of_ne _ (hlt q hq).ne).trans (hr₀ q hq)

/-- The capacity that an appended vector asks for. -/
def appendCount (x r : Vec) : ℕ := u32 (x.size + r.size)

/-- `append` of another vector. -/
theorem append_spec (hw : 0 < w) (hf : h.pool.Fresh) (hk : Kept w h.pool x m)
    (hr : Kept w h.pool r m') (hne : ∀ p, r.data = some p → x.data ≠ some p)
    (hok : m.capacity < appendCount x r → ok = true)
    (hfits : (m.elems.length + m'.elems.length) * w ≤ u32 (max m.capacity (appendCount x r) * w)) :
    ∃ x' h', append w ok (r.size + 1) (fun _ => r) x h = some (true, x', h') ∧
      Acts w h h' x x' (inserted m m.elems.length (max m.capacity (appendCount x r)) h.constructed
        m'.values) m'.elems.length [] := by
  have hcount : appendCount x r < 2 ^ 32 := u32_lt _
  obtain ⟨x₁, h₁, hx₁, hacts⟩ := reserve_spec hw hf hk hcount hok (fits_of_le (by omega) hfits)
  have hk₁ := hacts.kept
  have hdata : ∀ p, r.data = some p → x₁.data ≠ some p ∧ h₁.pool.block p = h.pool.block p :=
    fun p hp => hacts.replaces.keeps hf (hr.live p hp) (hne p hp)
  have hr₁ : Kept w h₁.pool r m' := hr.congr fun p hp => (hdata p hp).2
  have hcon : h₁.constructed = h.constructed := hacts.constructed
  have hdes : h₁.destroyed = h.destroyed := by simpa using hacts.destroyed
  have happ : append w ok (r.size + 1) (fun _ => r) x h =
      (h₁.pool.copy w x₁.data x₁.size r.data 0 (u32 (r.size * w))).bind fun s =>
        (copyLoop w (fun _ => r) (r.size + 1) 0 x₁ (h₁.withPool s)).map fun y => (true, y) := by
    rw [append, show u32 (x.size + r.size) = appendCount x r from rfl, hx₁]
    simp only [Option.bind_eq_bind, Option.bind_some, Bool.not_true, Bool.false_eq_true, if_false]
    refine congrArg _ (funext fun s => ?_)
    cases copyLoop w (fun _ => r) (r.size + 1) 0 x₁ (h₁.withPool s) <;> rfl
  cases hd : x₁.data with
  | none =>
    -- there are no elements, and no room for any
    have hz : m'.elems.length = 0 := by
      have hcap : max m.capacity (appendCount x r) = 0 := by
        rcases hk₁.buffer with ⟨-, hz⟩ | ⟨p, b, hp, -⟩
        · exact hz
        · simp [hd] at hp
      rw [hcap, Nat.zero_mul] at hfits
      have hle := Nat.eq_zero_of_le_zero (hfits.trans_eq (rfl : u32 0 = 0))
      rcases Nat.mul_eq_zero.mp hle with hz | hz <;> omega
    have hnil := List.eq_nil_of_length_eq_zero hz
    refine ⟨x₁, h₁, ?_, ?_⟩
    · rw [happ, hr.size, hz]
      simp [copy_zero, copyLoop, hr.size, hz, Heap.withPool, u32]
    · simpa [inserted, Contents.values, hnil] using hacts
  | some p =>
    have ho := hk₁.gap (n := m'.elems.length) (by simp [hd]) hfits
    obtain ⟨t₁, t, hcopy, hloop, ho', hwr⟩ := copies_spec hw (u32_lt _) ho hk₁.size hr₁
      fun p hp => (hdata p hp).1
    have hfin := acts_of_gap (j := m'.elems.length) hacts.replaces hwr ho' hk₁.lt
    refine ⟨⟨x₁.data, max m.capacity (appendCount x r), m.elems.length + m'.elems.length⟩,
      ⟨t, h.constructed + m'.elems.length, h.destroyed⟩, ?_, ?_⟩
    · have hsize : x₁.size = m.elems.length := hk₁.size
      rw [happ, hsize, hcopy, Option.bind_some, hloop, Option.map_some, hcon, hdes, hk₁.capacity]
    · simpa [inserted, Contents.values, hcon] using hfin

/-- How an `append` of another vector ends. -/
inductive Appended (w : ℕ) (ok : Bool) (h : Heap V) (x r : Vec) (m m' : Contents V) :
    Bool × Vec × Heap V → Prop where
  /-- The pool refused a larger buffer. -/
  | refused (hlt : m.capacity < appendCount x r) (hok : ok = false) :
    Appended w ok h x r m m' (false, x, h)
  /-- Copies of the elements were appended. -/
  | done (x' : Vec) (h' : Heap V) (hok : m.capacity < appendCount x r → ok = true)
    (hfits : (m.elems.length + m'.elems.length) * w ≤ u32 (max m.capacity (appendCount x r) * w))
    (hacts : Acts w h h' x x' (inserted m m.elems.length (max m.capacity (appendCount x r))
      h.constructed m'.values) m'.elems.length []) : Appended w ok h x r m m' (true, x', h')

/-- An append that comes back has appended what it could. -/
theorem append_some {res : Bool × Vec × Heap V} (hw : 0 < w) (hf : h.pool.Fresh)
    (hk : Kept w h.pool x m) (hr : Kept w h.pool r m')
    (hne : ∀ p, r.data = some p → x.data ≠ some p)
    (hres : append w ok (r.size + 1) (fun _ => r) x h = some res) :
    Appended w ok h x r m m' res := by
  have hcount : appendCount x r < 2 ^ 32 := u32_lt _
  obtain ⟨⟨there, x₁, h₁⟩, hx₁, hres₁⟩ := Option.bind_eq_some_iff.mp hres
  have hx₁ : reserve w ok (appendCount x r) x h = some (there, x₁, h₁) := hx₁
  rcases reserve_some hk hx₁ with ⟨hlt, rfl, heq⟩ | ⟨hok, hle⟩
  · obtain ⟨rfl, rfl, rfl⟩ : there = false ∧ x₁ = x ∧ h₁ = h := by simpa using heq
    obtain rfl := Option.some.inj hres₁
    exact .refused hlt rfl
  · obtain ⟨x₂, h₂, hx₂, hacts⟩ := reserve_spec hw hf hk hcount hok hle
    obtain ⟨rfl, rfl, rfl⟩ : true = there ∧ x₂ = x₁ ∧ h₂ = h₁ := by simpa [hx₁] using hx₂.symm
    have hfits : (m.elems.length + m'.elems.length) * w ≤
        u32 (max m.capacity (appendCount x r) * w) := by
      rcases Nat.eq_zero_or_pos m'.elems.length with hz | hpos
      · rwa [hz, Nat.add_zero]
      · obtain ⟨s, hs, -⟩ := Option.bind_eq_some_iff.mp hres₁
        rw [hr.size, hr.bytes_eq le_rfl, hacts.kept.size] at hs
        obtain ⟨p, b, -, -, hp, hb, -, -, hfits, -⟩ :=
          move_eq_some (Nat.mul_ne_zero hpos.ne' hw.ne') (move_of_copy hs)
        rwa [← Nat.add_mul, hacts.kept.bytes hp hb] at hfits
    obtain ⟨x', h', happ, hacts'⟩ := append_spec hw hf hk hr hne hok hfits
    obtain rfl := Option.some.inj (happ.symm.trans hres)
    exact .done x' h' hok hfits hacts'

/-- An `append` that gets no larger buffer. -/
theorem append_refused {r : Vec → Vec} (hlt : x.capacity < appendCount x (r x)) (rounds : ℕ) :
    append w false rounds r x h = some (false, x, h) := by
  have hlt' : x.capacity < u32 (x.size + (r x).size) := hlt
  have hres : reserve w false (u32 (x.size + (r x).size)) x h = some (false, x, h) := by
    rw [reserve, if_pos hlt']
    rfl
  simp [append, hres]

/-- An empty vector is appended to itself. -/
theorem appendSelf_empty (hk : Kept w h.pool x m) (hnil : m.elems = []) (ok : Bool) :
    append w ok 1 (fun x => x) x h = some (true, x, h) := by
  have hz : x.size = 0 := by simp [hk.size, hnil]
  simp [append, reserve, hz, u32, copy_zero, copyLoop, Heap.withPool]

/-- The loop of a vector that is appended to itself never catches up with its end. -/
theorem selfLoop_none {b : Block (ℕ × V)} (hw : 0 < w) (hd : x.data = some p)
    (hb : h.pool.block p = some b) (hlt : b.bytes < 2 ^ 32) (hi : i < x.size) (n : ℕ) :
    copyLoop w (fun x => x) n i x h = none := by
  induction n generalizing i x h b with
  | zero => rfl
  | succ n ih =>
    rw [copyLoop, if_pos hi]
    cases hp : place w x.size (.slot x.data i) x h with
    | none => rfl
    | some r =>
      obtain ⟨h₁, hc, hr⟩ := Option.bind_eq_some_iff.mp hp
      obtain ⟨z, q, b', -, hq, hb', hle, hpool⟩ := construct_some hc
      obtain rfl : p = q := Option.some.inj (hd.symm.trans hq)
      obtain rfl : b = b' := Option.some.inj (hb.symm.trans hb')
      obtain rfl := Option.some.inj hr
      have hsize : x.size + 1 < 2 ^ 32 :=
        ((Nat.le_mul_of_pos_right _ hw).trans hle).trans_lt hlt
      have hb₁ : h₁.pool.block p = some (b.put x.size (some (h.constructed, z))) := by
        rw [hpool, set_block_self]
      simp only [Option.bind_eq_bind, Option.bind_some]
      exact ih (x := { x with size := u32 (x.size + 1) }) hd hb₁ hlt (by
        simp only [u32_of_lt hsize]
        omega)

/-- A vector is appended to itself when it is empty or gets no buffer. -/
theorem appendSelf_some {rounds : ℕ} {res : Bool × Vec × Heap V} (hw : 0 < w) (hf : h.pool.Fresh)
    (hk : Kept w h.pool x m) (hres : append w ok rounds (fun x => x) x h = some res) :
    m.capacity < appendCount x x ∧ ok = false ∧ res = (false, x, h) ∨
      m.elems = [] ∧ res = (true, x, h) := by
  have hcount : appendCount x x < 2 ^ 32 := u32_lt _
  obtain ⟨⟨there, x₁, h₁⟩, hx₁, hres₁⟩ := Option.bind_eq_some_iff.mp hres
  have hx₁ : reserve w ok (appendCount x x) x h = some (there, x₁, h₁) := hx₁
  rcases reserve_some hk hx₁ with ⟨hlt, rfl, heq⟩ | ⟨hok, hle⟩
  · obtain ⟨rfl, rfl, rfl⟩ : there = false ∧ x₁ = x ∧ h₁ = h := by simpa using heq
    exact .inl ⟨hlt, rfl, (Option.some.inj hres₁).symm⟩
  · right
    obtain ⟨x₂, h₂, hx₂, hacts⟩ := reserve_spec hw hf hk hcount hok hle
    obtain ⟨rfl, rfl, rfl⟩ : true = there ∧ x₂ = x₁ ∧ h₂ = h₁ := by simpa [hx₁] using hx₂.symm
    have hk₁ := hacts.kept
    obtain ⟨s, hs, hloop⟩ := Option.bind_eq_some_iff.mp hres₁
    rcases Nat.eq_zero_or_pos m.elems.length with hz | hpos
    · have hnil := List.eq_nil_of_length_eq_zero hz
      have hreserve : reserve w ok (appendCount x x) x h = some (true, x, h) := by
        have hzero : appendCount x x = 0 := by
          rw [appendCount, hk.size, hz]
          rfl
        rw [hzero, reserve, if_neg (Nat.not_lt_zero _)]
      obtain ⟨rfl, rfl⟩ : x = x₂ ∧ h = h₂ := by simpa [hx₁] using hreserve.symm
      refine ⟨hnil, ?_⟩
      have hsize : x.size = 0 := hk.size.trans hz
      have hs' : s = h.pool := by
        have hc : u32 (0 * w) = 0 := by rw [Nat.zero_mul]; rfl
        rw [hsize, hc, copy_zero] at hs
        exact (Option.some.inj hs).symm
      subst hs'
      cases rounds with
      | zero => simp [copyLoop] at hloop
      | succ n =>
        rw [copyLoop, if_neg (by rw [hsize]; exact Nat.lt_irrefl 0)] at hloop
        exact (Option.some.inj hloop).symm
    · exfalso
      obtain ⟨y, hloop, -⟩ := Option.bind_eq_some_iff.mp hloop
      have hsize : 0 < x₂.size := by
        rw [hk₁.size]
        exact hpos
      have hd : x₂.data.isSome := hk₁.data_isSome fun hz => by
        have hle₁ := hk₁.le hw
        rw [hz] at hle₁
        simp only at hle₁
        omega
      obtain ⟨p, hp⟩ := Option.isSome_iff_exists.mp hd
      obtain ⟨b, hb⟩ := Option.isSome_iff_exists.mp (hk₁.live p hp)
      obtain ⟨b', hb', hbytes⟩ := bytes_of_move (move_of_copy hs) hb
      have hlt : b'.bytes < 2 ^ 32 := by
        rw [hbytes, hk₁.bytes hp hb]
        exact u32_lt _
      have hnone := selfLoop_none (h := h₂.withPool s) hw hp hb' hlt hsize rounds
      rw [hnone] at hloop
      cases hloop

end Copies

section Removal

/-- Erasing an element moves the tail over it. -/
theorem erase_spec (hw : 0 < w) (hf : h.pool.Fresh) (hk : Kept w h.pool x m) (pos : ℕ) :
    ∃ x' h', erase w pos x h = some (decide (pos < m.elems.length), x', h') ∧
      Acts w h h' x x' { m with elems := m.elems.eraseIdx pos } 0 m.ids[pos]?.toList := by
  by_cases hpos : pos < m.elems.length
  · have hlt : pos < x.size := by rwa [hk.size]
    have htake : (m.elems.take pos).length = pos := List.length_take_of_le hpos.le
    have hsplit : m.elems.take pos ++ [m.elems[pos]] ++ m.elems.drop (pos + 1) = m.elems := by
      simp
    have hd : x.data.isSome := hk.data_isSome fun hz => by
      have hle := hk.le hw
      omega
    have ho : Gap w h.pool x.data (u32 (m.capacity * w)) (m.elems.take pos ++ [m.elems[pos]])
        (m.elems.drop (pos + 1)) 0 := by
      rw [gap_zero, hsplit]
      exact hk.gap hd (by simpa using hk.fits)
    obtain ⟨t₁, hdes, ho₁, hw₁⟩ := ho.destroy
    have hdrop : (m.elems.drop (pos + 1)).length = m.elems.length - (pos + 1) := List.length_drop
    obtain ⟨t₂, hm, ho₂, hw₂⟩ := ho₁.shift (i := 0) hw (fits_of_le (by omega) hk.fits)
    simp only [htake, Nat.zero_add, Nat.add_zero] at hdes hm
    have hsize : x.size - 1 = m.elems.length - 1 := by rw [hk.size]
    have hcount : sub32 (x.size - 1) pos = m.elems.length - (pos + 1) := by
      have hlt32 := hk.size_lt hw
      rw [hsize, sub32_of_le (by omega) (by omega)]
      omega
    have hrep := (hk.replaces hf).writes (hw₁.trans hw₂)
    have hkept := gap_kept (gap_zero.mp ho₂) hk.lt
    rw [← List.eraseIdx_eq_take_drop_succ, List.length_eraseIdx_of_lt hpos] at hkept
    refine ⟨⟨x.data, m.capacity, m.elems.length - 1⟩,
      ⟨t₂, h.constructed, h.destroyed ++ [m.elems[pos].1]⟩, ?_, ⟨hkept, hrep, rfl, ?_⟩⟩
    · have hmove : t₁.move w x.data pos x.data (pos + 1) (u32 (sub32 (x.size - 1) pos * w)) =
          some t₂ := by
        rw [hcount, hk.bytes_eq (Nat.sub_le _ _), ← hdrop, hm]
      rw [hsize] at hmove
      simp only [erase, if_pos hlt, hdes, Option.bind_eq_bind, Option.bind_some, hmove, hsize,
        hk.capacity, hpos, decide_true]
      rfl
    · simp [Contents.ids, hpos]
  · have hlt : ¬pos < x.size := by rwa [hk.size]
    refine ⟨x, h, by simp [erase, hlt, hpos], ?_⟩
    have hids : m.ids[pos]? = none := by
      simpa [Contents.ids] using Nat.le_of_not_lt hpos
    rw [List.eraseIdx_of_length_le (Nat.le_of_not_lt hpos), hids]
    exact acts_refl hf hk

/-- `pop_back` destroys the last element and returns `false`. -/
theorem popBack_spec (hw : 0 < w) (hf : h.pool.Fresh) (hk : Kept w h.pool x m) :
    ∃ x' h', popBack w x h = some (false, x', h') ∧
      Acts w h h' x x' { m with elems := m.elems.eraseIdx (m.elems.length - 1) } 0
        m.ids[m.elems.length - 1]?.toList := by
  rcases List.eq_nil_or_concat' m.elems with hnil | ⟨us, e, hcons⟩
  · have hzero : ¬0 < x.size := by simp [hk.size, hnil]
    refine ⟨x, h, by simp [popBack, hzero], ?_⟩
    have hm : ({ m with elems := m.elems.eraseIdx (m.elems.length - 1) } : Contents V) = m := by
      cases m
      simp_all
    rw [hm]
    simpa [Contents.ids, hnil] using acts_refl hf hk
  · have hlen : m.elems.length = us.length + 1 := by simp [hcons]
    have hd : x.data.isSome := hk.data_isSome fun hz => by
      have hle := hk.le hw
      omega
    have ho : Gap w h.pool x.data (u32 (m.capacity * w)) (us ++ [e]) [] 0 := by
      rw [← hcons]
      exact hk.gap hd (by simpa using hk.fits)
    obtain ⟨t, hdes, ho₁, hwr⟩ := ho.destroy
    have hsize : x.size - 1 = us.length := by rw [hk.size, hlen, Nat.add_sub_cancel]
    refine ⟨⟨x.data, m.capacity, us.length⟩, ⟨t, h.constructed, h.destroyed ++ [e.1]⟩, ?_, ?_⟩
    · have hpos : 0 < x.size := by
        rw [hk.size]
        omega
      simp [popBack, hpos, hsize, hdes, hk.capacity]
    · have hids : m.ids[m.elems.length - 1]? = some e.1 := by simp [Contents.ids, hcons]
      have herase : m.elems.eraseIdx (m.elems.length - 1) = us := by
        simp [hcons, List.eraseIdx_append_of_length_le]
      rw [hids, herase]
      exact ⟨gap_kept ho₁ hk.lt, (hk.replaces hf).writes hwr, rfl, rfl⟩

/-- `clear` destroys all elements and keeps the buffer. -/
theorem clear_spec (hw : 0 < w) (hf : h.pool.Fresh) (hk : Kept w h.pool x m) :
    ∃ x' h', clear w x h = some (x', h') ∧ x'.data = x.data ∧
      Acts w h h' x x' { m with elems := [] } 0 m.ids.reverse := by
  have hgap : x.data.isSome → Gap w h.pool x.data (u32 (m.capacity * w)) m.elems [] 0 := fun hd =>
    hk.gap hd (by simpa using hk.fits)
  have hstart : m.elems = [] ∨ Gap w h.pool x.data (u32 (m.capacity * w)) m.elems [] 0 := by
    cases hd : x.data with
    | none => exact .inl (hk.elems_eq_nil hw hd)
    | some p => exact .inr (hd ▸ hgap (by simp [hd]))
  obtain ⟨t, hc, hwr, hkeep⟩ := clearLoop_spec hstart
  refine ⟨⟨x.data, m.capacity, 0⟩, ⟨t, h.constructed, h.destroyed ++ m.ids.reverse⟩, ?_, rfl,
    ⟨?_, (hk.replaces hf).writes hwr, rfl, rfl⟩⟩
  · simp only [clear, hk.size, hc, hk.capacity]
    rfl
  · cases hd : x.data with
    | none =>
      rcases hk.buffer with ⟨-, hz⟩ | ⟨p, b, hp, -⟩
      · exact ⟨rfl, rfl, hk.lt, by simp, .inl ⟨rfl, hz⟩⟩
      · simp [hd] at hp
    | some p =>
      obtain ⟨k, hko⟩ := hkeep (hgap (by simp [hd]))
      exact hd ▸ gap_kept hko hk.lt

/-- The destructor. -/
theorem destroy_spec (hw : 0 < w) (hf : h.pool.Fresh) (hk : Kept w h.pool x m) :
    ∃ h', VectorItems.destroy w x h = some h' ∧ Replaces h.pool h'.pool x.data none ∧
      h'.constructed = h.constructed ∧ h'.destroyed = h.destroyed ++ m.ids.reverse := by
  obtain ⟨x', h₁, hc, hd, hacts⟩ := clear_spec hw hf hk
  cases hx : x.data with
  | none =>
    refine ⟨h₁, ?_, ?_, hacts.constructed, hacts.destroyed⟩
    · simp [VectorItems.destroy, hc, freeData, hd, hx, Heap.withPool]
    · have hrep := hacts.replaces
      rwa [hd, hx] at hrep
  | some p =>
    have hrep := hacts.replaces
    rw [hd, hx] at hrep
    obtain ⟨b, hb⟩ := Option.isSome_iff_exists.mp (hrep.live p rfl)
    refine ⟨h₁.withPool (h₁.pool.set p none), ?_, ?_, hacts.constructed, hacts.destroyed⟩
    · simp [VectorItems.destroy, hc, freeData, hd, hx, free_some hb]
    · exact hrep.drop

/-- `operator=(const vector& r)`, where `r` may be the vector itself. -/
theorem copyAssign_spec {r : Vec} {a : Model V} (hw : 0 < w) (hf : h.pool.Fresh)
    (hk : Kept w h.pool x m) (hr : Kept w h.pool r m') (ha : h.constructed = a.constructed)
    (ok : Bool) :
    ∃ x' h', copyAssign w ok r x h = some (x', h') ∧
      Acts w h h' x x' (a.copyOf ok m').1 (a.copyOf ok m').2 m.ids.reverse := by
  obtain ⟨y, h₁, hcopy, hacts⟩ := copyConstruct_spec hw hf hr ha ok
  have hkeep : ∀ p, x.data = some p → y.data ≠ some p ∧ h₁.pool.block p = h.pool.block p :=
    fun p hp => hacts.replaces.keeps hf (hk.live p hp) (by simp)
  have hk₁ : Kept w h₁.pool x m := hk.congr fun p hp => (hkeep p hp).2
  have hf₁ : h₁.pool.Fresh := hacts.replaces.fresh
  obtain ⟨h₂, hdes, hrep, hcon, hended⟩ := destroy_spec hw hf₁ hk₁
  refine ⟨y, h₂, by simp [copyAssign, hcopy, hdes], ?_,
    hacts.replaces.after hrep (hk.data_lt hf), ?_, ?_⟩
  · refine hacts.kept.congr fun p hp => (hrep.keeps hf₁ (hacts.kept.live p hp) fun hxp => ?_).2
    exact (hkeep p hxp).1 hp
  · rw [hcon, hacts.constructed]
  · rw [hended, hacts.destroyed, List.append_nil]

/-- `vector(unsigned defSize)`. -/
theorem construct_spec (hf : h.pool.Fresh) (hn : n < 2 ^ 32) (ok : Bool) :
    Acts w h (VectorItems.construct w ok n h).2 ⟨none, 0, 0⟩ (VectorItems.construct w ok n h).1
      ⟨[], if ok then n else 0⟩ 0 [] := by
  cases ok with
  | false => exact ⟨kept_empty, .refl hf (by simp), rfl, (List.append_nil _).symm⟩
  | true =>
    exact ⟨⟨rfl, rfl, hn, by simp, .inr ⟨_, _, rfl, alloc_block _ _, rfl, holds_nil _ _⟩⟩,
      .alloc hf _, rfl, (List.append_nil _).symm⟩

/-- An iteration meets the elements in order. -/
theorem iterateLoop_spec {zs : List (ℕ × V)} (hx : x.size = i + zs.length) (hlt : x.size < 2 ^ 32)
    (hread : Reads w h.pool x.data i zs) :
    iterateLoop w x h (zs.length + 1) i = some (zs.map Prod.snd) := by
  induction zs generalizing i with
  | nil =>
    have hstop : i = x.size := by simp [hx]
    simp [iterateLoop, hstop]
  | cons z zs ih =>
    rw [List.length_cons] at hx
    have hgo : i ≠ x.size := by omega
    have hrest := ih (i := i + 1) (by omega) hread.tail
    rw [List.length_cons, iterateLoop, if_neg hgo, hread.valueOf, u32_of_lt (by omega)]
    simp [hrest]

/-- An iteration sees the elements in order. -/
theorem iterate_spec (hw : 0 < w) (hk : Kept w h.pool x m) : iterate w x h = some m.values := by
  rw [iterate, hk.size]
  exact iterateLoop_spec (by rw [hk.size, Nat.zero_add]) (hk.size ▸ hk.size_lt hw) (hk.reads hw)

end Removal

end KernelLib.VectorSteps
