import KernelLib.VectorMethods
import KernelLib.VectorModel
import Mathlib.Data.List.Induction

/-!
# Gaps in a buffer

A buffer holds a list of elements, free slots and a second list behind them.
Elements are constructed in the first free slot, destroyed in the one before
the gap, and the second list is moved as bytes. What is left is again a
buffer with a gap, as long as all slots are within the bytes of the block;
a construction behind these fails.
-/

namespace KernelLib.VectorGaps

open PoolBlocks VectorItems VectorMethods VectorModel Word32

variable {V : Type} {w n i k bytes : ℕ} {h h' : Heap V} {t t' : Pool (ℕ × V)} {d : Option ℕ}
  {us vs : List (ℕ × V)} {xs : List V} {x : Vec} {m : Contents V}

/-- A buffer of so many bytes with `n` free slots between two lists of elements. -/
def Gap (w : ℕ) (t : Pool (ℕ × V)) (d : Option ℕ) (bytes : ℕ) (us vs : List (ℕ × V)) (n : ℕ) :
    Prop :=
  (us.length + n + vs.length) * w ≤ bytes ∧ ∃ p b, d = some p ∧ t.block p = some b ∧
    b.bytes = bytes ∧ b.Holds 0 us ∧ b.Holds (us.length + n) vs

theorem fits_of_le (hk : k ≤ n) (hn : n * w ≤ bytes) : k * w ≤ bytes :=
  (Nat.mul_le_mul_right w hk).trans hn

/-- Without a gap there is one list. -/
theorem gap_zero : Gap w t d bytes us vs 0 ↔ Gap w t d bytes (us ++ vs) [] 0 := by
  simp [Gap, holds_append]

theorem Gap.bytes_eq {p : ℕ} {b : Block (ℕ × V)} (ho : Gap w t d bytes us vs n) (hd : d = some p)
    (hb : t.block p = some b) : b.bytes = bytes := by
  obtain ⟨-, q, c, hq, hc, hbytes, -⟩ := ho
  obtain rfl : q = p := Option.some.inj (hq.symm.trans hd)
  obtain rfl : c = b := Option.some.inj (hc.symm.trans hb)
  exact hbytes

/-- Free slots at the end need not be told apart. -/
theorem Gap.rest (ho : Gap w t d bytes us [] n) (hle : (us.length + i) * w ≤ bytes) :
    Gap w t d bytes us [] i := by
  obtain ⟨-, p, b, hd, hb, hbytes, hu, -⟩ := ho
  exact ⟨by simpa using hle, p, b, hd, hb, hbytes, hu, holds_nil _ _⟩

section Construction

/-- `new` in the first free slot succeeds when there is a value. -/
theorem Gap.construct (ho : Gap w h.pool d bytes us vs (n + 1)) (x : Arg V) :
    ∃ t : V → Pool (ℕ × V),
      h.construct w d us.length x = (h.valueOf w x).map (fun y =>
        ⟨t y, h.constructed + 1, h.destroyed⟩) ∧
      ∀ y, Gap w (t y) d bytes (us ++ [(h.constructed, y)]) vs n ∧ Writes h.pool (t y) d := by
  obtain ⟨hle, p, b, rfl, hb, hbytes, hu, hv⟩ := ho
  have hslot : (us.length + 1) * w ≤ b.bytes := hbytes ▸ fits_of_le (by omega) hle
  refine ⟨fun y => h.pool.set p (some (b.put us.length (some (h.constructed, y)))), ?_, fun y =>
    ⟨⟨?_, p, b.put us.length (some (h.constructed, y)), rfl, set_block_self _ _ _, hbytes, ?_, ?_⟩,
      writes_set hb⟩⟩
  · cases hx : h.valueOf w x with
    | none => simp [Heap.construct, hx]
    | some y =>
      simp only [Heap.construct, hx, write_some hb hslot]
      rfl
  · refine fits_of_le (le_of_eq ?_) hle
    simp only [List.length_append, List.length_singleton]
    omega
  · exact holds_append.mpr ⟨hu.put (by omega), holds_singleton.mpr (by simp)⟩
  · rw [List.length_append, List.length_singleton, Nat.add_assoc, Nat.add_comm 1]
    exact hv.put (by omega)

/-- A construction is within a block, and there is a value for it. -/
theorem construct_some {y : Arg V} (hc : h.construct w d i y = some h') :
    ∃ z p b, h.valueOf w y = some z ∧ d = some p ∧ h.pool.block p = some b ∧
      (i + 1) * w ≤ b.bytes ∧ h'.pool = h.pool.set p (some (b.put i (some (h.constructed, z)))) := by
  obtain ⟨z, hz, hc⟩ := Option.bind_eq_some_iff.mp hc
  obtain ⟨s, hs, hc⟩ := Option.bind_eq_some_iff.mp hc
  obtain ⟨p, b, hd, hb, hle, rfl⟩ := write_eq_some hs
  exact ⟨z, p, b, hz, hd, hb, hle, by rw [← Option.some.inj hc]⟩

/-- A destructor in the slot before the gap. -/
theorem Gap.destroy {e : ℕ × V} (ho : Gap w h.pool d bytes (us ++ [e]) vs n) :
    ∃ t, h.destroy w d us.length = some ⟨t, h.constructed, h.destroyed ++ [e.1]⟩ ∧
      Gap w t d bytes us vs (n + 1) ∧ Writes h.pool t d := by
  obtain ⟨hle, p, b, rfl, hb, hbytes, hu, hv⟩ := ho
  simp only [List.length_append, List.length_singleton] at hle hv
  obtain ⟨hu, he⟩ := holds_append.mp hu
  rw [Nat.zero_add, holds_singleton] at he
  have hslot : (us.length + 1) * w ≤ b.bytes := hbytes ▸ fits_of_le (by omega) hle
  refine ⟨_, by simp only [Heap.destroy, read_some hb hslot, he, write_some hb hslot]; rfl,
    ⟨fits_of_le (by omega) hle, p, b.put us.length none, rfl, set_block_self _ _ _, hbytes,
      hu.put (by omega), ?_⟩, writes_set hb⟩
  rw [Nat.add_comm n, ← Nat.add_assoc]
  exact hv.put (by omega)

/-- The second list moves within the buffer. -/
theorem Gap.shift (hw : 0 < w) (ho : Gap w t d bytes us vs n)
    (hle : (us.length + i + vs.length) * w ≤ bytes) :
    ∃ t', t.move w d (us.length + i) d (us.length + n) (vs.length * w) = some t' ∧
      Gap w t' d bytes us vs i ∧ Writes t t' d := by
  obtain ⟨hle', p, b, rfl, hb, hbytes, hu, hv⟩ := ho
  have hlend : Lends w t (some p) (us.length + n) vs := .inr ⟨p, b, rfl, hb, hbytes ▸ hle', hv⟩
  obtain ⟨b', hm, hb', hv', hkeep⟩ := move_spec hw hb (hbytes ▸ hle) hlend
  exact ⟨_, hm, ⟨hle, p, b', rfl, set_block_self _ _ _, hb'.trans hbytes,
    hkeep 0 us hu (by omega), hv'⟩, writes_set hb⟩

end Construction

section Reading

variable {z : ℕ × V} {zs : List (ℕ × V)}

/-- The slots from `i` on can be read and hold a list. -/
def Reads (w : ℕ) (t : Pool (ℕ × V)) (d : Option ℕ) (i : ℕ) (zs : List (ℕ × V)) : Prop :=
  ∀ k, (hk : k < zs.length) → t.read w d (i + k) = some zs[k]

/-- Reading another block does not see what is written here. -/
theorem read_congr {q : Option ℕ} (hb : ∀ p, q = some p → t'.block p = t.block p) :
    t'.read w q i = t.read w q i := by
  cases q with
  | none => rfl
  | some p => simp [Pool.read, Pool.deref, hb p rfl]

/-- The elements before a gap can be read. -/
theorem Gap.reads (ho : Gap w t d bytes us vs n) : Reads w t d 0 us := by
  obtain ⟨hle, p, b, rfl, hb, hbytes, hu, -⟩ := ho
  intro k hk
  have hslot : (0 + k + 1) * w ≤ b.bytes := hbytes ▸ fits_of_le (by omega) hle
  rw [read_some hb hslot]
  exact hu.slot hk

/-- So can the elements behind it. -/
theorem Gap.reads_rest (ho : Gap w t d bytes us vs n) : Reads w t d (us.length + n) vs := by
  obtain ⟨hle, p, b, rfl, hb, hbytes, -, hv⟩ := ho
  intro k hk
  have hslot : (us.length + n + k + 1) * w ≤ b.bytes := hbytes ▸ fits_of_le (by omega) hle
  rw [read_some hb hslot]
  exact hv.slot hk

theorem Reads.tail (hz : Reads w t d i (z :: zs)) : Reads w t d (i + 1) zs := by
  intro k hk
  have hk' := hz (k + 1) (Nat.succ_lt_succ hk)
  rw [List.getElem_cons_succ] at hk'
  rw [← hk', Nat.add_right_comm, Nat.add_assoc]

theorem Reads.congr (hz : Reads w t d i zs) (hb : ∀ p, d = some p → t'.block p = t.block p) :
    Reads w t' d i zs := fun k hk => (read_congr hb).trans (hz k hk)

/-- The value in the first of the slots. -/
theorem Reads.valueOf (hz : Reads w h.pool d i (z :: zs)) :
    h.valueOf w (.slot d i) = some z.2 := by
  have h₀ := hz 0 (Nat.zero_lt_succ _)
  rw [Nat.add_zero, List.getElem_cons_zero] at h₀
  simp [Heap.valueOf, h₀]

/-- The value in one of the first slots. -/
theorem Reads.valueOf_slot (hz : Reads w h.pool d 0 zs) (hk : k < zs.length) :
    h.valueOf w (.slot d k) = some zs[k].2 := by
  have h₀ := hz k hk
  rw [Nat.zero_add] at h₀
  simp [Heap.valueOf, h₀]

end Reading

section Ranges

/-- What a reference gives while the buffer `d` is filled: elements in front of
the gap can be read in it, and elements of other buffers. -/
def Yields (w : ℕ) (t : Pool (ℕ × V)) (d : Option ℕ) (us : List (ℕ × V)) : Arg V → V → Prop
  | .outside x, y => x = y
  | .slot q j, y => if q = d then ∃ e, us[j]? = some (e, y) else ∃ e, t.read w q j = some (e, y)

theorem Yields.valueOf {x : Arg V} {y : V} (hx : Yields w h.pool d us x y)
    (ho : Gap w h.pool d bytes us vs n) : h.valueOf w x = some y := by
  cases x with
  | outside z =>
    obtain rfl : z = y := hx
    rfl
  | slot q j =>
    dsimp only [Yields] at hx
    by_cases hq : q = d
    · rw [if_pos hq] at hx
      obtain ⟨e, he⟩ := hx
      obtain ⟨hlt, hget⟩ := List.getElem?_eq_some_iff.mp he
      rw [hq, ho.reads.valueOf_slot hlt, hget]
    · rw [if_neg hq] at hx
      obtain ⟨e, he⟩ := hx
      simp [Heap.valueOf, he]

/-- Whatever the elements of a range were constructed from, they fill a gap. -/
theorem constructItems_some {ys : List (Item V)} (hc : constructItems w d us.length ys h = some h')
    (ho : Gap w h.pool d bytes us vs ys.length) :
    ∃ xs : List V, xs.length = ys.length ∧ h'.constructed = h.constructed + ys.length ∧
      h'.destroyed = h.destroyed ∧ Gap w h'.pool d bytes (us ++ numbered h.constructed xs) vs 0 ∧
      Writes h.pool h'.pool d := by
  induction ys generalizing h us with
  | nil =>
    obtain rfl := Option.some.inj hc
    exact ⟨[], rfl, rfl, rfl, by simpa using ho, .refl _ _⟩
  | cons y ys ih =>
    unfold constructItems at hc
    obtain ⟨h₁, hcons, hc⟩ := Option.bind_eq_some_iff.mp hc
    obtain ⟨f, hf, hgap⟩ := ho.construct (y.read d)
    rw [hf] at hcons
    obtain ⟨x, -, rfl⟩ := Option.map_eq_some_iff.mp hcons
    obtain ⟨ho₁, hw₁⟩ := hgap x
    have hlen : us.length + 1 = (us ++ [(h.constructed, x)]).length := by simp
    rw [hlen] at hc
    obtain ⟨xs, hxs, hcon, hdes, ho₂, hw₂⟩ := ih hc ho₁
    refine ⟨x :: xs, by simp [hxs], ?_, hdes, ?_, hw₁.trans hw₂⟩
    · rw [hcon, List.length_cons]
      dsimp only
      omega
    · rw [numbered_cons]
      simpa using ho₂

/-- A range is within the block that it is constructed in. -/
theorem fits_of_constructItems {ys : List (Item V)} (hne : ys ≠ [])
    (hc : constructItems w d i ys h = some h') :
    ∃ p b, d = some p ∧ h.pool.block p = some b ∧ (i + ys.length) * w ≤ b.bytes := by
  induction ys generalizing h i with
  | nil => exact absurd rfl hne
  | cons y ys ih =>
    unfold constructItems at hc
    obtain ⟨h₁, hcons, hc⟩ := Option.bind_eq_some_iff.mp hc
    obtain ⟨z, p, b, -, hp, hb, hle, hpool⟩ := construct_some hcons
    cases ys with
    | nil => exact ⟨p, b, hp, hb, hle⟩
    | cons z zs =>
      obtain ⟨q, c, hq, hc', hle'⟩ := ih (by simp) hc
      obtain rfl : p = q := Option.some.inj (hp.symm.trans hq)
      rw [hpool, set_block_self] at hc'
      obtain rfl := Option.some.inj hc'
      exact ⟨p, b, hp, hb, fits_of_le (by simp only [List.length_cons]; omega) hle'⟩

/-- Values outside of all vectors. -/
theorem constructRange_eq (d : Option ℕ) (i : ℕ) (xs : List V) (h : Heap V) :
    constructRange w d i xs h = constructItems w d i (xs.map fun x => .arg (.outside x)) h := by
  induction xs generalizing i h with
  | nil => rfl
  | cons x xs ih =>
    simp only [constructRange, List.map_cons, constructItems, Item.read]
    exact congrArg _ (funext fun h' => ih (i + 1) h')

theorem insertRange_eq (ok : Bool) (pos : ℕ) (xs : List V) (x : Vec) (h : Heap V) :
    insertRange w ok pos xs x h = insertItems w ok pos (xs.map fun y => .arg (.outside y)) x h := by
  simp only [insertRange, insertItems, List.isEmpty_map, List.length_map, constructRange_eq]

theorem insert_eq (onto : V → Option V) (ok : Bool) (pos : ℕ) (y : V) (x : Vec) (h : Heap V) :
    insert w ok pos (.outside y) x h = insertArg w onto ok pos (.outside y) x h := rfl

end Ranges

section Loops

/-- Copies of the elements of another vector fill the gap at the end. -/
theorem copyLoop_spec {r : Vec} {zs : List (ℕ × V)} (hw : 0 < w) (hbytes : bytes < 2 ^ 32)
    (ho : Gap w h.pool x.data bytes us [] zs.length) (hx : x.size = us.length)
    (hr : r.size = i + zs.length) (hread : Reads w h.pool r.data i zs)
    (hne : ∀ p, r.data = some p → x.data ≠ some p) :
    ∃ t, copyLoop w (fun _ => r) (zs.length + 1) i x h =
        some ({ x with size := us.length + zs.length },
          ⟨t, h.constructed + zs.length, h.destroyed⟩) ∧
      Gap w t x.data bytes (us ++ numbered h.constructed (zs.map Prod.snd)) [] 0 ∧
      Writes h.pool t x.data := by
  induction zs generalizing h us i x with
  | nil =>
    refine ⟨h.pool, ?_, by simpa using ho, .refl _ _⟩
    have hstop : ¬i < r.size := by simp [hr]
    simp [copyLoop, hstop, ← hx]
  | cons z zs ih =>
    have hgo : i < r.size := by
      rw [hr, List.length_cons]
      omega
    obtain ⟨f, hcons, hf⟩ := ho.construct (.slot r.data i)
    rw [hread.valueOf, Option.map_some] at hcons
    obtain ⟨ho₁, hw₁⟩ := hf z.2
    have hsize : u32 (us.length + 1) = us.length + 1 := by
      have hle : us.length + 1 ≤ bytes := by
        refine (Nat.le_mul_of_pos_right _ hw).trans (fits_of_le ?_ ho.1)
        simp only [List.length_cons]
        omega
      exact u32_of_lt (by omega)
    have hread₁ : Reads w (f z.2) r.data (i + 1) zs :=
      hread.tail.congr fun p hp => hw₁.frame p (hne p hp)
    obtain ⟨t₂, hloop, ho₂, hw₂⟩ := ih (h := ⟨f z.2, h.constructed + 1, h.destroyed⟩)
      (x := { x with size := us.length + 1 }) ho₁ (by simp) (by rw [hr, List.length_cons]; omega)
      hread₁ hne
    refine ⟨t₂, ?_, ?_, hw₁.trans hw₂⟩
    · rw [List.length_cons, copyLoop, if_pos hgo]
      simp only [place, hx, hcons, hsize, Option.bind_eq_bind, Option.bind_some, Option.pure_def,
        hloop, List.length_append, List.length_singleton]
      congr 3 <;> omega
    · rw [List.map_cons, numbered_cons]
      simpa using ho₂

/-- `clear` destroys from the end. -/
theorem clearLoop_spec (ho : us = [] ∨ Gap w h.pool d bytes us [] n) :
    ∃ t, clearLoop w d us.length h =
        some ⟨t, h.constructed, h.destroyed ++ (us.map Prod.fst).reverse⟩ ∧
      Writes h.pool t d ∧ (Gap w h.pool d bytes us [] n → ∃ k, Gap w t d bytes [] [] k) := by
  induction us using List.reverseRecOn generalizing h n with
  | nil => exact ⟨h.pool, by simp [clearLoop], .refl _ _, fun ho => ⟨n, ho⟩⟩
  | append_singleton us e ih =>
    have ho' : Gap w h.pool d bytes (us ++ [e]) [] n := ho.resolve_left (by simp)
    obtain ⟨t₁, hd, ho₁, hw₁⟩ := ho'.destroy
    obtain ⟨t₂, hl, hw₂, hk⟩ := ih (h := ⟨t₁, h.constructed, h.destroyed ++ [e.1]⟩) (.inr ho₁)
    refine ⟨t₂, ?_, hw₁.trans hw₂, fun _ => hk ho₁⟩
    rw [List.length_append, List.length_singleton, clearLoop]
    simp [hd, hl]

/-- Raw copies of elements go into the gap at the end, where new ones are to be. -/
theorem Gap.copy {src : Option ℕ} {ys : List (ℕ × V)} (hw : 0 < w) (ho : Gap w t d bytes us [] n)
    (hl : Lends w t src 0 ys) (hle : ys.length ≤ n) (hne : ∀ p, src = some p → d ≠ some p) :
    ∃ t', t.copy w d us.length src 0 (ys.length * w) = some t' ∧ Gap w t' d bytes us [] n ∧
      Writes t t' d := by
  obtain ⟨hroom, p, b, rfl, hb, hbytes, hu, -⟩ := ho
  obtain ⟨b', hm, hb', -, hkeep⟩ := move_spec (i := us.length) hw hb
    (hbytes ▸ fits_of_le (by omega) hroom) hl
  have hsrc : some p ≠ src := fun he => hne p he.symm rfl
  exact ⟨_, (copy_of_ne hsrc _).trans hm, ⟨hroom, p, b', rfl, set_block_self _ _ _, hb'.trans hbytes,
    hkeep 0 us hu (by omega), holds_nil _ _⟩, writes_set hb⟩

end Loops

end KernelLib.VectorGaps
