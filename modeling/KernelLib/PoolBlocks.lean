import Mathlib.Data.List.Basic
import Mathlib.Data.List.Count
import Mathlib.Data.List.NodupEquivFin
import Mathlib.Logic.Function.Basic
import Mathlib.Tactic.Ring

/-!
# Pool blocks with slots

Blocks come from a pool that may refuse an allocation, are read and written
slot by slot or moved as bytes, and go back to the pool once. An access
outside the bytes of a block, through a null pointer or to a block that was
freed fails. A move of bytes carries the objects in the slots along and
touches no memory when it is empty, so it accepts a null pointer then.

Whole blocks have owners: a list of pointers owns a pool when every block
that is allocated stands in it once. Replacing one pointer of the list by
the one a step leaves in its place keeps this up.
-/

namespace KernelLib.PoolBlocks

/-- A block of the pool. -/
structure Block (α : Type) where
  /-- How many bytes were asked for. -/
  bytes : ℕ
  /-- The objects in its slots. -/
  slot : ℕ → Option α

/-- The blocks, named in the order of their allocation. -/
structure Pool (α : Type) where
  /-- The blocks that are allocated. -/
  block : ℕ → Option (Block α)
  /-- How many were allocated. -/
  allocated : ℕ

variable {α : Type}

/-- Nothing is allocated. -/
def Pool.empty : Pool α := ⟨fun _ => none, 0⟩

/-- Names to come are free. -/
def Pool.Fresh (s : Pool α) : Prop := ∀ p, s.allocated ≤ p → s.block p = none

/-- Overwrite one block. -/
def Pool.set (p : ℕ) (b : Option (Block α)) (s : Pool α) : Pool α :=
  { s with block := Function.update s.block p b }

/-- Allocate a block, when the pool grants it. -/
def Pool.alloc (ok : Bool) (bytes : ℕ) (s : Pool α) : Option ℕ × Pool α :=
  if ok then
    (some s.allocated, { s.set s.allocated (some ⟨bytes, fun _ => none⟩) with
      allocated := s.allocated + 1 })
  else (none, s)

/-- The block a pointer leads to. -/
def Pool.deref (q : Option ℕ) (s : Pool α) : Option (ℕ × Block α) := do
  let p ← q
  let b ← s.block p
  return (p, b)

/-- Hand a block back. -/
def Pool.free (q : Option ℕ) (s : Pool α) : Option (Pool α) :=
  (s.deref q).map fun pb => s.set pb.1 none

/-- Read the object in a slot of `w` bytes. -/
def Pool.read (w : ℕ) (q : Option ℕ) (i : ℕ) (s : Pool α) : Option α := do
  let (_, b) ← s.deref q
  if (i + 1) * w ≤ b.bytes then b.slot i else none

/-- Overwrite one slot. -/
def Block.put (i : ℕ) (x : Option α) (b : Block α) : Block α :=
  { b with slot := Function.update b.slot i x }

/-- Write a slot of `w` bytes. -/
def Pool.write (w : ℕ) (q : Option ℕ) (i : ℕ) (x : Option α) (s : Pool α) : Option (Pool α) := do
  let (p, b) ← s.deref q
  if (i + 1) * w ≤ b.bytes then some (s.set p (some (b.put i x))) else none

/-- The slots from `i` on after `len` bytes came from the slots of `c` from `j`
on. A slot of which only a part was overwritten holds no object. -/
def Block.overwrite (b : Block α) (w i : ℕ) (c : Block α) (j len : ℕ) : Block α :=
  { b with
    slot := fun k =>
      if k < i then b.slot k
      else if (k - i + 1) * w ≤ len then c.slot (j + (k - i))
      else if (k - i) * w < len then none
      else b.slot k }

/-- `RtlMoveMemory` of `len` bytes to slot `i` from slot `j`. -/
def Pool.move (w : ℕ) (dst : Option ℕ) (i : ℕ) (src : Option ℕ) (j len : ℕ) (s : Pool α) :
    Option (Pool α) :=
  if len = 0 then some s
  else do
    let (p, b) ← s.deref dst
    let (_, c) ← s.deref src
    if i * w + len ≤ b.bytes ∧ j * w + len ≤ c.bytes then
      some (s.set p (some (b.overwrite w i c j len)))
    else none

/-- `RtlCopyMemory`, for ranges that do not overlap. -/
def Pool.copy (w : ℕ) (dst : Option ℕ) (i : ℕ) (src : Option ℕ) (j len : ℕ) (s : Pool α) :
    Option (Pool α) :=
  if dst = src ∧ i * w < j * w + len ∧ j * w < i * w + len then none else s.move w dst i src j len

section Blocks

variable {b c : Block α} {xs ys : List α} {w i j k n : ℕ} {x : Option α}

/-- The objects in the slots from `i` on. -/
def Block.Holds (b : Block α) (i : ℕ) (xs : List α) : Prop :=
  ∀ k, k < xs.length → b.slot (i + k) = xs[k]?

@[simp] theorem holds_nil (b : Block α) (i : ℕ) : b.Holds i [] := by simp [Block.Holds]

/-- A block holds two lists one behind the other. -/
theorem holds_append : b.Holds i (xs ++ ys) ↔ b.Holds i xs ∧ b.Holds (i + xs.length) ys := by
  constructor
  · intro h
    refine ⟨fun k hk => ?_, fun k hk => ?_⟩
    · rw [h k (by simp only [List.length_append]; omega), List.getElem?_append_left hk]
    · have hx := h (xs.length + k) (by simp only [List.length_append]; omega)
      rwa [← Nat.add_assoc, List.getElem?_append_right (by omega), Nat.add_sub_cancel_left] at hx
  · rintro ⟨hx, hy⟩ k hk
    rcases Nat.lt_or_ge k xs.length with hlt | hge
    · rw [hx k hlt, List.getElem?_append_left hlt]
    · have hk' := hy (k - xs.length) (by simp only [List.length_append] at hk; omega)
      rw [List.getElem?_append_right hge, ← hk']
      congr 1
      omega

/-- A block holds one element in its slot. -/
theorem holds_singleton {a : α} : b.Holds i [a] ↔ b.slot i = some a := by
  simp [Block.Holds]

/-- Only the slots looked at matter. -/
theorem Block.Holds.congr (h : b.Holds i xs)
    (hc : ∀ k, i ≤ k → k < i + xs.length → c.slot k = b.slot k) : c.Holds i xs :=
  fun k hk => (hc (i + k) (by omega) (by omega)).trans (h k hk)

/-- An element that a block holds is in its slot. -/
theorem Block.Holds.slot (h : b.Holds i xs) (hk : k < xs.length) :
    b.slot (i + k) = some xs[k] := by
  rw [h k hk, List.getElem?_eq_getElem hk]

/-- Filling a slot does not change the size. -/
@[simp] theorem put_bytes (b : Block α) (k : ℕ) (x : Option α) : (b.put k x).bytes = b.bytes := rfl

/-- The slot that was filled has what it was filled with. -/
@[simp] theorem put_slot (b : Block α) (k : ℕ) (x : Option α) : (b.put k x).slot k = x := by
  simp [Block.put]

/-- A write elsewhere keeps what a range of slots holds. -/
theorem Block.Holds.put (h : b.Holds i xs) (hk : k < i ∨ i + xs.length ≤ k) :
    (b.put k x).Holds i xs :=
  h.congr fun l h₁ h₂ => Function.update_of_ne (by omega) _ _

/-- Whole slots are overwritten one for one. -/
theorem overwrite_slot (hw : 0 < w) (k : ℕ) :
    (b.overwrite w i c j (n * w)).slot k =
      if i ≤ k ∧ k < i + n then c.slot (j + (k - i)) else b.slot k := by
  have h₁ : (k - i + 1) * w ≤ n * w ↔ k - i + 1 ≤ n := Nat.mul_le_mul_right_iff hw
  have h₂ : (k - i) * w < n * w ↔ k - i < n := Nat.mul_lt_mul_right hw
  simp only [Block.overwrite, h₁, h₂]
  split_ifs <;> first | rfl | omega

/-- The slots written hold what was moved there. -/
theorem Block.Holds.overwrite_in (hw : 0 < w) (h : c.Holds j xs) :
    (b.overwrite w i c j (xs.length * w)).Holds i xs := by
  intro k hk
  rw [overwrite_slot hw, if_pos (by omega), Nat.add_sub_cancel_left]
  exact h k hk

/-- The slots outside keep what they hold. -/
theorem Block.Holds.overwrite_out (hw : 0 < w) (h : b.Holds k ys)
    (hk : k + ys.length ≤ i ∨ i + n ≤ k) : (b.overwrite w i c j (n * w)).Holds k ys :=
  h.congr fun l h₁ h₂ => by rw [overwrite_slot hw, if_neg (by omega)]

end Blocks

section Access

variable {s t : Pool α} {b c : Block α} {xs ys : List α} {p q w i j n : ℕ} {x : Option α}
  {d src : Option ℕ}

/-- The block that was set is what it was set to. -/
@[simp] theorem set_block_self (s : Pool α) (p : ℕ) (b : Option (Block α)) :
    (s.set p b).block p = b := by
  simp [Pool.set]

/-- Setting a block leaves the others. -/
theorem set_block_of_ne (b : Option (Block α)) (h : q ≠ p) : (s.set p b).block q = s.block q := by
  simp [Pool.set, h]

/-- Setting a block is no allocation. -/
@[simp] theorem set_allocated (s : Pool α) (p : ℕ) (b : Option (Block α)) :
    (s.set p b).allocated = s.allocated := rfl

/-- Of two blocks that are set the second one stays. -/
@[simp] theorem set_set (s : Pool α) (p : ℕ) (b b' : Option (Block α)) :
    (s.set p b).set p b' = s.set p b' := by
  simp [Pool.set]

/-- Setting a block to what it is changes nothing. -/
theorem set_eq_self (h : s.block p = some b) : s.set p (some b) = s := by
  rw [Pool.set, ← h, Function.update_eq_self]

/-- A pointer to a block that is allocated leads to it. -/
theorem deref_some (h : s.block p = some b) : s.deref (some p) = some (p, b) := by
  simp [Pool.deref, h]

/-- A block that is allocated can be freed. -/
theorem free_some (h : s.block p = some b) : s.free (some p) = some (s.set p none) := by
  simp [Pool.free, deref_some h]

/-- A slot within the bytes of a block can be read. -/
theorem read_some (h : s.block p = some b) (hi : (i + 1) * w ≤ b.bytes) :
    s.read w (some p) i = b.slot i := by
  simp [Pool.read, deref_some h, hi]

/-- It can be written. -/
theorem write_some (h : s.block p = some b) (hi : (i + 1) * w ≤ b.bytes) :
    s.write w (some p) i x = some (s.set p (some (b.put i x))) := by
  simp [Pool.write, deref_some h, hi]

/-- The block that was granted. -/
theorem alloc_block (s : Pool α) (bytes : ℕ) :
    (s.alloc true bytes).2.block s.allocated = some ⟨bytes, fun _ => none⟩ := set_block_self _ _ _

/-- A pointer leads only to a block that is allocated. -/
theorem deref_eq_some : s.deref d = some (p, b) ↔ d = some p ∧ s.block p = some b := by
  cases d with
  | none => simp [Pool.deref]
  | some q =>
    cases hb : s.block q with
    | none =>
      simp only [Pool.deref, Option.bind_eq_bind, Option.bind_some, hb, Option.bind_none,
        reduceCtorEq, Option.some.injEq, false_iff, not_and]
      rintro rfl
      simp [hb]
    | some c =>
      simp only [deref_some hb, Option.some.injEq, Prod.mk.injEq]
      constructor
      · rintro ⟨rfl, rfl⟩
        exact ⟨rfl, hb⟩
      · rintro ⟨rfl, hc⟩
        exact ⟨rfl, Option.some.inj (hb.symm.trans hc)⟩

/-- What a write that succeeds did. -/
theorem write_eq_some (h : s.write w d i x = some t) :
    ∃ p b, d = some p ∧ s.block p = some b ∧ (i + 1) * w ≤ b.bytes ∧
      t = s.set p (some (b.put i x)) := by
  obtain ⟨⟨p, b⟩, hp, h⟩ := Option.bind_eq_some_iff.mp h
  obtain ⟨hd, hb⟩ := deref_eq_some.mp hp
  by_cases hle : (i + 1) * w ≤ b.bytes
  · exact ⟨p, b, hd, hb, hle, by simpa [hle, eq_comm] using h⟩
  · simp [hle] at h

/-- What a move of bytes that succeeds did. -/
theorem move_eq_some {len : ℕ} (hlen : len ≠ 0) (h : s.move w d i src j len = some t) :
    ∃ p b q c, d = some p ∧ s.block p = some b ∧ src = some q ∧ s.block q = some c ∧
      i * w + len ≤ b.bytes ∧ j * w + len ≤ c.bytes ∧
      t = s.set p (some (b.overwrite w i c j len)) := by
  rw [Pool.move, if_neg hlen] at h
  obtain ⟨⟨p, b⟩, hp, h⟩ := Option.bind_eq_some_iff.mp h
  obtain ⟨⟨q, c⟩, hq, h⟩ := Option.bind_eq_some_iff.mp h
  obtain ⟨hd, hb⟩ := deref_eq_some.mp hp
  obtain ⟨hsrc, hc⟩ := deref_eq_some.mp hq
  by_cases hle : i * w + len ≤ b.bytes ∧ j * w + len ≤ c.bytes
  · exact ⟨p, b, q, c, hd, hb, hsrc, hc, hle.1, hle.2, by simpa [hle, eq_comm] using h⟩
  · simp [hle] at h

/-- What can be read from a slot. -/
theorem read_eq_some {y : α} :
    s.read w d i = some y ↔
      ∃ p b, d = some p ∧ s.block p = some b ∧ (i + 1) * w ≤ b.bytes ∧ b.slot i = some y := by
  constructor
  · intro h
    obtain ⟨⟨p, b⟩, hp, h⟩ := Option.bind_eq_some_iff.mp h
    obtain ⟨hd, hb⟩ := deref_eq_some.mp hp
    by_cases hle : (i + 1) * w ≤ b.bytes
    · exact ⟨p, b, hd, hb, hle, by simpa [hle] using h⟩
    · simp [hle] at h
  · rintro ⟨p, b, rfl, hb, hle, hslot⟩
    rw [read_some hb hle, hslot]

/-- Slots in front of the place that bytes were moved to read as before. -/
theorem read_of_move {len k : ℕ} {r : Option ℕ} (h : s.move w d i src j len = some t) (hk : k < i) :
    t.read w r k = s.read w r k := by
  by_cases hlen : len = 0
  · rw [Pool.move, if_pos hlen] at h
    rw [Option.some.inj h]
  · obtain ⟨p, b, q, c, -, hb, -, -, -, -, rfl⟩ := move_eq_some hlen h
    cases r with
    | none => rfl
    | some r =>
      by_cases hr : r = p
      · subst hr
        simp [Pool.read, Pool.deref, hb, Block.overwrite, hk]
      · simp [Pool.read, Pool.deref, set_block_of_ne _ hr]

/-- So do the slots behind whole slots that were moved. -/
theorem read_behind_move {k : ℕ} {r : Option ℕ} (hw : 0 < w)
    (h : s.move w d i src j (n * w) = some t) (hk : i + n ≤ k) : t.read w r k = s.read w r k := by
  by_cases hlen : n * w = 0
  · rw [Pool.move, if_pos hlen] at h
    rw [Option.some.inj h]
  · obtain ⟨p, b, q, c, -, hb, -, -, -, -, rfl⟩ := move_eq_some hlen h
    cases r with
    | none => rfl
    | some r =>
      by_cases hr : r = p
      · subst hr
        have hslot : (b.overwrite w i c j (n * w)).slot k = b.slot k := by
          rw [overwrite_slot hw, if_neg (by omega)]
        have hbytes : (b.overwrite w i c j (n * w)).bytes = b.bytes := rfl
        simp [Pool.read, Pool.deref, hb, hslot, hbytes]
      · simp [Pool.read, Pool.deref, set_block_of_ne _ hr]

/-- A copy that succeeds is a move. -/
theorem move_of_copy {len : ℕ} (h : s.copy w d i src j len = some t) :
    s.move w d i src j len = some t := by
  unfold Pool.copy at h
  split at h
  · cases h
  · exact h

/-- A move keeps the sizes of blocks. -/
theorem bytes_of_move {len : ℕ} (h : s.move w d i src j len = some t) (hq : s.block q = some c) :
    ∃ c', t.block q = some c' ∧ c'.bytes = c.bytes := by
  by_cases hlen : len = 0
  · rw [Pool.move, if_pos hlen] at h
    obtain rfl := Option.some.inj h
    exact ⟨c, hq, rfl⟩
  · obtain ⟨p, b, r, e, -, hb, -, -, -, -, rfl⟩ := move_eq_some hlen h
    by_cases hne : q = p
    · subst hne
      obtain rfl : b = c := Option.some.inj (hb.symm.trans hq)
      exact ⟨_, set_block_self _ _ _, rfl⟩
    · exact ⟨c, (by simp [Pool.set, hne, hq]), rfl⟩

/-- Bytes that can be moved: none, or the objects in slots of a live block. -/
def Lends (w : ℕ) (s : Pool α) (src : Option ℕ) (j : ℕ) (xs : List α) : Prop :=
  xs = [] ∨ ∃ q c, src = some q ∧ s.block q = some c ∧ (j + xs.length) * w ≤ c.bytes ∧ c.Holds j xs

/-- Only the block they are in matters. -/
theorem Lends.congr (h : Lends w s src j xs) (hb : ∀ q, src = some q → t.block q = s.block q) :
    Lends w t src j xs := by
  rcases h with rfl | ⟨q, c, hq, hc, hle, hx⟩
  · exact .inl rfl
  · exact .inr ⟨q, c, hq, (hb q hq).trans hc, hle, hx⟩

/-- Whole slots move with their objects and everything else in the block stays. -/
theorem move_spec (hw : 0 < w) (hb : s.block p = some b) (hi : (i + xs.length) * w ≤ b.bytes)
    (h : Lends w s src j xs) :
    ∃ b', s.move w (some p) i src j (xs.length * w) = some (s.set p (some b')) ∧
      b'.bytes = b.bytes ∧ b'.Holds i xs ∧
      ∀ k ys, b.Holds k ys → k + ys.length ≤ i ∨ i + xs.length ≤ k → b'.Holds k ys := by
  rcases h with rfl | ⟨q, c, rfl, hc, hle, hx⟩
  · exact ⟨b, by simp [Pool.move, set_eq_self hb], rfl, holds_nil _ _, fun _ _ h _ => h⟩
  · by_cases hn : xs.length = 0
    · obtain rfl := List.eq_nil_of_length_eq_zero hn
      exact ⟨b, by simp [Pool.move, set_eq_self hb], rfl, holds_nil _ _, fun _ _ h _ => h⟩
    · have hlen : xs.length * w ≠ 0 := Nat.mul_ne_zero hn (by omega)
      refine ⟨b.overwrite w i c j (xs.length * w), ?_, rfl, hx.overwrite_in hw,
        fun k ys hy hk => hy.overwrite_out hw hk⟩
      have hbytes : i * w + xs.length * w ≤ b.bytes ∧ j * w + xs.length * w ≤ c.bytes := by
        rw [← Nat.add_mul, ← Nat.add_mul]
        exact ⟨hi, hle⟩
      simp only [Pool.move, if_neg hlen, deref_some hb, deref_some hc, Option.bind_eq_bind,
        Option.bind_some, if_pos hbytes]

/-- A copy between different blocks is a move. -/
theorem copy_of_ne (h : d ≠ src) (len : ℕ) : s.copy w d i src j len = s.move w d i src j len := by
  simp [Pool.copy, h]

/-- An empty copy touches nothing. -/
theorem copy_zero : s.copy w d i src j 0 = some s := by
  have hsep : ¬(d = src ∧ i * w < j * w + 0 ∧ j * w < i * w + 0) := by omega
  rw [Pool.copy, if_neg hsep, Pool.move, if_pos rfl]

end Access

section Ownership

variable {s t : Pool α} {d d' : Option ℕ} {ds : List (Option ℕ)} {p q i j : ℕ}

/-- The list owns the pool: each allocated block stands in it once, and names
to come are free. -/
structure Owned (s : Pool α) (ds : List (Option ℕ)) : Prop where
  once : ∀ p, ds.count (some p) = if (s.block p).isSome then 1 else 0
  fresh : s.Fresh

/-- A step that leaves `d'` in place of the pointer `d`: the same block, or a
new one after the old was freed. No other block changes. -/
structure Replaces (s t : Pool α) (d d' : Option ℕ) : Prop where
  le : s.allocated ≤ t.allocated
  frame : ∀ p, d ≠ some p → d' ≠ some p → t.block p = s.block p
  same_or_new : d' = d ∨ ∀ p, d' = some p → s.allocated ≤ p ∧ p < t.allocated
  gone : d' ≠ d → ∀ p, d = some p → t.block p = none
  live : ∀ p, d' = some p → (t.block p).isSome
  fresh : t.Fresh

/-- Nothing happened. -/
theorem Replaces.refl (hf : s.Fresh) (hd : ∀ p, d = some p → (s.block p).isSome) :
    Replaces s s d d :=
  ⟨le_rfl, fun _ _ _ => rfl, .inl rfl, fun h => absurd rfl h, hd, hf⟩

/-- A step inside the block of `d`: no block comes or goes. -/
structure Writes (s t : Pool α) (d : Option ℕ) : Prop where
  allocated : t.allocated = s.allocated
  frame : ∀ p, d ≠ some p → t.block p = s.block p
  live : ∀ p, (t.block p).isSome = (s.block p).isSome

/-- Doing nothing writes to no other block. -/
theorem Writes.refl (s : Pool α) (d : Option ℕ) : Writes s s d :=
  ⟨rfl, fun _ _ => rfl, fun _ => rfl⟩

/-- Two writes to a block write to no other. -/
theorem Writes.trans {u : Pool α} (h : Writes s t d) (h' : Writes t u d) : Writes s u d :=
  ⟨h'.allocated.trans h.allocated, fun p hp => (h'.frame p hp).trans (h.frame p hp),
    fun p => (h'.live p).trans (h.live p)⟩

/-- A new state of one block. -/
theorem writes_set {b b' : Block α} (hb : s.block p = some b) :
    Writes s (s.set p (some b')) (some p) := by
  refine ⟨rfl, fun q hq => set_block_of_ne _ fun he => hq (congrArg some he.symm), fun q => ?_⟩
  rcases eq_or_ne q p with rfl | hqp
  · simp [hb]
  · rw [set_block_of_ne _ hqp]

/-- Steps inside the block that is left in place. -/
theorem Replaces.writes {r : Pool α} (h : Replaces r s d d') (hw : Writes s t d') :
    Replaces r t d d' := by
  have hnone : ∀ p, s.block p = none → t.block p = none := fun p hp => by
    have hlive := hw.live p
    rw [hp] at hlive
    simpa using hlive
  refine ⟨h.le.trans hw.allocated.ge, fun p h₁ h₂ => (hw.frame p h₂).trans (h.frame p h₁ h₂), ?_,
    fun hne p hp => hnone p (h.gone hne p hp), fun p hp => (hw.live p).trans (h.live p hp),
    fun p hp => hnone p (h.fresh p (hw.allocated ▸ hp))⟩
  rw [hw.allocated]
  exact h.same_or_new

/-- A granted allocation leaves a new block without objects. -/
theorem Replaces.alloc (hf : s.Fresh) (bytes : ℕ) :
    Replaces s (s.alloc true bytes).2 none (some s.allocated) := by
  refine ⟨Nat.le_succ _, fun q _ h₂ => ?_, .inr ?_, fun _ _ h => by simp at h, ?_, fun q hq => ?_⟩
  · exact set_block_of_ne _ fun he => h₂ (congrArg some he.symm)
  · rintro _ ⟨⟩
    exact ⟨le_rfl, Nat.lt_succ_self _⟩
  · rintro _ ⟨⟩
    simp [Pool.alloc, Pool.set]
  · have hq' : s.allocated + 1 ≤ q := hq
    exact (set_block_of_ne _ (by omega)).trans (hf q (by omega))

/-- Handing back the block that was left in place. -/
theorem Replaces.drop (h : Replaces s t (some q) (some q)) :
    Replaces s (t.set q none) (some q) none := by
  refine ⟨h.le, fun p h₁ _ => ?_, .inr fun _ hp => by simp at hp, fun _ p hp => ?_,
    fun _ hp => by simp at hp, fun p hp => ?_⟩
  · rw [set_block_of_ne _ fun he => h₁ (congrArg some he.symm), h.frame p h₁ h₁]
  · obtain rfl := Option.some.inj hp
    exact set_block_self _ _ _
  · rcases eq_or_ne p q with rfl | hpq
    · exact set_block_self _ _ _
    · exact (set_block_of_ne _ hpq).trans (h.fresh p hp)

/-- A new block is taken and then the old one is handed back. -/
theorem Replaces.after {u : Pool α} (h : Replaces s t none d') (hu : Replaces t u d none)
    (hd : ∀ q, d = some q → q < s.allocated) : Replaces s u d d' := by
  have hnew : ∀ p, d' = some p → s.allocated ≤ p := fun p hp => by
    rcases h.same_or_new with hs | hn
    · simp [hs] at hp
    · exact (hn p hp).1
  have hdisj : ∀ p, d' = some p → d ≠ some p := fun p hp hdp =>
    absurd (hd p hdp) (hnew p hp).not_gt
  refine ⟨h.le.trans hu.le, fun p h₁ h₂ => ?_, .inr fun p hp => ⟨hnew p hp, ?_⟩, fun _ p hp => ?_,
    fun p hp => ?_, hu.fresh⟩
  · exact (hu.frame p h₁ (by simp)).trans (h.frame p (by simp) h₂)
  · by_contra hge
    have hlive : (u.block p).isSome := by
      rw [hu.frame p (hdisj p hp) (by simp)]
      exact h.live p hp
    simp [hu.fresh p (by omega)] at hlive
  · exact hu.gone (by simp [hp]) p hp
  · rw [hu.frame p (hdisj p hp) (by simp)]
    exact h.live p hp

/-- Another block that is allocated is not the one a step leaves, and stays. -/
theorem Replaces.keeps (h : Replaces s t d d') (hf : s.Fresh) (hq : (s.block q).isSome)
    (hd : d ≠ some q) : d' ≠ some q ∧ t.block q = s.block q := by
  have hne : d' ≠ some q := fun hd' => by
    rcases h.same_or_new with hs | hn
    · exact hd (hs ▸ hd')
    · simp [hf q (hn q hd').1] at hq
  exact ⟨hne, h.frame q hd hne⟩

/-- A pointer in the list leads to a block. -/
theorem Owned.live (h : Owned s ds) (hp : some p ∈ ds) : (s.block p).isSome := by
  have hpos := List.count_pos_iff.mpr hp
  rw [h.once] at hpos
  by_contra hn
  simp [hn] at hpos

/-- No block has two owners. -/
theorem Owned.unique (h : Owned s ds) (hi : ds[i]? = some (some p)) (hj : ds[j]? = some (some p)) :
    i = j := by
  obtain ⟨hi', hpi⟩ := List.getElem?_eq_some_iff.mp hi
  obtain ⟨hj', hpj⟩ := List.getElem?_eq_some_iff.mp hj
  have hle : ds.count (some p) ≤ 1 := by
    rw [h.once]
    split <;> omega
  have hdup : ¬ List.Duplicate (some p) ds := by
    intro hd
    have htwo := (List.duplicate_iff_sublist.mp hd).count_le (some p)
    simp only [List.count_cons_self, List.count_nil] at htwo
    omega
  by_contra hne
  rcases Nat.lt_or_gt_of_ne hne with hlt | hlt
  · exact hdup (List.duplicate_iff_exists_distinct_get.mpr
      ⟨⟨i, hi'⟩, ⟨j, hj'⟩, hlt, hpi.symm, hpj.symm⟩)
  · exact hdup (List.duplicate_iff_exists_distinct_get.mpr
      ⟨⟨j, hj'⟩, ⟨i, hi'⟩, hlt, hpj.symm, hpi.symm⟩)

/-- An empty pool is owned by nobody. -/
theorem owned_empty : Owned (Pool.empty : Pool α) [] := 
  ⟨by simp [Pool.empty], fun _ _ => rfl⟩

/-- Ownership is about which pointers there are, not about their order. -/
theorem Owned.congr {es : List (Option ℕ)} (h : Owned s ds)
    (he : ∀ p, es.count (some p) = ds.count (some p)) : Owned s es :=
  ⟨fun p => (he p).trans (h.once p), h.fresh⟩

/-- What a step leaves in place of a pointer changes the owners by just that. -/
theorem Owned.replace {es : List (Option ℕ)} (h : Owned s ds) (hr : Replaces s t d d')
    (hd : ∀ p, d = some p → some p ∈ ds)
    (he : ∀ p, es.count (some p) + (if d = some p then 1 else 0) =
      ds.count (some p) + if d' = some p then 1 else 0) : Owned t es := by
  refine ⟨fun p => ?_, hr.fresh⟩
  have hcount := he p
  rw [h.once] at hcount
  by_cases hold : d = some p
  · have hlive : (s.block p).isSome := h.live (hd p hold)
    rw [if_pos hlive, if_pos hold] at hcount
    by_cases hnew : d' = some p
    · rw [if_pos hnew] at hcount
      rw [if_pos (hr.live p hnew)]
      omega
    · have hgone : t.block p = none := hr.gone (fun hne => hnew (hne.trans hold)) p hold
      rw [if_neg hnew] at hcount
      simp only [hgone, Option.isSome_none, Bool.false_eq_true, if_false]
      omega
  · rw [if_neg hold] at hcount
    by_cases hnew : d' = some p
    · have hge : s.allocated ≤ p := by
        rcases hr.same_or_new with hsame | hfresh
        · exact absurd (hsame.symm.trans hnew) hold
        · exact (hfresh p hnew).1
      rw [if_pos hnew, h.fresh p hge] at hcount
      rw [if_pos (hr.live p hnew)]
      simpa using hcount
    · rw [if_neg hnew] at hcount
      rw [hr.frame p hold hnew]
      omega

/-- A buffer that is exchanged has one owner less, and the new one has one more. -/
theorem count_set {ds : List (Option ℕ)} {i : ℕ} (hi : ds[i]? = some d) (d' : Option ℕ) (p : ℕ) :
    (ds.set i d').count (some p) + (if d = some p then 1 else 0) =
      ds.count (some p) + if d' = some p then 1 else 0 := by
  obtain ⟨hlt, hd⟩ := List.getElem?_eq_some_iff.mp hi
  have hpos : d = some p → 0 < ds.count (some p) := fun hdp =>
    List.count_pos_iff.mpr (hdp ▸ hd ▸ List.getElem_mem hlt)
  rw [List.count_set hlt, hd]
  simp only [beq_iff_eq]
  split_ifs with h₁
  · have hc := hpos h₁
    omega
  · have hc := hpos h₁
    omega
  · omega
  · omega

/-- One owner's pointer changes. -/
theorem Owned.set (h : Owned s ds) (hi : ds[i]? = some d) (hr : Replaces s t d d') :
    Owned t (ds.set i d') :=
  h.replace hr (fun _ hp => List.mem_of_getElem? (hp ▸ hi)) (count_set hi d')

/-- One more owner. -/
theorem Owned.snoc (h : Owned s ds) (hr : Replaces s t none d') : Owned t (ds ++ [d']) :=
  h.replace hr (fun _ hp => by simp at hp) fun p => by
    simp [List.count_append, List.count_singleton]

/-- A step for one owner leaves the blocks of the others alone. -/
theorem Owned.frame (h : Owned s ds) (hi : ds[i]? = some d) (hr : Replaces s t d d')
    (hj : ds[j]? = some (some p)) (hne : j ≠ i) : t.block p = s.block p :=
  (hr.keeps h.fresh (h.live (List.mem_of_getElem? hj)) fun hd => hne (h.unique hj (hd ▸ hi))).2

/-- A step for a new owner leaves the blocks of the others alone. -/
theorem Owned.frame_new (h : Owned s ds) (hr : Replaces s t none d')
    (hj : ds[j]? = some (some p)) : t.block p = s.block p :=
  (hr.keeps h.fresh (h.live (List.mem_of_getElem? hj)) (by simp)).2

end Ownership

end KernelLib.PoolBlocks
