import KernelLib.KfifoBytes
import KernelLib.StepRuns
import Mathlib.Data.Nat.Size
import Mathlib.Algebra.Order.Ring.Nat

/-!
# The byte fifo refines a bounded queue

The bytes in the queue lie in the ring from `out` on. Because the size
divides `2 ^ 32`, a counter that wraps keeps its place in the ring, and
because the queue is never longer than the size, the wrapped difference of
the counters is its length. Runs follow by induction.
-/

namespace KernelLib.KfifoRefines

open RingBytes KfifoBytes Word32 StepRuns

variable {B : Type} {fifo : Kfifo B} {q : List B} {buffer : List B} {len size p j k : ℕ} {op : Op B}

section Sizes

/-- The sizes for which the counters may wrap. -/
def PowerSize (size : ℕ) : Prop := ∃ k, k ≤ 31 ∧ size = 2 ^ k

theorem PowerSize.pos (h : PowerSize size) : 0 < size := by
  obtain ⟨k, -, rfl⟩ := h
  exact Nat.two_pow_pos k

theorem PowerSize.lt (h : PowerSize size) : size < 2 ^ 32 := by
  obtain ⟨k, hk, rfl⟩ := h
  exact Nat.pow_lt_pow_right (by decide) (by omega)

theorem PowerSize.dvd (h : PowerSize size) : size ∣ 2 ^ 32 := by
  obtain ⟨k, hk, rfl⟩ := h
  exact Nat.pow_dvd_pow 2 (by omega)

/-- The mask takes the remainder by the size. -/
theorem PowerSize.offset_eq (h : PowerSize size) (p : ℕ) : offset size p = p % size := by
  have hpos := h.pos
  have hmask : sub32 size 1 = size - 1 := sub32_of_le hpos h.lt
  rw [offset, hmask]
  obtain ⟨k, -, rfl⟩ := h
  exact and_mask p k

/-- A counter that wraps stays where it is in the ring. -/
theorem PowerSize.u32_mod (h : PowerSize size) (p : ℕ) : u32 p % size = p % size :=
  Nat.mod_mod_of_dvd p h.dvd

theorem PowerSize.firstPart_eq (h : PowerSize size) (p len : ℕ) :
    firstPart size p len = min len (size - p % size) := by
  have hp : p % size < size := Nat.mod_lt p h.pos
  rw [firstPart, h.offset_eq, sub32_of_le hp.le h.lt]

/-- The free space, as long as the queue is within the size. -/
theorem free_eq (hs : size < 2 ^ 32) (hle : sub32 j k ≤ size) :
    u32 (sub32 size j + k) = size - sub32 j k := by
  simp only [sub32, u32] at *
  omega

/-- What the second copy is left with. -/
theorem rest_eq (hk : k < 2 ^ 32) (n : ℕ) : sub32 k (min k n) = k - min k n :=
  sub32_of_le (Nat.min_le_left _ _) hk

end Sizes

section Rounding

variable {n : ℕ}

/-- Half of a number has one bit less. -/
theorem size_half (hn : n ≠ 0) : Nat.size n = Nat.size (n / 2) + 1 := by
  refine le_antisymm ?_ ?_
  · have hlt := Nat.lt_size_self (n / 2)
    rw [Nat.size_le, Nat.pow_succ]
    omega
  · rw [Nat.add_one_le_iff, Nat.lt_size]
    cases hs : Nat.size (n / 2) with
    | zero => simpa using Nat.one_le_iff_ne_zero.mpr hn
    | succ k =>
      have hle : 2 ^ k ≤ n / 2 := Nat.lt_size.mp (by omega)
      rw [Nat.pow_succ]
      omega

/-- The loop counts the bits that are left. -/
theorem highestBitLoop_eq (i pos : ℕ) : highestBitLoop i pos = pos + Nat.size i := by
  induction i using Nat.strong_induction_on generalizing pos with
  | _ i ih =>
    rw [highestBitLoop]
    split
    · rename_i h
      simp [h]
    · rename_i h
      rw [ih (i / 2) (by omega), size_half h]
      omega

/-- `highest_bit` is the length in bits. -/
theorem highestBit_eq (n : ℕ) : highestBit n = Nat.size n := by
  rw [highestBit]
  split
  · rename_i h
    simp [h]
  · rename_i h
    rw [highestBitLoop_eq, size_half h, Nat.zero_add]

/-- A size up to `2 ^ 31` is rounded up to a power of two. -/
theorem allocSize_spec (hpos : 0 < n) (hn : n ≤ 2 ^ 31) :
    ∃ c, allocSize n = some c ∧ PowerSize c ∧ n ≤ c := by
  have hsub : sub32 n 1 = n - 1 := sub32_of_le hpos (by omega)
  rw [allocSize, hsub]
  by_cases h : n &&& (n - 1) = 0
  · rw [if_neg (by simpa using h)]
    obtain ⟨k, rfl⟩ := (Nat.and_sub_one_eq_zero_iff_isPowerOfTwo hpos.ne').mp h
    exact ⟨2 ^ k, rfl, ⟨k, (Nat.pow_le_pow_iff_right one_lt_two).mp hn, rfl⟩, le_rfl⟩
  · rw [if_pos h, roundupPowOfTwo, hsub, highestBit_eq]
    have hsize : Nat.size (n - 1) ≤ 31 := Nat.size_le.mpr (by omega)
    have hlt := Nat.lt_size_self (n - 1)
    rw [if_pos (by omega)]
    exact ⟨_, rfl, ⟨_, hsize, rfl⟩, by omega⟩

end Rounding

/-- The queue lies in the ring from `out` on. -/
structure Holds (fifo : Kfifo B) (q : List B) : Prop where
  size : PowerSize fifo.size
  buffer : fifo.buffer.length = fifo.size
  in_lt : fifo.inIndex < 2 ^ 32
  out_lt : fifo.outIndex < 2 ^ 32
  length : sub32 fifo.inIndex fifo.outIndex = q.length
  le : q.length ≤ fifo.size
  bytes : ∀ j, j < q.length → fifo.buffer[(fifo.outIndex + j) % fifo.size]? = q[j]?

section Queue

/-- The queue after an operation. -/
def queueStep (size : ℕ) (q : List B) : Op B → List B
  | .put buffer len => q ++ buffer.take (min len (size - q.length))
  | .get _ len => q.drop (min len q.length)
  | .reset => []
  | .len => q

/-- What an operation returns. -/
def queueResult (size : ℕ) (q : List B) : Op B → Ret B
  | .put _ len => .count (min len (size - q.length))
  | .get buffer len => .got (q.take (min len q.length) ++ buffer.drop (min len q.length))
    (min len q.length)
  | .reset => .void
  | .len => .count q.length

/-- Lengths are `unsigned` and no longer than the caller's buffer. -/
def Ready : Op B → Prop
  | .put buffer len | .get buffer len => len < 2 ^ 32 ∧ len ≤ buffer.length
  | .reset | .len => True

instance (op : Op B) : Decidable (Ready op) :=
  match op with
  | .put buffer len | .get buffer len =>
    inferInstanceAs (Decidable (len < 2 ^ 32 ∧ len ≤ buffer.length))
  | .reset | .len => isTrue trivial

/-- The byte after the last lies at `in`. -/
theorem Holds.in_eq (h : Holds fifo q) : u32 (fifo.outIndex + q.length) = fifo.inIndex := by
  have hin := h.in_lt
  have hout := h.out_lt
  have hlen := h.length
  simp only [sub32, u32] at *
  omega

/-- Positions from `in` on are those after the queue. -/
theorem Holds.ring_in (h : Holds fifo q) (j : ℕ) :
    (fifo.inIndex + j) % fifo.size = (fifo.outIndex + (q.length + j)) % fifo.size := by
  rw [← h.in_eq, Nat.add_mod, h.size.u32_mod, ← Nat.add_mod, Nat.add_assoc]

/-- `__kfifo_put` appends what there is room for. -/
theorem put_spec (h : Holds fifo q) (hlen : len < 2 ^ 32) (hb : len ≤ buffer.length) :
    ∃ fifo', kfifoPut buffer len fifo = some (fifo', min len (fifo.size - q.length)) ∧
      fifo'.size = fifo.size ∧ Holds fifo' (q ++ buffer.take (min len (fifo.size - q.length))) := by
  have hle := h.le
  have hlt := h.size.lt
  have hn : putLen fifo.size fifo.inIndex fifo.outIndex len = min len (fifo.size - q.length) := by
    rw [putLen, free_eq hlt (h.length ▸ hle), h.length]
  obtain ⟨n, hn'⟩ : ∃ n, n = min len (fifo.size - q.length) := ⟨_, rfl⟩
  obtain ⟨b₁, b₂, h₁, h₂, hlen₂, hin, hout⟩ := write_spec (n := n) buffer fifo.inIndex h.buffer
    h.size.pos (by omega) (by omega) rfl
  have htake : (buffer.take n).length = n := List.length_take_of_le (by omega)
  refine ⟨{ fifo with buffer := b₂, inIndex := u32 (fifo.inIndex + n) }, ?_, rfl, ?_⟩
  · simp only [kfifoPut, hn, ← hn', h.size.firstPart_eq, rest_eq (show n < 2 ^ 32 by omega),
      h.size.offset_eq, h₁, h₂, Option.bind_eq_bind, Option.bind_some]
    rfl
  · rw [← hn']
    refine ⟨h.size, hlen₂, u32_lt _, h.out_lt, ?_, ?_, fun j hj => ?_⟩
    · have hqn : q.length + n < 2 ^ 32 := by omega
      rw [List.length_append, htake, ← h.in_eq, u32_add_u32, Nat.add_assoc, ← u32_of_lt h.out_lt]
      simpa [u32_of_lt h.out_lt, Nat.add_comm] using
        sub32_u32_add (a := fifo.outIndex) hqn
    · simp only [List.length_append, htake]
      omega
    · rw [List.length_append, htake] at hj
      rcases Nat.lt_or_ge j q.length with hold | hnew
      · rw [List.getElem?_append_left hold, ← h.bytes j hold]
        refine hout _ fun i hi heq => ?_
        rw [h.ring_in] at heq
        have hij := add_mod_inj (by omega) (by omega) heq
        omega
      · have hpos : (fifo.outIndex + j) % fifo.size =
            (fifo.inIndex + (j - q.length)) % fifo.size := by
          rw [h.ring_in]
          congr 2
          omega
        rw [List.getElem?_append_right hnew, hpos, hin _ (by omega),
          List.getElem?_take_of_lt (by omega)]

/-- `__kfifo_get` takes the oldest bytes out. -/
theorem get_spec (h : Holds fifo q) (hlen : len < 2 ^ 32) (hb : len ≤ buffer.length) :
    ∃ fifo', kfifoGet buffer len fifo = some (fifo',
        q.take (min len q.length) ++ buffer.drop (min len q.length), min len q.length) ∧
      fifo'.size = fifo.size ∧ Holds fifo' (q.drop (min len q.length)) := by
  have hle := h.le
  have hlt := h.size.lt
  have hn : getLen fifo.inIndex fifo.outIndex len = min len q.length := by rw [getLen, h.length]
  obtain ⟨n, hn'⟩ : ∃ n, n = min len q.length := ⟨_, rfl⟩
  obtain ⟨d₁, d₂, h₁, h₂, hlen₂, hin, hout⟩ := read_spec (n := n) buffer fifo.outIndex h.buffer
    h.size.pos (by omega) (by omega) rfl
  have htake : (q.take n).length = n := List.length_take_of_le (by omega)
  have hd₂ : d₂ = q.take n ++ buffer.drop n := by
    refine List.ext_getElem? fun k => ?_
    rcases Nat.lt_or_ge k n with hk | hk
    · rw [hin k hk, h.bytes k (by omega), List.getElem?_append_left (by omega),
        List.getElem?_take_of_lt hk]
    · rw [hout k hk, List.getElem?_append_right (by omega), htake, List.getElem?_drop]
      congr 1
      omega
  refine ⟨{ fifo with outIndex := u32 (fifo.outIndex + n) }, ?_, rfl, ?_⟩
  · simp only [kfifoGet, hn, ← hn', h.size.firstPart_eq, rest_eq (show n < 2 ^ 32 by omega),
      h.size.offset_eq, h₁, h₂, Option.bind_eq_bind, Option.bind_some, hd₂]
    rfl
  · rw [← hn']
    refine ⟨h.size, h.buffer, h.in_lt, u32_lt _, ?_, ?_, fun j hj => ?_⟩
    · rw [List.length_drop, ← h.in_eq, sub32_u32 (by omega) (by omega)]
      omega
    · change (q.drop n).length ≤ fifo.size
      rw [List.length_drop]
      omega
    · rw [List.length_drop] at hj
      rw [List.getElem?_drop, ← h.bytes (n + j) (by omega), Nat.add_mod (u32 _), h.size.u32_mod,
        ← Nat.add_mod, Nat.add_assoc]

/-- A put that finds no room changes nothing. -/
theorem put_nothing (h : Holds fifo q) (hn : min len (fifo.size - q.length) = 0) :
    kfifoPut buffer len fifo = some (fifo, 0) := by
  have hlen : putLen fifo.size fifo.inIndex fifo.outIndex len = 0 := by
    rw [putLen, free_eq h.size.lt (h.length ▸ h.le), h.length, hn]
  have hoff : offset fifo.size fifo.inIndex ≤ fifo.buffer.length := by
    rw [h.size.offset_eq, h.buffer]
    exact (Nat.mod_lt _ h.size.pos).le
  simp only [kfifoPut, hlen, firstPart, Nat.zero_min, sub32_self (Nat.two_pow_pos 32),
    memcpy_zero hoff (Nat.zero_le _), memcpy_zero (Nat.zero_le _) (Nat.zero_le _), Nat.add_zero,
    u32_of_lt h.in_lt, Option.bind_eq_bind, Option.bind_some]
  rfl

/-- A get that finds no byte changes nothing. -/
theorem get_nothing (h : Holds fifo q) (hn : min len q.length = 0) :
    kfifoGet buffer len fifo = some (fifo, buffer, 0) := by
  have hlen : getLen fifo.inIndex fifo.outIndex len = 0 := by rw [getLen, h.length, hn]
  have hoff : offset fifo.size fifo.outIndex ≤ fifo.buffer.length := by
    rw [h.size.offset_eq, h.buffer]
    exact (Nat.mod_lt _ h.size.pos).le
  simp only [kfifoGet, hlen, firstPart, Nat.zero_min, sub32_self (Nat.two_pow_pos 32),
    memcpy_zero (Nat.zero_le _) hoff, memcpy_zero (Nat.zero_le _) (Nat.zero_le _), Nat.add_zero,
    u32_of_lt h.out_lt, Option.bind_eq_bind, Option.bind_some]
  rfl

theorem reset_spec (h : Holds fifo q) : Holds (kfifoReset fifo) [] :=
  ⟨h.size, h.buffer, Nat.two_pow_pos 32, Nat.two_pow_pos 32, sub32_self (Nat.two_pow_pos 32),
    Nat.zero_le _, by simp⟩

/-- Every operation refines its counterpart on the queue. -/
theorem step_refines (h : Holds fifo q) (hop : Ready op) :
    ∃ fifo', step fifo op = some (fifo', queueResult fifo.size q op) ∧
      fifo'.size = fifo.size ∧ Holds fifo' (queueStep fifo.size q op) := by
  cases op with
  | put buffer len =>
    obtain ⟨fifo', hp, hs, hh⟩ := put_spec h hop.1 hop.2
    exact ⟨fifo', by rw [step, hp]; rfl, hs, hh⟩
  | get buffer len =>
    obtain ⟨fifo', hg, hs, hh⟩ := get_spec h hop.1 hop.2
    exact ⟨fifo', by rw [step, hg]; rfl, hs, hh⟩
  | reset => exact ⟨_, rfl, rfl, reset_spec h⟩
  | len => exact ⟨fifo, by rw [step, kfifoLen, h.length]; rfl, rfl, h⟩

end Queue

section Runs

/-- One operation, its result dropped. -/
def next (fifo : Kfifo B) (op : Op B) : Option (Kfifo B) := (step fifo op).map Prod.fst

/-- The queue after a run. -/
def after (size : ℕ) (q : List B) (ops : List (Op B)) : List B := ops.foldl (queueStep size) q

/-- A buffer from `kfifo_alloc` holds nothing. -/
theorem holds_alloc (hs : PowerSize buffer.length) : Holds (kfifoAlloc buffer) [] :=
  ⟨hs, rfl, Nat.two_pow_pos 32, Nat.two_pow_pos 32, sub32_self (Nat.two_pow_pos 32),
    Nat.zero_le _, by simp⟩

/-- What a run of operations keeps. -/
theorem run_refines {ops : List (Op B)} (h : Holds fifo q) (hops : ∀ op ∈ ops, Ready op) :
    ∃ fifo', run next fifo ops = some fifo' ∧ fifo'.size = fifo.size ∧
      Holds fifo' (after fifo.size q ops) := by
  refine exists_run_simulating (R := fun fifo' q => fifo'.size = fifo.size ∧ Holds fifo' q)
    (f := queueStep fifo.size) ?_ ⟨rfl, h⟩ (along_of_forall hops)
  rintro f q op ⟨hsize, h⟩ hop
  obtain ⟨f', hs', hsize', h'⟩ := step_refines h hop
  rw [hsize] at hsize' h'
  exact ⟨f', by rw [next, hs']; rfl, hsize', h'⟩

/-- For every size that is a power of two up to `2 ^ 31` and every run, no copy
leaves a buffer, the queued bytes lie in the ring from `out` on, their number
is the wrapped difference of the counters and at most the size, and every
operation there returns what the queue says and goes to the next queue. -/
theorem kfifo_refines (buffer : List B) (hs : PowerSize buffer.length) (ops : List (Op B))
    (hops : ∀ op ∈ ops, Ready op) :
    ∃ fifo, run next (kfifoAlloc buffer) ops = some fifo ∧ fifo.size = buffer.length ∧
      sub32 fifo.inIndex fifo.outIndex ≤ buffer.length ∧
      kfifoLen fifo = (after buffer.length [] ops).length ∧
      (∀ j, j < kfifoLen fifo → fifo.buffer[(fifo.outIndex + j) % buffer.length]? =
        (after buffer.length [] ops)[j]?) ∧
      ∀ op, Ready op → ∃ fifo', step fifo op =
        some (fifo', queueResult buffer.length (after buffer.length [] ops) op) ∧
        Holds fifo' (queueStep buffer.length (after buffer.length [] ops) op) := by
  have hsize : (kfifoAlloc buffer).size = buffer.length := rfl
  obtain ⟨fifo, hrun, hsz, h⟩ := run_refines (holds_alloc hs) hops
  rw [hsize] at hsz h
  have hle := h.le
  rw [← h.length, hsz] at hle
  refine ⟨fifo, hrun, hsz, hle, h.length, fun j hj => ?_, fun op hop => ?_⟩
  · have hbytes := h.bytes j (h.length ▸ hj)
    rwa [hsz] at hbytes
  · obtain ⟨fifo', hstep, -, h'⟩ := step_refines h hop
    rw [hsz] at hstep h'
    exact ⟨fifo', hstep, h'⟩

/-- A run over the end of the buffer. -/
def wrapAround : List (Op ℕ) := [.put [1, 2, 3] 3, .get [0, 0] 2, .put [4, 5, 6, 7] 4]

theorem kfifo_refines_wrapAround :
    ∃ fifo, run next (kfifoAlloc [0, 0, 0, 0]) wrapAround = some fifo ∧
      kfifoLen fifo = (after 4 [] wrapAround).length := by
  obtain ⟨fifo, hrun, -, -, hlen, -⟩ :=
    kfifo_refines [0, 0, 0, 0] ⟨2, by decide, rfl⟩ wrapAround (by decide)
  exact ⟨fifo, hrun, hlen⟩

example : after 4 [] wrapAround = [3, 4, 5, 6] := by decide

end Runs

end KernelLib.KfifoRefines
