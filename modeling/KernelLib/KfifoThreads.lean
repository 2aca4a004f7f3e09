import KernelLib.KfifoRefines

/-!
# One reader and one writer without a lock

A writer in `__kfifo_put` and a reader in `__kfifo_get` on one fifo. Reading
the other side's index, copying one byte and publishing the own index are
steps that the threads take in any order; the bytes of an operation are
copied in any order too. The index of the other side is read once for an
operation, so its value may be old when bytes are copied.

The bytes that puts have published and that gets have returned are recorded.
Their numbers are the counters before wrapping.
-/

namespace KernelLib.KfifoThreads

open RingBytes KfifoBytes KfifoRefines Word32 StepRuns

/-- An operation between its reading of the other index and its publishing. -/
structure Copying (B : Type) where
  /-- The caller's buffer. -/
  caller : List B
  /-- How many bytes are copied. -/
  len : ℕ
  /-- The copies that are left: a slot of the fifo and a place in the caller's buffer. -/
  todo : List (ℕ × ℕ)

/-- The fifo and its two threads. -/
structure State (B : Type) where
  /-- The fifo. -/
  fifo : Kfifo B
  /-- The writer, when it is in an operation. -/
  writer : Option (Copying B)
  /-- The reader, when it is in an operation. -/
  reader : Option (Copying B)
  /-- The bytes of the puts that were published. -/
  accepted : List B
  /-- The bytes of the gets that were completed. -/
  returned : List B

/-- A step of one of the threads. -/
inductive Action (B : Type) where
  /-- The writer enters `__kfifo_put` and reads `out`. -/
  | putRead (buffer : List B) (len : ℕ)
  /-- The writer copies the byte at this place of its list. -/
  | putCopy (k : ℕ)
  /-- The writer updates `in` and returns. -/
  | putPublish
  /-- The reader enters `__kfifo_get` and reads `in`. -/
  | getRead (buffer : List B) (len : ℕ)
  /-- The reader copies the byte at this place of its list. -/
  | getCopy (k : ℕ)
  /-- The reader updates `out` and returns. -/
  | getPublish

variable {B : Type}

/-- Both threads outside of operations on a new fifo. -/
def State.start (buffer : List B) : State B := ⟨kfifoAlloc buffer, none, none, [], []⟩

/-- The byte copies of the two calls of `memcpy`. -/
def copies (size index n : ℕ) : List (ℕ × ℕ) :=
  let l := firstPart size index n
  (List.range l).map (fun k => (offset size index + k, k)) ++
    (List.range (sub32 n l)).map fun k => (k, l + k)

/-- The writer reads `out`. -/
def putRead (buffer : List B) (len : ℕ) (s : State B) : Option (State B) :=
  if s.writer.isNone then
    let n := putLen s.fifo.size s.fifo.inIndex s.fifo.outIndex len
    some { s with writer := some ⟨buffer, n, copies s.fifo.size s.fifo.inIndex n⟩ }
  else none

/-- The writer copies one byte. -/
def putCopy (k : ℕ) (s : State B) : Option (State B) := do
  let c ← s.writer
  let (slot, j) ← c.todo[k]?
  let x ← c.caller[j]?
  if slot < s.fifo.buffer.length then
    some { s with
      fifo := { s.fifo with buffer := s.fifo.buffer.set slot x }
      writer := some { c with todo := c.todo.eraseIdx k } }
  else none

/-- The writer publishes. -/
def putPublish (s : State B) : Option (State B) := do
  let c ← s.writer
  if c.todo.isEmpty then
    some { s with
      fifo := { s.fifo with inIndex := u32 (s.fifo.inIndex + c.len) }
      writer := none
      accepted := s.accepted ++ c.caller.take c.len }
  else none

/-- The reader reads `in`. -/
def getRead (buffer : List B) (len : ℕ) (s : State B) : Option (State B) :=
  if s.reader.isNone then
    let n := getLen s.fifo.inIndex s.fifo.outIndex len
    some { s with reader := some ⟨buffer, n, copies s.fifo.size s.fifo.outIndex n⟩ }
  else none

/-- The reader copies one byte. -/
def getCopy (k : ℕ) (s : State B) : Option (State B) := do
  let c ← s.reader
  let (slot, j) ← c.todo[k]?
  let x ← s.fifo.buffer[slot]?
  if j < c.caller.length then
    some { s with reader := some { c with caller := c.caller.set j x, todo := c.todo.eraseIdx k } }
  else none

/-- The reader publishes. -/
def getPublish (s : State B) : Option (State B) := do
  let c ← s.reader
  if c.todo.isEmpty then
    some { s with
      fifo := { s.fifo with outIndex := u32 (s.fifo.outIndex + c.len) }
      reader := none
      returned := s.returned ++ c.caller.take c.len }
  else none

/-- Take one step. -/
def step (s : State B) : Action B → Option (State B)
  | .putRead buffer len => putRead buffer len s
  | .putCopy k => putCopy k s
  | .putPublish => putPublish s
  | .getRead buffer len => getRead buffer len s
  | .getCopy k => getCopy k s
  | .getPublish => getPublish s

/-- Lengths are `unsigned` and no longer than the caller's buffer. -/
def Ready : Action B → Prop
  | .putRead buffer len | .getRead buffer len => len < 2 ^ 32 ∧ len ≤ buffer.length
  | _ => True

instance (a : Action B) : Decidable (Ready a) :=
  match a with
  | .putRead buffer len | .getRead buffer len =>
    inferInstanceAs (Decidable (len < 2 ^ 32 ∧ len ≤ buffer.length))
  | .putCopy _ | .putPublish | .getCopy _ | .getPublish => isTrue trivial

section Copies

variable {size index n slot j : ℕ}

/-- The two calls of `memcpy` copy each byte of a range of the ring once. -/
theorem mem_copies (hs : PowerSize size) (hn : n ≤ size) :
    (slot, j) ∈ copies size index n ↔ j < n ∧ slot = (index + j) % size := by
  have hlt := hs.lt
  have hp : index % size < size := Nat.mod_lt _ hs.pos
  simp only [copies, hs.firstPart_eq, rest_eq (show n < 2 ^ 32 by omega), hs.offset_eq,
    List.mem_append, List.mem_map, List.mem_range, Prod.mk.injEq]
  constructor
  · rintro (⟨k, hk, rfl, rfl⟩ | ⟨k, hk, rfl, rfl⟩)
    · exact ⟨by omega, by rw [add_mod_size (by omega), if_pos (by omega)]⟩
    · refine ⟨by omega, ?_⟩
      rw [add_mod_size (by omega), if_neg (by omega)]
      omega
  · rintro ⟨hj, rfl⟩
    rw [add_mod_size (by omega)]
    by_cases h : index % size + j < size
    · exact .inl ⟨j, by omega, by rw [if_pos h], rfl⟩
    · refine .inr ⟨j - (size - index % size), by omega, ?_, by omega⟩
      rw [if_neg h]
      omega

end Copies

/-- The writer in an operation: its slots are free, and each byte is in its
slot or still to be copied there. -/
structure Writing (s : State B) (c : Copying B) : Prop where
  room : s.accepted.length + c.len ≤ s.returned.length + s.fifo.size
  len_le : c.len ≤ c.caller.length
  todo : ∀ x ∈ c.todo, x.2 < c.len ∧ x.1 = (s.accepted.length + x.2) % s.fifo.size
  done : ∀ j, j < c.len → ((s.accepted.length + j) % s.fifo.size, j) ∈ c.todo ∨
    s.fifo.buffer[(s.accepted.length + j) % s.fifo.size]? = c.caller[j]?

/-- The reader in an operation: its slots are published, and each byte is in
the caller's buffer or still to be copied there. -/
structure Reading (s : State B) (c : Copying B) : Prop where
  published : s.returned.length + c.len ≤ s.accepted.length
  len_le : c.len ≤ c.caller.length
  todo : ∀ x ∈ c.todo, x.2 < c.len ∧ x.1 = (s.returned.length + x.2) % s.fifo.size
  done : ∀ j, j < c.len → ((s.returned.length + j) % s.fifo.size, j) ∈ c.todo ∨
    c.caller[j]? = s.accepted[s.returned.length + j]?

/-- What every step keeps. -/
structure Inv (s : State B) : Prop where
  size : PowerSize s.fifo.size
  buffer : s.fifo.buffer.length = s.fifo.size
  in_eq : s.fifo.inIndex = u32 s.accepted.length
  out_eq : s.fifo.outIndex = u32 s.returned.length
  oldest : s.returned <+: s.accepted
  le : s.accepted.length ≤ s.returned.length + s.fifo.size
  kept : ∀ k, s.returned.length ≤ k → k < s.accepted.length →
    s.fifo.buffer[k % s.fifo.size]? = s.accepted[k]?
  writer : ∀ c, s.writer = some c → Writing s c
  reader : ∀ c, s.reader = some c → Reading s c

section Steps

variable {s t : State B} {c : Copying B} {buffer : List B} {len k j : ℕ} {a : Action B}

/-- The queue's length, from the counters that wrap. -/
theorem Inv.len_eq (h : Inv s) :
    sub32 s.fifo.inIndex s.fifo.outIndex = s.accepted.length - s.returned.length := by
  have hle := h.le
  have hlt := h.size.lt
  rw [h.in_eq, h.out_eq, sub32_u32 h.oldest.length_le (by omega)]

/-- A copy that is not the one made stays in the list. -/
theorem mem_eraseIdx_of_ne {x y : ℕ × ℕ} {todo : List (ℕ × ℕ)} (hx : x ∈ todo)
    (hy : todo[k]? = some y) (hne : x ≠ y) : x ∈ todo.eraseIdx k := by
  rw [List.mem_eraseIdx_iff_getElem?]
  obtain ⟨i, hi⟩ := List.mem_iff_getElem?.mp hx
  exact ⟨i, fun hik => hne (Option.some.inj (hi.symm.trans (hik ▸ hy))), hi⟩

theorem putRead_inv (h : Inv s) (hlen : len ≤ buffer.length) (hs : putRead buffer len s = some t) :
    Inv t := by
  have hle := h.le
  have hlt := h.size.lt
  unfold putRead at hs
  split at hs
  · cases hs
    refine ⟨h.size, h.buffer, h.in_eq, h.out_eq, h.oldest, h.le, h.kept, ?_, fun c hc => ?_⟩
    · rintro _ ⟨⟩
      have hn : putLen s.fifo.size s.fifo.inIndex s.fifo.outIndex len =
          min len (s.fifo.size - (s.accepted.length - s.returned.length)) := by
        rw [putLen, free_eq hlt (by rw [h.len_eq]; omega), h.len_eq]
      have hpre := h.oldest.length_le
      have hmem : ∀ {slot j : ℕ}, (slot, j) ∈ copies s.fifo.size s.fifo.inIndex
          (putLen s.fifo.size s.fifo.inIndex s.fifo.outIndex len) ↔
          j < putLen s.fifo.size s.fifo.inIndex s.fifo.outIndex len ∧
            slot = (s.accepted.length + j) % s.fifo.size := by
        intro slot j
        rw [mem_copies h.size (by omega), h.in_eq, Nat.add_mod, h.size.u32_mod, ← Nat.add_mod]
      exact ⟨by simp only [hn]; omega, by simp only [hn]; omega, fun x hx => hmem.mp hx,
        fun j hj => .inl (hmem.mpr ⟨hj, rfl⟩)⟩
    · exact ⟨(h.reader c hc).published, (h.reader c hc).len_le, (h.reader c hc).todo,
        (h.reader c hc).done⟩
  · cases hs

/-- The writer only needs the reader not to go back. -/
theorem Writing.mono (h : Writing s c) (hf : t.fifo.size = s.fifo.size)
    (hb : t.fifo.buffer = s.fifo.buffer) (ha : t.accepted = s.accepted)
    (hr : s.returned.length ≤ t.returned.length) : Writing t c := by
  have hroom := h.room
  refine ⟨by rw [ha, hf]; omega, h.len_le, ?_, ?_⟩
  · rw [ha, hf]
    exact h.todo
  · rw [ha, hf, hb]
    exact h.done

/-- The reader only needs what was published to stay. -/
theorem Reading.mono (h : Reading s c) (hf : t.fifo.size = s.fifo.size)
    (hr : t.returned = s.returned) (ha : s.accepted <+: t.accepted) : Reading t c := by
  have hpub := h.published
  have hle := ha.length_le
  refine ⟨by rw [hr]; omega, h.len_le, ?_, fun j hj => ?_⟩
  · rw [hr, hf]
    exact h.todo
  · have hold : t.accepted[s.returned.length + j]? = s.accepted[s.returned.length + j]? := by
      obtain ⟨rest, hrest⟩ := ha
      rw [← hrest, List.getElem?_append_left (by omega)]
    rw [hr, hf, hold]
    exact h.done j hj

theorem putCopy_inv (h : Inv s) (hs : putCopy k s = some t) : Inv t := by
  have hle := h.le
  have hpre := h.oldest.length_le
  simp only [putCopy, Option.bind_eq_bind, Option.bind_eq_some_iff] at hs
  obtain ⟨c, hc, ⟨slot, j⟩, hk, x, hx, hs⟩ := hs
  split at hs
  · rename_i hslot
    cases hs
    have hw := h.writer c hc
    have hroom := hw.room
    have hj : j < c.len := (hw.todo _ (List.mem_of_getElem? hk)).1
    obtain rfl : slot = (s.accepted.length + j) % s.fifo.size :=
      (hw.todo _ (List.mem_of_getElem? hk)).2
    refine ⟨h.size, by simpa using h.buffer, h.in_eq, h.out_eq, h.oldest, h.le, fun i h₁ h₂ => ?_, ?_,
      fun c' hc' => (h.reader c' hc').mono rfl rfl (List.prefix_refl _)⟩
    · have hlow : s.returned.length ≤ i := h₁
      have hhigh : i < s.accepted.length := h₂
      rw [← h.kept i hlow hhigh]
      exact List.getElem?_set_ne (mod_ne_mod hlow (by omega) (by omega)).symm
    · rintro _ ⟨⟩
      refine ⟨hw.room, hw.len_le, fun y hy => hw.todo y (List.mem_of_mem_eraseIdx hy),
        fun i hi => ?_⟩
      have hi' : i < c.len := hi
      rcases eq_or_ne i j with rfl | hne
      · exact .inr ((List.getElem?_set_self hslot).trans hx.symm)
      · have hslots : (s.accepted.length + j) % s.fifo.size ≠
            (s.accepted.length + i) % s.fifo.size := by
          rcases Nat.lt_or_gt_of_ne hne with hlt | hgt
          · exact (mod_ne_mod (p := s.returned.length) (by omega) (by omega) (by omega)).symm
          · exact mod_ne_mod (p := s.returned.length) (by omega) (by omega) (by omega)
        rcases hw.done i hi with hmem | hdone
        · exact .inl (mem_eraseIdx_of_ne hmem hk fun he => hne (congrArg Prod.snd he))
        · exact .inr ((List.getElem?_set_ne hslots).trans hdone)
  · cases hs

theorem putPublish_inv (h : Inv s) (hs : putPublish s = some t) : Inv t := by
  have hle := h.le
  have hpre := h.oldest.length_le
  simp only [putPublish, Option.bind_eq_bind, Option.bind_eq_some_iff] at hs
  obtain ⟨c, hc, hs⟩ := hs
  split at hs
  · rename_i hempty
    cases hs
    have hw := h.writer c hc
    have hnil : c.todo = [] := List.isEmpty_iff.mp hempty
    have htake : (c.caller.take c.len).length = c.len := List.length_take_of_le hw.len_le
    have hroom := hw.room
    refine ⟨h.size, h.buffer, ?_, h.out_eq, h.oldest.trans (List.prefix_append _ _), ?_,
      fun i h₁ h₂ => ?_, fun c' hc' => (by cases hc'),
      fun c' hc' => (h.reader c' hc').mono rfl rfl (List.prefix_append _ _)⟩
    · change u32 (s.fifo.inIndex + c.len) = u32 (s.accepted ++ c.caller.take c.len).length
      rw [List.length_append, htake, h.in_eq, u32_add_u32]
    · change (s.accepted ++ c.caller.take c.len).length ≤ s.returned.length + s.fifo.size
      rw [List.length_append, htake]
      exact hroom
    · change i < (s.accepted ++ c.caller.take c.len).length at h₂
      change s.fifo.buffer[i % s.fifo.size]? = (s.accepted ++ c.caller.take c.len)[i]?
      rw [List.length_append, htake] at h₂
      rcases Nat.lt_or_ge i s.accepted.length with hold | hnew
      · rw [List.getElem?_append_left hold]
        exact h.kept i h₁ hold
      · obtain ⟨j, rfl⟩ := Nat.exists_eq_add_of_le hnew
        have hdone := (hw.done j (by omega)).resolve_left (by simp [hnil])
        rw [hdone, List.getElem?_append_right (by omega), Nat.add_sub_cancel_left,
          List.getElem?_take_of_lt (by omega)]
  · cases hs

theorem getRead_inv (h : Inv s) (hlen : len ≤ buffer.length) (hs : getRead buffer len s = some t) :
    Inv t := by
  have hle := h.le
  have hpre := h.oldest.length_le
  unfold getRead at hs
  split at hs
  · cases hs
    refine ⟨h.size, h.buffer, h.in_eq, h.out_eq, h.oldest, h.le, h.kept,
      fun c hc => (h.writer c hc).mono rfl rfl rfl le_rfl, ?_⟩
    rintro _ ⟨⟩
    have hn : getLen s.fifo.inIndex s.fifo.outIndex len =
        min len (s.accepted.length - s.returned.length) := by rw [getLen, h.len_eq]
    have hmem : ∀ {slot j : ℕ}, (slot, j) ∈ copies s.fifo.size s.fifo.outIndex
        (getLen s.fifo.inIndex s.fifo.outIndex len) ↔
        j < getLen s.fifo.inIndex s.fifo.outIndex len ∧
          slot = (s.returned.length + j) % s.fifo.size := by
      intro slot j
      rw [mem_copies h.size (by omega), h.out_eq, Nat.add_mod, h.size.u32_mod, ← Nat.add_mod]
    exact ⟨by simp only [hn]; omega, by simp only [hn]; omega, fun x hx => hmem.mp hx,
      fun j hj => .inl (hmem.mpr ⟨hj, rfl⟩)⟩
  · cases hs

theorem getCopy_inv (h : Inv s) (hs : getCopy k s = some t) : Inv t := by
  simp only [getCopy, Option.bind_eq_bind, Option.bind_eq_some_iff] at hs
  obtain ⟨c, hc, ⟨slot, j⟩, hk, x, hx, hs⟩ := hs
  split at hs
  · rename_i hplace
    cases hs
    have hr := h.reader c hc
    have hpub := hr.published
    have hj : j < c.len := (hr.todo _ (List.mem_of_getElem? hk)).1
    obtain rfl : slot = (s.returned.length + j) % s.fifo.size :=
      (hr.todo _ (List.mem_of_getElem? hk)).2
    have hxa : s.accepted[s.returned.length + j]? = some x := by
      rw [← h.kept _ (Nat.le_add_right _ _) (by omega), hx]
    refine ⟨h.size, h.buffer, h.in_eq, h.out_eq, h.oldest, h.le, h.kept,
      fun c' hc' => (h.writer c' hc').mono rfl rfl rfl le_rfl, ?_⟩
    rintro _ ⟨⟩
    refine ⟨hr.published, by simpa using hr.len_le,
      fun y hy => hr.todo y (List.mem_of_mem_eraseIdx hy), fun i hi => ?_⟩
    rcases eq_or_ne i j with rfl | hne
    · exact .inr ((List.getElem?_set_self hplace).trans hxa.symm)
    · rcases hr.done i hi with hmem | hdone
      · exact .inl (mem_eraseIdx_of_ne hmem hk fun he => hne (congrArg Prod.snd he))
      · exact .inr ((List.getElem?_set_ne hne.symm).trans hdone)
  · cases hs

/-- What the reader has copied are the oldest bytes it has not returned. -/
theorem Reading.returned_append (h : Reading s c) (hp : s.returned <+: s.accepted)
    (hnil : c.todo = []) :
    s.returned ++ c.caller.take c.len = s.accepted.take (s.returned.length + c.len) := by
  have hpub := h.published
  obtain ⟨rest, hrest⟩ := hp
  have hcopied : c.caller.take c.len = rest.take c.len := by
    refine List.ext_getElem? fun j => ?_
    rcases Nat.lt_or_ge j c.len with hj | hj
    · have hdone := (h.done j hj).resolve_left (by simp [hnil])
      rw [List.getElem?_take_of_lt hj, List.getElem?_take_of_lt hj, hdone, ← hrest,
        List.getElem?_append_right (by omega), Nat.add_sub_cancel_left]
    · simp [hj.not_gt]
  rw [hcopied, ← hrest, List.take_length_add_append]

theorem getPublish_inv (h : Inv s) (hs : getPublish s = some t) : Inv t := by
  have hle := h.le
  simp only [getPublish, Option.bind_eq_bind, Option.bind_eq_some_iff] at hs
  obtain ⟨c, hc, hs⟩ := hs
  split at hs
  · rename_i hempty
    cases hs
    have hr := h.reader c hc
    have hnil : c.todo = [] := List.isEmpty_iff.mp hempty
    have hlen : (s.returned ++ c.caller.take c.len).length = s.returned.length + c.len := by
      rw [List.length_append, List.length_take_of_le hr.len_le]
    refine ⟨h.size, h.buffer, h.in_eq, ?_, ?_, ?_, fun i h₁ h₂ => h.kept i ?_ h₂,
      fun c' hc' => (h.writer c' hc').mono rfl rfl rfl ?_, fun c' hc' => by cases hc'⟩
    · change u32 (s.fifo.outIndex + c.len) = u32 (s.returned ++ c.caller.take c.len).length
      rw [hlen, h.out_eq, u32_add_u32]
    · change s.returned ++ c.caller.take c.len <+: s.accepted
      rw [hr.returned_append h.oldest hnil]
      exact List.take_prefix _ _
    · change s.accepted.length ≤ (s.returned ++ c.caller.take c.len).length + s.fifo.size
      omega
    · have hpast : (s.returned ++ c.caller.take c.len).length ≤ i := h₁
      omega
    · change s.returned.length ≤ (s.returned ++ c.caller.take c.len).length
      omega
  · cases hs

/-- Every step keeps the invariant. -/
theorem step_inv (h : Inv s) (ha : Ready a) (hs : step s a = some t) : Inv t := by
  cases a with
  | putRead buffer len => exact putRead_inv h ha.2 hs
  | putCopy k => exact putCopy_inv h hs
  | putPublish => exact putPublish_inv h hs
  | getRead buffer len => exact getRead_inv h ha.2 hs
  | getCopy k => exact getCopy_inv h hs
  | getPublish => exact getPublish_inv h hs

end Steps

section Runs

variable {s : State B} {acts : List (Action B)}

/-- Nothing is lost, changed or torn between the two threads: what gets have
returned are the first of the bytes that puts have published, the others lie in
the ring, no copy of the writer goes to a slot that was published and not yet
released, and the reader copies no slot that was not. -/
structure Safe (s : State B) : Prop where
  oldest : s.returned <+: s.accepted
  length : s.accepted.length = s.returned.length + kfifoLen s.fifo
  kept : ∀ j, j < kfifoLen s.fifo →
    s.fifo.buffer[(s.fifo.outIndex + j) % s.fifo.size]? = s.accepted[s.returned.length + j]?
  writes_free : ∀ c, s.writer = some c → ∀ x ∈ c.todo,
    x.1 < s.fifo.buffer.length ∧ x.2 < c.caller.length ∧
      ∀ j, j < kfifoLen s.fifo → x.1 ≠ (s.fifo.outIndex + j) % s.fifo.size
  reads_published : ∀ c, s.reader = some c → ∀ x ∈ c.todo,
    x.2 < c.caller.length ∧
      ∃ j, j < kfifoLen s.fifo ∧ x.1 = (s.fifo.outIndex + j) % s.fifo.size

theorem inv_start (buffer : List B) (hs : PowerSize buffer.length) : Inv (State.start buffer) where
  size := hs
  buffer := rfl
  in_eq := rfl
  out_eq := rfl
  oldest := List.prefix_refl _
  le := Nat.zero_le _
  kept := fun k _ hk => absurd hk (Nat.not_lt_zero k)
  writer := fun _ hc => (by cases hc)
  reader := fun _ hc => (by cases hc)

theorem Safe.of_inv (h : Inv s) : Safe s := by
  have hpre := h.oldest.length_le
  have hle := h.le
  have hlen : kfifoLen s.fifo = s.accepted.length - s.returned.length := h.len_eq
  have hring : ∀ j, (s.fifo.outIndex + j) % s.fifo.size =
      (s.returned.length + j) % s.fifo.size := fun j => by
    rw [h.out_eq, Nat.add_mod, h.size.u32_mod, ← Nat.add_mod]
  refine ⟨h.oldest, by omega, fun j hj => ?_, fun c hc x hx => ?_, fun c hc x hx => ?_⟩
  · rw [hring]
    exact h.kept _ (Nat.le_add_right _ _) (by omega)
  · have hw := h.writer c hc
    have hroom := hw.room
    have hcl := hw.len_le
    obtain ⟨hj, hslot⟩ := hw.todo x hx
    refine ⟨?_, by omega, fun j hj' => ?_⟩
    · rw [hslot, h.buffer]
      exact Nat.mod_lt _ h.size.pos
    · rw [hslot, hring]
      exact (mod_ne_mod (Nat.le_add_right _ j) (by omega) (by omega)).symm
  · have hr := h.reader c hc
    have hpub := hr.published
    have hcl := hr.len_le
    obtain ⟨hj, hslot⟩ := hr.todo x hx
    exact ⟨by omega, x.2, by omega, by rw [hslot, hring]⟩

/-- Every interleaving of one writer and one reader is safe. -/
theorem oneReaderOneWriter_safe (buffer : List B) (hs : PowerSize buffer.length)
    (hacts : ∀ a ∈ acts, Ready a) (hrun : run step (State.start buffer) acts = some s) : Safe s :=
  .of_inv (along_invariant (P := fun _ a => Ready a) (I := Inv)
    (fun _ _ _ hi ha hst => step_inv hi ha hst) (inv_start buffer hs) (along_of_forall hacts) hrun)

/-- The writer goes over the end of the buffer while the reader, with an old
value of `in`, copies the byte before it. -/
def interleaved : List (Action ℕ) :=
  [.putRead [1, 2, 3] 3, .putCopy 2, .putCopy 0, .putCopy 0, .putPublish, .getRead [0, 0] 2,
    .getCopy 1, .getCopy 0, .getPublish, .putRead [4, 5, 6] 3, .getRead [0, 0] 2, .putCopy 2,
    .getCopy 0, .putCopy 0, .getPublish, .putCopy 0, .putPublish, .getRead [0, 0, 0] 3, .getCopy 1,
    .getCopy 1, .getCopy 0, .getPublish]

theorem oneReaderOneWriter_safe_interleaved :
    ∃ s, run step (State.start [0, 0, 0, 0]) interleaved = some s ∧ Safe s := by
  have hrun : (run step (State.start [0, 0, 0, 0]) interleaved).isSome := by decide
  obtain ⟨s, hs⟩ := Option.isSome_iff_exists.mp hrun
  exact ⟨s, hs, oneReaderOneWriter_safe [0, 0, 0, 0] ⟨2, by decide, rfl⟩ (by decide) hs⟩

example : (run step (State.start [0, 0, 0, 0]) interleaved).map State.returned =
    some [1, 2, 3, 4, 5, 6] := by decide

end Runs

end KernelLib.KfifoThreads
