import KernelLib.FifoElements
import KernelLib.KfifoThreads

/-!
# Elements between two threads

One thread in `Fifo::push` and one in `Fifo::pop` on the same fifo, without a
lock, and each of them anywhere in its copying. When the size of an element
divides the capacity, an operation moves an element or nothing in every
interleaving: elements come out whole and in order, a push is refused just by
a queue that was full when it looked, and a pop by one that was empty.
-/

namespace KernelLib.FifoThreads

open RingBytes KfifoBytes KfifoRefines KfifoThreads StepRuns
open FifoElements (positive positive_eq)

/-- A fifo, its two threads, and what they have exchanged. -/
structure Exchange (B : Type) where
  /-- The byte fifo. -/
  shared : KfifoThreads.State B
  /-- The values given to the pushes that returned true. -/
  pushed : List (List B)
  /-- The values delivered by the pops that returned true. -/
  popped : List (List B)

/-- A step of one of the threads. -/
inductive Move (B : Type) where
  /-- `push` is called and has looked at the space. -/
  | push (data : List B)
  /-- `push` copies a byte. -/
  | pushCopy (k : ℕ)
  /-- `push` returns. -/
  | pushReturn
  /-- `pop` is called and has looked at the length. -/
  | pop (data : List B)
  /-- `pop` copies a byte. -/
  | popCopy (k : ℕ)
  /-- `pop` returns. -/
  | popReturn

variable {B : Type}

/-- The step of the byte fifo, for elements of `w` bytes. -/
def Move.action (w : ℕ) : Move B → Action B
  | .push data => .putRead data w
  | .pushCopy k => .putCopy k
  | .pushReturn => .putPublish
  | .pop data => .getRead data w
  | .popCopy k => .getCopy k
  | .popReturn => .getPublish

/-- The elements that were pushed, when a push of so many bytes returns. -/
def Exchange.recordPush (x : Exchange B) (c : Copying B) : List (List B) :=
  if positive c.len then x.pushed ++ [c.caller] else x.pushed

/-- The elements that were popped, when a pop of so many bytes returns. -/
def Exchange.recordPop (x : Exchange B) (c : Copying B) : List (List B) :=
  if positive c.len then x.popped ++ [c.caller] else x.popped

/-- Take one step. -/
def move (w : ℕ) (x : Exchange B) (m : Move B) : Option (Exchange B) := do
  let shared ← KfifoThreads.step x.shared (m.action w)
  match m with
  | .pushReturn => return ⟨shared, x.shared.writer.elim x.pushed x.recordPush, x.popped⟩
  | .popReturn => return ⟨shared, x.pushed, x.shared.reader.elim x.popped x.recordPop⟩
  | _ => return { x with shared := shared }

/-- Both threads outside of operations on a new fifo. -/
def Exchange.start (buffer : List B) : Exchange B := ⟨State.start buffer, [], []⟩

/-- An element has `w` bytes. -/
def Valid (w : ℕ) : Move B → Prop
  | .push data | .pop data => data.length = w
  | _ => True

instance decidableValid (w : ℕ) (m : Move B) : Decidable (Valid w m) :=
  match m with
  | .push data | .pop data => inferInstanceAs (Decidable (data.length = w))
  | .pushCopy _ | .pushReturn | .popCopy _ | .popReturn => isTrue trivial

section Elements

variable {w : ℕ} {ds es : List (List B)}

/-- All elements have their size. -/
def Sized (w : ℕ) (ds : List (List B)) : Prop := ∀ d ∈ ds, d.length = w

/-- So many elements take so many bytes. -/
theorem Sized.length (h : Sized w ds) : ds.flatten.length = ds.length * w := by
  induction ds with
  | nil => simp
  | cons d ds ih =>
    rw [List.flatten_cons, List.length_append, h d List.mem_cons_self,
      ih fun e he => h e (List.mem_cons_of_mem d he), List.length_cons, Nat.succ_mul, Nat.add_comm]

/-- An element of the right size is added. -/
theorem Sized.snoc {d : List B} (h : Sized w ds) (hd : d.length = w) : Sized w (ds ++ [d]) := by
  intro e he
  rcases List.mem_append.mp he with he | he
  · exact h e he
  · rw [List.mem_singleton.mp he, hd]

/-- Bytes that come first are of the elements that come first. -/
theorem Sized.prefix (hpos : 0 < w) (hd : Sized w ds) (he : Sized w es)
    (h : ds.flatten <+: es.flatten) : ds <+: es := by
  induction ds generalizing es with
  | nil => exact List.nil_prefix
  | cons d ds ih =>
    have hdw := hd d List.mem_cons_self
    cases es with
    | nil =>
      have hle := h.length_le
      rw [List.flatten_cons, List.length_append, hdw, List.flatten_nil, List.length_nil] at hle
      omega
    | cons e es =>
      obtain ⟨rest, hrest⟩ := h
      rw [List.flatten_cons, List.flatten_cons, List.append_assoc] at hrest
      obtain ⟨rfl, htail⟩ := List.append_inj hrest (hdw.trans (he e List.mem_cons_self).symm)
      exact List.prefix_cons_inj d |>.mpr (ih (fun x hx => hd x (List.mem_cons_of_mem d hx))
        (fun x hx => he x (List.mem_cons_of_mem d hx)) ⟨rest, htail⟩)

end Elements

/-- An operation moves an element or nothing. -/
def Moves (w : ℕ) (c : Copying B) : Prop := c.caller.length = w ∧ (c.len = 0 ∨ c.len = w)

/-- The bytes are those of elements. -/
structure Inv (w : ℕ) (x : Exchange B) : Prop where
  shared : KfifoThreads.Inv x.shared
  size : w ∣ x.shared.fifo.size
  pushed : Sized w x.pushed
  popped : Sized w x.popped
  accepted : x.shared.accepted = x.pushed.flatten
  returned : x.shared.returned = x.popped.flatten
  writer : ∀ c, x.shared.writer = some c → Moves w c
  reader : ∀ c, x.shared.reader = some c → Moves w c

section Steps

variable {w : ℕ} {x y : Exchange B} {c : Copying B} {data : List B} {m : Move B}

/-- The bytes that went in and out are those of whole elements. -/
theorem Inv.length (h : Inv w x) : x.shared.accepted.length = x.pushed.length * w ∧
    x.shared.returned.length = x.popped.length * w :=
  ⟨h.accepted ▸ h.pushed.length, h.returned ▸ h.popped.length⟩

/-- As many elements as there is room for. -/
theorem Inv.count (h : Inv w x) (hpos : 0 < w) : x.popped.length ≤ x.pushed.length ∧
    x.pushed.length ≤ x.popped.length + x.shared.fifo.size / w := by
  obtain ⟨k, hk⟩ := h.size
  have hle := h.shared.le
  have hpre := h.shared.oldest.length_le
  rw [h.length.1, h.length.2] at hle hpre
  rw [hk, Nat.mul_comm w k, ← Nat.add_mul] at hle
  rw [hk, Nat.mul_div_cancel_left k hpos]
  exact ⟨Nat.le_of_mul_le_mul_right hpre hpos, Nat.le_of_mul_le_mul_right hle hpos⟩

/-- An operation that finds so many elements, or so much room. -/
theorem min_mul (w n : ℕ) : min w (n * w) = if 0 < n then w else 0 := by
  cases n with
  | zero => simp
  | succ n => rw [if_pos n.succ_pos, Nat.succ_mul, Nat.min_eq_left (Nat.le_add_left w _)]

/-- What a push that looks now would move. -/
theorem Inv.putLen_eq (h : Inv w x) (hpos : 0 < w) :
    putLen x.shared.fifo.size x.shared.fifo.inIndex x.shared.fifo.outIndex w =
      if x.pushed.length < x.popped.length + x.shared.fifo.size / w then w else 0 := by
  obtain ⟨hle, hcount⟩ := h.count hpos
  have hused := h.shared.le
  rw [putLen, free_eq h.shared.size.lt (by rw [h.shared.len_eq]; omega), h.shared.len_eq,
    h.length.1, h.length.2]
  obtain ⟨k, hk⟩ := h.size
  rw [hk, Nat.mul_div_cancel_left k hpos] at hcount ⊢
  rw [Nat.mul_comm w k, ← Nat.sub_mul, ← Nat.sub_mul, min_mul]
  exact if_congr (by omega) rfl rfl

/-- What a pop that looks now would move. -/
theorem Inv.getLen_eq (h : Inv w x) :
    getLen x.shared.fifo.inIndex x.shared.fifo.outIndex w =
      if x.popped.length < x.pushed.length then w else 0 := by
  rw [getLen, h.shared.len_eq, h.length.1, h.length.2, ← Nat.sub_mul, min_mul]
  exact if_congr (by omega) rfl rfl

/-- The step of the byte fifo below a step. -/
theorem move_shared (hs : move w x m = some y) :
    KfifoThreads.step x.shared (m.action w) = some y.shared := by
  obtain ⟨shared, h, hs⟩ := Option.bind_eq_some_iff.mp hs
  rw [h]
  cases m <;> cases hs <;> rfl

/-- An operation that returns has moved its element, or nothing. -/
theorem Moves.returned (hc : Moves w c) (hpos : 0 < w) (hw : w < 2 ^ 31) {ds : List (List B)}
    (hds : Sized w ds) : Sized w (if positive c.len then ds ++ [c.caller] else ds) ∧
      ds.flatten ++ c.caller.take c.len =
        (if positive c.len then ds ++ [c.caller] else ds).flatten := by
  obtain ⟨hlen, h0 | hmoved⟩ := hc
  · rw [h0, positive_eq (by decide)]
    exact ⟨hds, by simp⟩
  · rw [hmoved, positive_eq hw, decide_eq_true hpos, List.take_of_length_le hlen.le]
    exact ⟨hds.snoc hlen, by simp⟩

end Steps

section Runs

variable {w : ℕ} {x : Exchange B} {ms : List (Move B)}

/-- What the two threads can rely on. -/
structure Delivers (w : ℕ) (x : Exchange B) : Prop where
  /-- The elements come out whole and in order. -/
  order : x.popped <+: x.pushed
  whole : Sized w x.pushed
  room : x.pushed.length ≤ x.popped.length + x.shared.fifo.size / w
  /-- A push moves its element when it found room, else nothing. -/
  push : ∀ data y, move w x (.push data) = some y → ∃ c, y.shared.writer = some c ∧
    c.len = if x.pushed.length < x.popped.length + x.shared.fifo.size / w then w else 0
  /-- A pop moves an element when it found one, else nothing. -/
  pop : ∀ data y, move w x (.pop data) = some y → ∃ c, y.shared.reader = some c ∧
    c.len = if x.popped.length < x.pushed.length then w else 0

/-- Before the first step. -/
theorem inv_start (buffer : List B) (hs : PowerSize buffer.length) (hd : w ∣ buffer.length) :
    Inv w (Exchange.start buffer) where
  shared := KfifoThreads.inv_start buffer hs
  size := hd
  pushed := nofun
  popped := nofun
  accepted := rfl
  returned := rfl
  writer := nofun
  reader := nofun

/-- Where the invariant holds, elements are delivered. -/
theorem Delivers.of_inv (h : Inv w x) (hpos : 0 < w) : Delivers w x where
  order := h.popped.prefix hpos h.pushed (h.returned ▸ h.accepted ▸ h.shared.oldest)
  whole := h.pushed
  room := (h.count hpos).2
  push := fun data y hs => by
    have hstep : putRead data w x.shared = some y.shared := move_shared hs
    unfold putRead at hstep
    split at hstep
    · rw [← Option.some.inj hstep]
      exact ⟨_, rfl, h.putLen_eq hpos⟩
    · cases hstep
  pop := fun data y hs => by
    have hstep : getRead data w x.shared = some y.shared := move_shared hs
    unfold getRead at hstep
    split at hstep
    · rw [← Option.some.inj hstep]
      exact ⟨_, rfl, h.getLen_eq⟩
    · cases hstep

end Runs

end KernelLib.FifoThreads
