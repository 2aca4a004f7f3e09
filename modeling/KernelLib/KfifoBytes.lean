import KernelLib.RingBytes
import KernelLib.Word32

/-!
# The byte fifo

`kfifo`: a buffer whose size is a power of two and two 32-bit counters that
are never reduced. How many bytes an operation moves, and where the copies
are split, is computed from the counters in 32-bit arithmetic and with a
mask. A copy outside of the buffer or of the caller's bytes fails.
-/

namespace KernelLib.KfifoBytes

open RingBytes Word32

/-- `struct kfifo`. -/
structure Kfifo (B : Type) where
  /-- `buffer`. -/
  buffer : List B
  /-- `size`. -/
  size : ℕ
  /-- `in`: where data is added. -/
  inIndex : ℕ
  /-- `out`: where data is extracted. -/
  outIndex : ℕ
  deriving DecidableEq, Repr

variable {B : Type}

/-- `index & (size - 1)`. -/
def offset (size index : ℕ) : ℕ := index &&& sub32 size 1

/-- How many bytes `__kfifo_put` takes, from the counters it reads. -/
def putLen (size inIndex outIndex len : ℕ) : ℕ := min len (u32 (sub32 size inIndex + outIndex))

/-- How many bytes `__kfifo_get` gives, from the counters it reads. -/
def getLen (inIndex outIndex len : ℕ) : ℕ := min len (sub32 inIndex outIndex)

/-- How many of `len` bytes lie before the end of the buffer. -/
def firstPart (size index len : ℕ) : ℕ := min len (sub32 size (offset size index))

/-- The loop of `highest_bit`. -/
def highestBitLoop (i pos : ℕ) : ℕ := if i = 0 then pos else highestBitLoop (i / 2) (pos + 1)
termination_by i
decreasing_by omega

/-- `highest_bit`. -/
def highestBit (n : ℕ) : ℕ := if n = 0 then 0 else highestBitLoop (n / 2) 0 + 1

/-- `roundup_pow_of_two`; an `unsigned long` has 32 bits and cannot be shifted by more. -/
def roundupPowOfTwo (n : ℕ) : Option ℕ :=
  let k := highestBit (sub32 n 1)
  if k < 32 then some (2 ^ k) else none

/-- The size that `kfifo_alloc` asks a buffer for. -/
def allocSize (size : ℕ) : Option ℕ :=
  if size &&& sub32 size 1 ≠ 0 then roundupPowOfTwo size else some size

/-- `kfifo_alloc` once it has a buffer of the size asked for. -/
def kfifoAlloc (buffer : List B) : Kfifo B := ⟨buffer, buffer.length, 0, 0⟩

/-- `kfifo_alloc`. `pool` is what `ExAllocatePoolWithTag` returns for a buffer
of some size, `given` whether it returns a `kfifo` then. -/
def kfifoAllocFrom (pool : ℕ → Option (List B)) (given : Bool) (size : ℕ) :
    Option (Option (Kfifo B)) :=
  (allocSize size).map fun size => (pool size).bind fun buffer =>
    if given then some (kfifoAlloc buffer) else none

/-- `__kfifo_put`. -/
def kfifoPut (buffer : List B) (len : ℕ) (fifo : Kfifo B) : Option (Kfifo B × ℕ) := do
  let len := putLen fifo.size fifo.inIndex fifo.outIndex len
  let l := firstPart fifo.size fifo.inIndex len
  let b ← memcpy fifo.buffer (offset fifo.size fifo.inIndex) buffer 0 l
  let b ← memcpy b 0 buffer l (sub32 len l)
  return ({ fifo with buffer := b, inIndex := u32 (fifo.inIndex + len) }, len)

/-- `__kfifo_get`, with the caller's buffer afterwards. -/
def kfifoGet (buffer : List B) (len : ℕ) (fifo : Kfifo B) : Option (Kfifo B × List B × ℕ) := do
  let len := getLen fifo.inIndex fifo.outIndex len
  let l := firstPart fifo.size fifo.outIndex len
  let b ← memcpy buffer 0 fifo.buffer (offset fifo.size fifo.outIndex) l
  let b ← memcpy b l fifo.buffer 0 (sub32 len l)
  return ({ fifo with outIndex := u32 (fifo.outIndex + len) }, b, len)

/-- `__kfifo_reset`. -/
def kfifoReset (fifo : Kfifo B) : Kfifo B := { fifo with inIndex := 0, outIndex := 0 }

/-- `__kfifo_len`. -/
def kfifoLen (fifo : Kfifo B) : ℕ := sub32 fifo.inIndex fifo.outIndex

/-- The operations of a run. -/
inductive Op (B : Type) where
  /-- `__kfifo_put`. -/
  | put (buffer : List B) (len : ℕ)
  /-- `__kfifo_get`. -/
  | get (buffer : List B) (len : ℕ)
  /-- `__kfifo_reset`. -/
  | reset
  /-- `__kfifo_len`. -/
  | len

/-- What an operation returns. -/
inductive Ret (B : Type) where
  /-- Nothing. -/
  | void
  /-- A number of bytes. -/
  | count (n : ℕ)
  /-- The caller's buffer and a number of bytes. -/
  | got (buffer : List B) (n : ℕ)
  deriving DecidableEq, Repr

/-- Perform one operation. -/
def step (fifo : Kfifo B) : Op B → Option (Kfifo B × Ret B)
  | .put buffer len => (kfifoPut buffer len fifo).map fun r => (r.1, .count r.2)
  | .get buffer len => (kfifoGet buffer len fifo).map fun r => (r.1, .got r.2.1 r.2.2)
  | .reset => some (kfifoReset fifo, .void)
  | .len => some (fifo, .count (kfifoLen fifo))

end KernelLib.KfifoBytes
