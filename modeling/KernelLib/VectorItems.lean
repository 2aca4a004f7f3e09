import KernelLib.PoolBlocks
import KernelLib.Word32

/-!
# Vectors in pool blocks

`skl::vector` for elements of `w` bytes: a buffer, its capacity and a size.
Elements are numbered as they are constructed, so that an object can be told
from a copy of it. A byte move carries an object along; a placement `new`
makes another one; a destructor ends it and leaves its slot without one.

Sizes and byte counts are computed in 32 bits. Whether an allocation succeeds
is a parameter. Operations fail where the program would touch memory that it
does not have or use a slot without an object. An argument by reference is a
value outside of all vectors or a slot, which is read when it is used. The
overloads for rvalues construct from the same value and are not repeated.
-/

namespace KernelLib.VectorItems

open PoolBlocks Word32

/-- The members of a vector. -/
structure Vec where
  /-- `_data`. -/
  data : Option ℕ
  /-- `_capacity`. -/
  capacity : ℕ
  /-- `_size`. -/
  size : ℕ
  deriving DecidableEq, Repr

/-- The pool with the elements in it: each has its number and its value. -/
structure Heap (V : Type) where
  /-- The blocks. -/
  pool : Pool (ℕ × V)
  /-- How many elements were constructed. -/
  constructed : ℕ
  /-- The elements that were destroyed, in order. -/
  destroyed : List ℕ

/-- An argument by reference. -/
inductive Arg (V : Type) where
  /-- A value outside of all vectors. -/
  | outside (x : V)
  /-- A slot of a buffer. -/
  | slot (q : Option ℕ) (i : ℕ)

variable {V : Type}

/-- No blocks and no elements. -/
def Heap.empty : Heap V := ⟨Pool.empty, 0, []⟩

/-- The value an argument has now. -/
def Heap.valueOf (w : ℕ) (h : Heap V) : Arg V → Option V
  | .outside x => some x
  | .slot q i => (h.pool.read w q i).map Prod.snd

/-- `new(q + i) _Ty(x)`. -/
def Heap.construct (w : ℕ) (q : Option ℕ) (i : ℕ) (x : Arg V) (h : Heap V) : Option (Heap V) := do
  let v ← h.valueOf w x
  let s ← h.pool.write w q i (some (h.constructed, v))
  return { h with pool := s, constructed := h.constructed + 1 }

/-- `(q + i)->~_Ty()`. -/
def Heap.destroy (w : ℕ) (q : Option ℕ) (i : ℕ) (h : Heap V) : Option (Heap V) := do
  let e ← h.pool.read w q i
  let s ← h.pool.write w q i none
  return { h with pool := s, destroyed := h.destroyed ++ [e.1] }

/-- A move or copy of bytes. -/
def Heap.withPool (h : Heap V) (s : Pool (ℕ × V)) : Heap V := { h with pool := s }

@[simp] theorem withPool_pool (h : Heap V) (s : Pool (ℕ × V)) : (h.withPool s).pool = s := rfl

@[simp] theorem withPool_constructed (h : Heap V) (s : Pool (ℕ × V)) :
    (h.withPool s).constructed = h.constructed := rfl

@[simp] theorem withPool_destroyed (h : Heap V) (s : Pool (ℕ × V)) :
    (h.withPool s).destroyed = h.destroyed := rfl

/-- `Def_Reserve`. -/
def defReserve : ℕ := 10

/-- The capacity asked for when the buffer is full. -/
def growth (c : ℕ) : ℕ :=
  if 0 < c then (if 1024 < c then u32 (c + 1024) else u32 (c * 2)) else defReserve

/-- `vector(unsigned defSize)`. -/
def construct (w : ℕ) (ok : Bool) (defSize : ℕ) (h : Heap V) : Vec × Heap V :=
  let (d, s) := h.pool.alloc ok (u32 (defSize * w))
  (⟨d, if d.isSome then defSize else 0, 0⟩, h.withPool s)

/-- Copy the old buffer in one piece. -/
def copyAll (w : ℕ) (v : Vec) (d : Option ℕ) (s : Pool (ℕ × V)) : Option (Pool (ℕ × V)) :=
  s.copy w d 0 v.data 0 (u32 (v.size * w))

/-- Copy the old buffer and leave `range` slots free at `pos`. -/
def copyAround (w pos range : ℕ) (v : Vec) (d : Option ℕ) (s : Pool (ℕ × V)) :
    Option (Pool (ℕ × V)) := do
  let s ← s.copy w d 0 v.data 0 (u32 (pos * w))
  s.copy w d (pos + range) v.data pos (u32 (sub32 v.size pos * w))

/-- `if (_data) ExFreePool(_data)`. -/
def freeData (v : Vec) (s : Pool (ℕ × V)) : Option (Pool (ℕ × V)) :=
  if v.data.isSome then s.free v.data else some s

/-- Go over to a buffer for `n` elements; the flag says that there is one. -/
def relocate (w : ℕ) (ok : Bool) (n : ℕ)
    (fill : Option ℕ → Pool (ℕ × V) → Option (Pool (ℕ × V))) (v : Vec) (h : Heap V) :
    Option (Bool × Vec × Heap V) :=
  match h.pool.alloc ok (u32 (n * w)) with
  | (none, _) => some (false, v, h)
  | (some p, s) => do
    let s ← fill (some p) s
    let s ← freeData v s
    return (true, { v with data := some p, capacity := n }, h.withPool s)

/-- Construct an element in a slot and count it. -/
def place (w : ℕ) (pos : ℕ) (x : Arg V) (v : Vec) (h : Heap V) : Option (Vec × Heap V) := do
  let h ← h.construct w v.data pos x
  return ({ v with size := u32 (v.size + 1) }, h)

/-- `push_back`. -/
def pushBack (w : ℕ) (ok : Bool) (x : Arg V) (v : Vec) (h : Heap V) :
    Option (Bool × Vec × Heap V) := do
  if v.size < v.capacity then
    let (v, h) ← place w v.size x v h
    return (false, v, h)
  else if v.capacity = v.size then
    let (there, v, h) ← relocate w ok (growth v.capacity) (copyAll w v) v h
    if !there then return (false, v, h)
    else
      let (v, h) ← place w v.size x v h
      return (true, v, h)
  else return (false, v, h)

/-- `pop_back`. -/
def popBack (w : ℕ) (v : Vec) (h : Heap V) : Option (Bool × Vec × Heap V) :=
  if 0 < v.size then
    (h.destroy w v.data (v.size - 1)).map fun h => (false, { v with size := v.size - 1 }, h)
  else some (false, v, h)

/-- The loop of `clear`, with so many elements left. -/
def clearLoop (w : ℕ) (d : Option ℕ) : ℕ → Heap V → Option (Heap V)
  | 0, h => some h
  | n + 1, h => do
    let h ← h.destroy w d n
    clearLoop w d n h

/-- `clear`. -/
def clear (w : ℕ) (v : Vec) (h : Heap V) : Option (Vec × Heap V) :=
  (clearLoop w v.data v.size h).map fun h => ({ v with size := 0 }, h)

/-- `~vector`. -/
def destroy (w : ℕ) (v : Vec) (h : Heap V) : Option (Heap V) := do
  let (v, h) ← clear w v h
  let s ← freeData v h.pool
  return h.withPool s

/-- `insert` of one element. -/
def insert (w : ℕ) (ok : Bool) (pos : ℕ) (x : Arg V) (v : Vec) (h : Heap V) :
    Option (Bool × Vec × Heap V) := do
  if v.size < pos then return (false, v, h)
  else if pos = v.size then pushBack w ok x v h
  else if v.size < v.capacity then
    let s ← h.pool.move w v.data (pos + 1) v.data pos (u32 (w * sub32 v.size pos))
    let (v, h) ← place w pos x v (h.withPool s)
    return (false, v, h)
  else if v.size = v.capacity then
    let (there, v, h) ← relocate w ok (growth v.capacity) (copyAround w pos 1 v) v h
    if !there then return (false, v, h)
    else
      let (v, h) ← place w pos x v h
      return (true, v, h)
  else return (false, v, h)

/-- `reserve`. -/
def reserve (w : ℕ) (ok : Bool) (ns : ℕ) (v : Vec) (h : Heap V) : Option (Bool × Vec × Heap V) :=
  if v.capacity < ns then relocate w ok ns (copyAll w v) v h else some (true, v, h)

/-- Construct the elements of a range in the slots from `index` on. -/
def constructRange (w : ℕ) (d : Option ℕ) : ℕ → List V → Heap V → Option (Heap V)
  | _, [], h => some h
  | index, x :: xs, h => do
    let h ← h.construct w d index (.outside x)
    constructRange w d (index + 1) xs h

/-- Make room for a range: in a new buffer, or by moving the tail. -/
def makeRoom (w : ℕ) (ok : Bool) (ns pos range : ℕ) (v : Vec) (h : Heap V) :
    Option (Bool × Vec × Heap V) :=
  if v.capacity < ns then relocate w ok ns (copyAround w pos range v) v h
  else (h.pool.move w v.data (pos + range) v.data pos (u32 (sub32 v.size pos * w))).map
    fun s => (true, v, h.withPool s)

/-- `insert` of a range, also for an initializer list. -/
def insertRange (w : ℕ) (ok : Bool) (pos : ℕ) (xs : List V) (v : Vec) (h : Heap V) :
    Option (Bool × Vec × Heap V) := do
  if xs.isEmpty then return (false, v, h)
  else
    let range := u32 xs.length
    let ns := u32 (v.size + range)
    let newCount := growth v.capacity
    let ns := if newCount < ns then ns else newCount
    let (there, v, h) ← makeRoom w ok ns pos range v h
    if !there then return (false, v, h)
    else
      let h ← constructRange w v.data pos xs h
      return (true, { v with size := u32 (v.size + range) }, h)

/-- `vector(std::initializer_list)`. -/
def constructList (w : ℕ) (ok : Bool) (xs : List V) (h : Heap V) : Option (Vec × Heap V) :=
  (insertRange w ok 0 xs ⟨none, 0, 0⟩ h).map fun r => r.2

/-- Construct copies of the elements of `r` at the end, from index `i` on. The
vector `r` may be another one or, as a function of it, the one that grows. -/
def copyLoop (w : ℕ) (r : Vec → Vec) : ℕ → ℕ → Vec → Heap V → Option (Vec × Heap V)
  | 0, _, _, _ => none
  | n + 1, i, v, h => do
    if i < (r v).size then
      let (v, h) ← place w v.size (.slot (r v).data i) v h
      copyLoop w r n (i + 1) v h
    else return (v, h)

/-- `vector(const vector& r)`; `_size` is the index of its loop. -/
def copyConstruct (w : ℕ) (ok : Bool) (r : Vec) (h : Heap V) : Option (Vec × Heap V) :=
  match h.pool.alloc ok (u32 (r.capacity * w)) with
  | (none, _) => some (⟨none, 0, 0⟩, h)
  | (some p, s) => do
    let s ← s.copy w (some p) 0 r.data 0 (u32 (r.size * w))
    copyLoop w (fun _ => r) (r.size + 1) 0 ⟨some p, r.capacity, 0⟩ (h.withPool s)

/-- `append`, with a bound on the rounds of its loop. -/
def append (w : ℕ) (ok : Bool) (rounds : ℕ) (r : Vec → Vec) (v : Vec) (h : Heap V) :
    Option (Bool × Vec × Heap V) := do
  let (there, v, h) ← reserve w ok (u32 (v.size + (r v).size)) v h
  if !there then return (false, v, h)
  else
    let s ← h.pool.copy w v.data v.size (r v).data 0 (u32 ((r v).size * w))
    let (v, h) ← copyLoop w r rounds 0 v (h.withPool s)
    return (true, v, h)

/-- `erase`. -/
def erase (w : ℕ) (pos : ℕ) (v : Vec) (h : Heap V) : Option (Bool × Vec × Heap V) :=
  if pos < v.size then do
    let h ← h.destroy w v.data pos
    let v := { v with size := v.size - 1 }
    let s ← h.pool.move w v.data pos v.data (pos + 1) (u32 (sub32 v.size pos * w))
    return (true, v, h.withPool s)
  else some (false, v, h)

/-- The loop over an iterator until it equals `end()`. -/
def iterateLoop (w : ℕ) (v : Vec) (h : Heap V) : ℕ → ℕ → Option (List V)
  | 0, _ => none
  | n + 1, pos =>
    if pos = v.size then some []
    else do
      let x ← h.valueOf w (.slot v.data pos)
      let rest ← iterateLoop w v h n (u32 (pos + 1))
      return x :: rest

/-- The values an iteration from `begin()` to `end()` meets. -/
def iterate (w : ℕ) (v : Vec) (h : Heap V) : Option (List V) := iterateLoop w v h (v.size + 1) 0

/-- `operator=(const vector& r)`: a copy that is swapped in and then destroyed. -/
def copyAssign (w : ℕ) (ok : Bool) (r : Vec) (v : Vec) (h : Heap V) : Option (Vec × Heap V) := do
  let (t, h) ← copyConstruct w ok r h
  let h ← destroy w v h
  return (t, h)

/-- Vectors by number; a destroyed one leaves a gap. -/
structure State (V : Type) where
  /-- The pool and the elements. -/
  heap : Heap V
  /-- The vectors. -/
  vectors : List (Option Vec)

/-- No vectors. -/
def State.empty : State V := ⟨Heap.empty, []⟩

/-- The operations of a run. -/
inductive Op (V : Type) where
  /-- `vector(n)`. -/
  | construct (n : ℕ) (ok : Bool)
  /-- `vector{xs}`. -/
  | constructList (xs : List V) (ok : Bool)
  /-- Copy-construct. -/
  | copyConstruct (r : ℕ) (ok : Bool)
  /-- Move-construct. -/
  | moveConstruct (r : ℕ)
  /-- The destructor. -/
  | destroy (v : ℕ)
  /-- `v = r`. -/
  | copyAssign (v r : ℕ) (ok : Bool)
  /-- `v.swap(r)`, and `v = move(r)`. -/
  | swap (v r : ℕ)
  /-- `push_back`. -/
  | pushBack (v : ℕ) (x : V) (ok : Bool)
  /-- `pop_back`. -/
  | popBack (v : ℕ)
  /-- `insert` of one element. -/
  | insert (v pos : ℕ) (x : V) (ok : Bool)
  /-- `insert` of a range. -/
  | insertRange (v pos : ℕ) (xs : List V) (ok : Bool)
  /-- `append` of another vector. -/
  | append (v r : ℕ) (ok : Bool)
  /-- `erase`. -/
  | erase (v pos : ℕ)
  /-- `reserve`. -/
  | reserve (v n : ℕ) (ok : Bool)
  /-- `clear`. -/
  | clear (v : ℕ)
  /-- A loop over the vector. -/
  | iterate (v : ℕ)

/-- What an operation returns. -/
inductive Ret (V : Type) where
  /-- Nothing. -/
  | void
  /-- A flag. -/
  | bool (b : Bool)
  /-- The values an iteration met. -/
  | items (xs : List V)
  deriving DecidableEq, Repr

/-- A live vector. -/
def State.vec (v : ℕ) (s : State V) : Option Vec := (s.vectors[v]?).join

/-- A new vector. -/
def State.add (s : State V) (r : Vec × Heap V) : State V × Ret V :=
  (⟨r.2, s.vectors ++ [some r.1]⟩, .void)

/-- A vector that an operation changed. -/
def State.put (s : State V) (v : ℕ) (r : Vec × Heap V) : State V × Ret V :=
  (⟨r.2, s.vectors.set v (some r.1)⟩, .void)

/-- The same with a flag. -/
def State.putFlag (s : State V) (v : ℕ) (r : Bool × Vec × Heap V) : State V × Ret V :=
  (⟨r.2.2, s.vectors.set v (some r.2.1)⟩, .bool r.1)

/-- Perform one operation. -/
def step (w : ℕ) (s : State V) : Op V → Option (State V × Ret V)
  | .construct n ok => some (s.add (construct w ok n s.heap))
  | .constructList xs ok => (constructList w ok xs s.heap).map s.add
  | .copyConstruct r ok => do
    let y ← s.vec r
    (copyConstruct w ok y s.heap).map s.add
  | .moveConstruct r => do
    let y ← s.vec r
    return (⟨s.heap, (s.vectors ++ [some y]).set r (some ⟨none, 0, 0⟩)⟩, .void)
  | .destroy v => do
    let x ← s.vec v
    let h ← destroy w x s.heap
    return (⟨h, s.vectors.set v none⟩, .void)
  | .copyAssign v r ok => do
    let x ← s.vec v
    let y ← s.vec r
    (copyAssign w ok y x s.heap).map (s.put v)
  | .swap v r => do
    let x ← s.vec v
    let y ← s.vec r
    return (⟨s.heap, if v = r then s.vectors else (s.vectors.set v (some y)).set r (some x)⟩, .void)
  | .pushBack v x ok => do
    let y ← s.vec v
    (pushBack w ok (.outside x) y s.heap).map (s.putFlag v)
  | .popBack v => do
    let y ← s.vec v
    (popBack w y s.heap).map (s.putFlag v)
  | .insert v pos x ok => do
    let y ← s.vec v
    (insert w ok pos (.outside x) y s.heap).map (s.putFlag v)
  | .insertRange v pos xs ok => do
    let y ← s.vec v
    (insertRange w ok pos xs y s.heap).map (s.putFlag v)
  | .append v r ok => do
    let x ← s.vec v
    let y ← s.vec r
    (append w ok (y.size + 1) (fun _ => y) x s.heap).map (s.putFlag v)
  | .erase v pos => do
    let y ← s.vec v
    (erase w pos y s.heap).map (s.putFlag v)
  | .reserve v n ok => do
    let y ← s.vec v
    (reserve w ok n y s.heap).map (s.putFlag v)
  | .clear v => do
    let y ← s.vec v
    (clear w y s.heap).map (s.put v)
  | .iterate v => do
    let y ← s.vec v
    (iterate w y s.heap).map fun xs => (s, .items xs)

end KernelLib.VectorItems
