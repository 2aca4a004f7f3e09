import KernelLib.VectorItems

/-!
# Methods of a vector with any arguments

An argument of `push_back` and `insert` may be an element of the vector
itself, a range may be given by iterators of the vector, and a vector may be
appended to itself. All of these are read when the program reads them: after
the bytes were moved, after the old buffer was freed, or in the new one.

The element type has one more parameter here. When an element is inserted in
front of itself in place, its copy constructor gets the storage in which it
constructs; `onto` says what it leaves there.
-/

namespace KernelLib.VectorMethods

open PoolBlocks VectorItems Word32

variable {V : Type}

/-- What a range insertion reads for one element. -/
inductive Item (V : Type) where
  /-- An argument by reference. -/
  | arg (x : Arg V)
  /-- An iterator of the vector itself: a slot of the buffer it has by then. -/
  | own (i : ℕ)

/-- The reference that an iterator gives, with the buffer of the vector. -/
def Item.read (d : Option ℕ) : Item V → Arg V
  | .arg x => x
  | .own i => .slot d i

/-- Construct the elements of a range in the slots from `index` on. -/
def constructItems (w : ℕ) (d : Option ℕ) : ℕ → List (Item V) → Heap V → Option (Heap V)
  | _, [], h => some h
  | index, x :: xs, h => do
    let h ← h.construct w d index (x.read d)
    constructItems w d (index + 1) xs h

/-- `insert` of a range given by any iterators. -/
def insertItems (w : ℕ) (ok : Bool) (pos : ℕ) (xs : List (Item V)) (v : Vec) (h : Heap V) :
    Option (Bool × Vec × Heap V) := do
  if xs.isEmpty then return (false, v, h)
  else
    let range := u32 xs.length
    let ns := u32 (v.size + range)
    let newCount := growth v.capacity
    let ns := if newCount < ns then ns else newCount
    let (there, v, h) ← makeRoom w ok ns pos range v h
    if !there then return (false, v, h)
    else
      let h ← constructItems w v.data pos xs h
      return (true, { v with size := u32 (v.size + range) }, h)

/-- Construct an element in a slot, which may be the argument, and count it. -/
def placeOnto (w : ℕ) (onto : V → Option V) (pos : ℕ) (x : Arg V) (v : Vec) (h : Heap V) :
    Option (Vec × Heap V) :=
  match x with
  | .outside y => place w pos (.outside y) v h
  | .slot q i =>
    if q = v.data ∧ i = pos then do
      let y ← h.valueOf w (.slot q i)
      let z ← onto y
      place w pos (.outside z) v h
    else place w pos (.slot q i) v h

/-- `insert` of one element given by any reference. -/
def insertArg (w : ℕ) (onto : V → Option V) (ok : Bool) (pos : ℕ) (x : Arg V) (v : Vec)
    (h : Heap V) : Option (Bool × Vec × Heap V) := do
  if v.size < pos then return (false, v, h)
  else if pos = v.size then pushBack w ok x v h
  else if v.size < v.capacity then
    let s ← h.pool.move w v.data (pos + 1) v.data pos (u32 (w * sub32 v.size pos))
    let (v, h) ← placeOnto w onto pos x v (h.withPool s)
    return (false, v, h)
  else if v.size = v.capacity then
    let (there, v, h) ← relocate w ok (growth v.capacity) (copyAround w pos 1 v) v h
    if !there then return (false, v, h)
    else
      let (v, h) ← placeOnto w onto pos x v h
      return (true, v, h)
  else return (false, v, h)

/-- `at(pos, o)`: the flag, and the value that is assigned to `o`, if one is. -/
def atInto (w : ℕ) (pos : ℕ) (v : Vec) (h : Heap V) : Option (Bool × Option V) :=
  if v.size < pos ∧ 0 < v.size then
    (h.valueOf w (.slot v.data pos)).map fun y => (true, some y)
  else some (false, none)

/-- `vector(vector<_Ty, opoolType>&& r)`: the new vector and what is left of `r`. -/
def moveAcross (w : ℕ) (ok : Bool) (r : Vec) (h : Heap V) : Option (Vec × Vec × Heap V) :=
  match h.pool.alloc ok (u32 (r.capacity * w)) with
  | (none, _) => some (⟨none, 0, 0⟩, r, h)
  | (some p, s) => do
    let s ← s.copy w (some p) 0 r.data 0 (u32 (r.size * w))
    return (⟨some p, r.capacity, r.size⟩, ⟨none, 0, 0⟩, h.withPool s)

/-- An argument: a value of the caller, or an element of a vector. -/
inductive Ref (V : Type) where
  /-- A value outside of all vectors. -/
  | value (x : V)
  /-- `u.at(i)`. -/
  | elem (u i : ℕ)
  deriving DecidableEq, Repr

/-- An element of a range. -/
inductive Source (V : Type) where
  /-- Through a pointer. -/
  | ref (x : Ref V)
  /-- Through an iterator of a vector. -/
  | iter (u i : ℕ)
  deriving DecidableEq, Repr

/-- The methods that change a vector or read an element, and return a flag. -/
inductive Method (V : Type) where
  /-- `push_back`. -/
  | pushBack (x : Ref V) (ok : Bool)
  /-- `pop_back`. -/
  | popBack
  /-- `at(pos, o)`. -/
  | atPos (pos : ℕ)
  /-- `insert` of one element. -/
  | insert (pos : ℕ) (x : Ref V) (ok : Bool)
  /-- `insert` of a range. -/
  | insertRange (pos : ℕ) (xs : List (Source V)) (ok : Bool)
  /-- `append`, also of the vector itself. -/
  | append (r : ℕ) (ok : Bool)
  /-- `erase`. -/
  | erase (pos : ℕ)
  /-- `reserve`. -/
  | reserve (n : ℕ) (ok : Bool)
  deriving DecidableEq, Repr

/-- What a program can do with vectors. -/
inductive Call (V : Type) where
  /-- `vector(n)`. -/
  | construct (n : ℕ) (ok : Bool)
  /-- `vector{xs}`. -/
  | constructList (xs : List V) (ok : Bool)
  /-- Copy-construct, from a vector of any pool type. -/
  | copyConstruct (r : ℕ) (ok : Bool)
  /-- Move-construct within a pool type. -/
  | moveConstruct (r : ℕ)
  /-- Move-construct from a vector of another pool type. -/
  | moveAcross (r : ℕ) (ok : Bool)
  /-- The destructor. -/
  | destroy (v : ℕ)
  /-- `v = r`. -/
  | copyAssign (v r : ℕ) (ok : Bool)
  /-- `v.swap(r)`, and `v = move(r)`. -/
  | swap (v r : ℕ)
  /-- `clear`. -/
  | clear (v : ℕ)
  /-- A method of `v`. -/
  | method (v : ℕ) (m : Method V)

/-- A state, a flag and what was assigned to an output parameter. -/
abbrev Answer (V : Type) := State V × Bool × Option V

/-- The reference that an argument is. -/
def arg (s : State V) : Ref V → Option (Arg V)
  | .value x => some (.outside x)
  | .elem u i => (s.vec u).map fun y => .slot y.data i

/-- What an insertion into `v` reads for an element of a range. -/
def item (s : State V) (v : ℕ) : Source V → Option (Item V)
  | .ref x => (arg s x).map .arg
  | .iter u i => if u = v then some (.own i) else (s.vec u).map fun y => .arg (.slot y.data i)

/-- The vector changed. -/
def answer (s : State V) (v : ℕ) (r : Bool × Vec × Heap V) : Answer V :=
  ((s.putFlag v r).1, r.1, none)

/-- Perform a method of `v`. -/
def perform (w : ℕ) (onto : V → Option V) (s : State V) (v : ℕ) (m : Method V) :
    Option (Answer V) := do
  let x ← s.vec v
  match m with
  | .pushBack y ok => do
    let a ← arg s y
    (pushBack w ok a x s.heap).map (answer s v)
  | .popBack => (popBack w x s.heap).map (answer s v)
  | .atPos pos => (atInto w pos x s.heap).map fun r => (s, r)
  | .insert pos y ok => do
    let a ← arg s y
    (insertArg w onto ok pos a x s.heap).map (answer s v)
  | .insertRange pos ys ok => do
    let xs ← ys.mapM (item s v)
    (insertItems w ok pos xs x s.heap).map (answer s v)
  | .append r ok => do
    let y ← s.vec r
    -- a loop that goes on after as many rounds as `r` had elements never stops
    (append w ok (y.size + 1) (fun x => if r = v then x else y) x s.heap).map (answer s v)
  | .erase pos => (erase w pos x s.heap).map (answer s v)
  | .reserve n ok => (reserve w ok n x s.heap).map (answer s v)

/-- The state after a call. -/
def next (w : ℕ) (onto : V → Option V) (s : State V) : Call V → Option (State V)
  | .construct n ok => (VectorItems.step w s (.construct n ok)).map Prod.fst
  | .constructList xs ok => (VectorItems.step w s (.constructList xs ok)).map Prod.fst
  | .copyConstruct r ok => (VectorItems.step w s (.copyConstruct r ok)).map Prod.fst
  | .moveConstruct r => (VectorItems.step w s (.moveConstruct r)).map Prod.fst
  | .moveAcross r ok => do
    let y ← s.vec r
    let (x, y, h) ← moveAcross w ok y s.heap
    return ⟨h, s.vectors.set r (some y) ++ [some x]⟩
  | .destroy v => (VectorItems.step w s (.destroy v)).map Prod.fst
  | .copyAssign v r ok => (VectorItems.step w s (.copyAssign v r ok)).map Prod.fst
  | .swap v r => (VectorItems.step w s (.swap v r)).map Prod.fst
  | .clear v => (VectorItems.step w s (.clear v)).map Prod.fst
  | .method v m => (perform w onto s v m).map Prod.fst

/-- An argument that there is: an element lies in its vector. -/
def Ref.Proper (s : State V) : Ref V → Prop
  | .value _ => True
  | .elem u i => ∃ y, s.vec u = some y ∧ i < y.size

/-- The same for an element of a range. -/
def Source.Proper (s : State V) : Source V → Prop
  | .ref x => x.Proper s
  | .iter u i => ∃ y, s.vec u = some y ∧ i < y.size

/-- Arguments are elements that there are, and numbers are `unsigned`. -/
def Method.Proper (s : State V) : Method V → Prop
  | .pushBack x _ => x.Proper s
  | .popBack => True
  | .atPos pos => pos < 2 ^ 32
  | .insert pos x _ => pos < 2 ^ 32 ∧ x.Proper s
  | .insertRange pos xs _ => pos < 2 ^ 32 ∧ ∀ x ∈ xs, x.Proper s
  | .append r _ => (s.vec r).isSome
  | .erase pos => pos < 2 ^ 32
  | .reserve n _ => n < 2 ^ 32

/-- A call that a program can make. -/
def Call.Proper (s : State V) : Call V → Prop
  | .construct n _ => n < 2 ^ 32
  | .method _ m => m.Proper s
  | _ => True

end KernelLib.VectorMethods
