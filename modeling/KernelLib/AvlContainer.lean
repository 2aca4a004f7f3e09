import KernelLib.AvlRoutines
import KernelLib.RefHolder

/-!
# Maps and sets over a generic table

`skl::map` and `skl::set`: table nodes hold a pointer to a counted item, which
is the object on the caller's stack while a search is made for it. A map and
a set differ in the value of an item and in the flag that `find` returns, so
each operation is defined once and then named for both.

Operations fail at a null or released item and at a node handed back to
`Free`. What the key type does is a parameter, as is whether an allocation
succeeds. Constructing and destroying the object on the stack has no effect
on the heap and is left out.
-/

namespace KernelLib.AvlContainer

open AvlRoutines CountedObjects RefHolder

/-- What a container uses of its key type. -/
structure KeyOps (K : Type) where
  /-- `operator<`. -/
  lt : K → K → Bool
  /-- A default-constructed key after `operator=` from the argument. -/
  assign : K → K
  /-- The copy constructor. -/
  copy : K → K
  /-- `check_valid`. -/
  valid : K → Bool

/-- The pointer `_item` in a node. -/
inductive Ptr where
  /-- The null pointer. -/
  | null
  /-- `&temp_item`, on the stack of the running operation. -/
  | stack
  /-- An item on the heap. -/
  | heap (i : ℕ)
  deriving DecidableEq, Repr

/-- A container with its items and the holders on them. -/
structure State (A : Routines) (K V : Type) where
  /-- The table `_root`. -/
  table : A.Table
  /-- The pointer in each node that is allocated. -/
  memory : ℕ → Option Ptr
  /-- How many nodes were allocated. -/
  allocated : ℕ
  /-- Nodes handed to `Free`, in order. -/
  freed : List ℕ
  /-- The items, with `first` and `second`, and the holders. -/
  store : Store (K × V)

/-- What an operation returns. -/
inductive Ret where
  /-- Nothing. -/
  | void
  /-- A holder with this pointer and the flag `second`. -/
  | pair (p : Option ℕ) (second : Bool)
  /-- `count()`. -/
  | count (n : ℕ)
  /-- `empty()`. -/
  | bool (b : Bool)
  /-- The items an iteration visited. -/
  | items (xs : List ℕ)
  deriving DecidableEq, Repr

variable {A : Routines} {K V : Type}

/-- An empty container. -/
def State.empty (A : Routines) (K V : Type) : State A K V :=
  ⟨A.init, fun _ => none, 0, [], ⟨Objects.empty, []⟩⟩

/-- The key an item pointer leads to, given the one on the stack. -/
def State.keyAt (temp : Option K) (s : State A K V) : Ptr → Option K
  | .null => none
  | .stack => temp
  | .heap i => (s.store.objs.cell i).map fun c => c.value.1

/-- The order of two keys as `Compare` finds it. -/
def order (O : KeyOps K) (f k : K) : Ordering :=
  if O.lt f k then .lt else if O.lt k f then .gt else .eq

/-- `Compare` of an item pointer with a stored node. -/
def compareItems (O : KeyOps K) (temp : Option K) (first : Ptr) (s : State A K V) :
    Callback := fun n => do
  let f ← s.keyAt temp first
  let second ← s.memory n
  let k ← s.keyAt temp second
  return order O f k

/-- Write the pointer of a node. -/
def State.write (n : ℕ) (p : Ptr) (s : State A K V) : State A K V :=
  { s with memory := Function.update s.memory n (some p) }

/-- `Free`. -/
def State.free (n : ℕ) (s : State A K V) : State A K V :=
  { s with memory := Function.update s.memory n none, freed := s.freed ++ [n] }

/-- `RtlDeleteElementGenericTableAvl` on this container. -/
def State.delete (O : KeyOps K) (temp : Option K) (first : Ptr) (s : State A K V) :
    Option (State A K V × Bool) :=
  (A.delete (compareItems O temp first s) s.table).map fun
    | (t, none) => ({ s with table := t }, false)
    | (t, some n) => ({ s with table := t }.free n, true)

/-- `release()` on the item of a pointer. -/
def State.release (p : Option ℕ) (s : State A K V) : Option (State A K V) :=
  (releasePtr p s.store.objs).map fun r => { s with store := { s.store with objs := r.1 } }

/-- `retain()` on the item of a pointer. -/
def State.retain (p : Option ℕ) (s : State A K V) : Option (State A K V) :=
  (retainPtr p s.store.objs).map fun o => { s with store := { s.store with objs := o } }

/-- Return a holder for an item and a flag. -/
def State.returnPair (p : Option ℕ) (second : Bool) (s : State A K V) :
    Option (State A K V × Ret) :=
  (s.store.construct p).map fun st => ({ s with store := st }, .pair p second)

/-- `result ? result->_item : nullptr`, as a pointer that a holder can take. -/
def State.itemOf (result : Option ℕ) (s : State A K V) : Option (Option ℕ) :=
  match result with
  | none => some none
  | some n =>
    match s.memory n with
    | some .null => some none
    | some (.heap i) => some (some i)
    | _ => none

/-- `find`; a map and a set return different flags. -/
def find (flag : Bool) (O : KeyOps K) (k : K) (s : State A K V) : Option (State A K V × Ret) := do
  let temp := O.assign k
  if !O.valid temp then s.returnPair none false
  else
    let result ← A.lookup (compareItems O (some temp) .stack s) s.table
    let item ← s.itemOf result
    s.returnPair item flag

/-- `remove`. -/
def remove (O : KeyOps K) (k : K) (s : State A K V) : Option (State A K V × Ret) := do
  let temp := O.assign k
  if !O.valid temp then s.returnPair none false
  else
    let result ← A.lookup (compareItems O (some temp) .stack s) s.table
    let item ← s.itemOf result
    if result.isNone then s.returnPair item false
    else
      let (s, _) ← s.returnPair item false
      let (s, ok) ← s.delete O (some temp) .stack
      let s ← if ok then s.release item else some s
      return (s, .pair item ok)

/-- Which of the two allocations of an insertion succeed. -/
structure Allocation where
  /-- The node, in the callback `Allocate`. -/
  node : Bool
  /-- The item. -/
  item : Bool

/-- `insert` once the table has a new node for the object on the stack. -/
def fillNode (O : KeyOps K) (alloc : Allocation) (k : K) (v : V) (n : ℕ) (s : State A K V) :
    Option (State A K V × Ret) := do
  let temp := O.assign k
  if alloc.item then
    let i := s.store.objs.created
    let s := { s with store := { s.store with objs := s.store.objs.create (O.copy k, v) } }
    let s := s.write n (.heap i)
    if O.valid (O.copy k) then s.returnPair (some i) true
    else
      let s ← s.release (some i)
      let (s, _) ← s.delete O (some temp) .stack
      s.returnPair none true
  else
    let s := s.write n .null
    let (s, _) ← s.delete O (some temp) .stack
    -- `result` is null now, and the next test reads `result->_item->first`
    let result : Option ℕ := none
    let n ← result
    let item ← s.itemOf (some n)
    s.returnPair item true

/-- `insert`. -/
def insert (O : KeyOps K) (alloc : Allocation) (k : K) (v : V) (s : State A K V) :
    Option (State A K V × Ret) := do
  let temp := O.assign k
  if !O.valid temp then s.returnPair none false
  else
    let node := if alloc.node then some s.allocated else none
    let (t, result, newElement) ← A.insert (compareItems O (some temp) .stack s) node
      s.table
    if newElement then
      let n ← result
      let s := { s with table := t, allocated := s.allocated + 1 }.write n .stack
      fillNode O alloc k v n s
    else
      let s := { s with table := t }
      let item ← s.itemOf result
      s.returnPair item false

/-- Where an iterator's `handle` stands. -/
inductive Handle where
  /-- `NULL`: before the first element. -/
  | start
  /-- A node. -/
  | node (n : ℕ)
  /-- `(PVOID)-1`: past the last element. -/
  | stop
  deriving DecidableEq, Repr

/-- The handle as a restart key; one past the end is none. -/
def Handle.restart : Handle → Option (Option ℕ)
  | .start => some none
  | .node n => some (some n)
  | .stop => none

/-- `iterator::operator++` on a handle and the holder `value`. -/
def advance (handle : Handle) (value : Option ℕ) (s : State A K V) :
    Option (State A K V × Handle × Option ℕ) := do
  let restart ← handle.restart
  let rt ← A.next restart s.table
  let item ← s.itemOf rt
  let s ← s.retain item
  let s ← s.release value
  return (s, rt.elim .stop .node, item)

/-- `begin`: the iterator is copied to the caller and then destroyed. -/
def begin (s : State A K V) : Option (State A K V × Handle × Option ℕ) := do
  let (s, handle, value) ← advance .start none s
  let s ← s.retain value
  let s ← s.release value
  return (s, handle, value)

/-- The body of a loop over a container may copy the holder it is given. -/
def loopBody (keep : ℕ → Bool) (item : ℕ) (s : State A K V) : Option (State A K V) :=
  if keep item then (s.store.construct (some item)).map fun st => { s with store := st } else some s

/-- The loop over an iterator until it equals `end()`, and its destructor. -/
def iterateLoop (keep : ℕ → Bool) :
    ℕ → Handle → Option ℕ → State A K V → Option (State A K V × List ℕ)
  | 0, _, _, _ => none
  | n + 1, handle, value, s => do
    if handle = .stop then
      let s ← s.release value
      return (s, [])
    let item ← value
    let s ← loopBody keep item s
    let (s, handle, value) ← advance handle value s
    let (s, rest) ← iterateLoop keep n handle value s
    return (s, item :: rest)

/-- `count`. -/
def count (s : State A K V) : ℕ := (A.nodes s.table).length

/-- An iteration from `begin()` to `end()`. -/
def iterate (keep : ℕ → Bool) (s : State A K V) : Option (State A K V × Ret) := do
  let (s, handle, value) ← begin s
  let (s, xs) ← iterateLoop keep (count s + 1) handle value s
  return (s, .items xs)

/-- The loop of `clear`, at the element the enumeration returned. -/
def clearLoop (O : KeyOps K) : ℕ → Option ℕ → State A K V → Option (State A K V)
  | 0, _, _ => none
  | _, none, s => some s
  | n + 1, some p, s => do
    let first ← s.memory p
    let (s, _) ← s.delete O none first
    -- `p->_item`, after the node was handed back
    let item ← s.memory p
    let s ← match item with
      | .heap i => s.release (some i)
      | .null => some s
      | .stack => none
    let (t, p) := A.enumerate false s.table
    clearLoop O n p { s with table := t }

/-- `clear`, with a bound on its rounds. -/
def clear (O : KeyOps K) (rounds : ℕ) (s : State A K V) : Option (State A K V) :=
  let (t, p) := A.enumerate true s.table
  clearLoop O rounds p { s with table := t }

/-- The operations of a run. -/
inductive Op (K V : Type) where
  /-- `insert`, with no allocation failure. -/
  | insert (k : K) (v : V)
  /-- `find`. -/
  | find (k : K)
  /-- `remove`. -/
  | remove (k : K)
  /-- `count`. -/
  | count
  /-- `empty`. -/
  | empty
  /-- A loop whose body copies the holders of the chosen items. -/
  | iterate (keep : ℕ → Bool)
  /-- Copy-construct a holder. -/
  | copyHolder (r : ℕ)
  /-- Move-construct a holder. -/
  | moveHolder (r : ℕ)
  /-- `h = r`. -/
  | assignCopy (h r : ℕ)
  /-- `h = move(r)`. -/
  | assignMove (h r : ℕ)
  /-- Destroy a holder. -/
  | destroyHolder (h : ℕ)

/-- Keep a new state of items and holders. -/
def State.withStore (s : State A K V) (st : Store (K × V)) : State A K V × Ret :=
  ({ s with store := st }, .void)

/-- Perform one operation. -/
def step (flag : Bool) (O : KeyOps K) (s : State A K V) : Op K V → Option (State A K V × Ret)
  | .insert k v => insert O ⟨true, true⟩ k v s
  | .find k => find flag O k s
  | .remove k => remove O k s
  | .count => some (s, .count (count s))
  | .empty => some (s, .bool (count s == 0))
  | .iterate keep => iterate keep s
  | .copyHolder r => (s.store.copyConstruct r).map s.withStore
  | .moveHolder r => (s.store.moveConstruct r).map s.withStore
  | .assignCopy h r => (s.store.copyAssign h r).map fun x => s.withStore x.1
  | .assignMove h r => (s.store.moveAssign h r).map fun x => s.withStore x.1
  | .destroyHolder h => (s.store.destroy h).map fun x => s.withStore x.1

/-- `map::find`. -/
def mapFind (O : KeyOps K) (k : K) (s : State A K V) : Option (State A K V × Ret) := find true O k s

/-- `set::find`. -/
def setFind (O : KeyOps K) (k : K) (s : State A K Unit) : Option (State A K Unit × Ret) :=
  find false O k s

/-- `map::insert`. -/
def mapInsert (O : KeyOps K) (alloc : Allocation) (k : K) (v : V) (s : State A K V) :
    Option (State A K V × Ret) := insert O alloc k v s

/-- `set::insert`. -/
def setInsert (O : KeyOps K) (alloc : Allocation) (k : K) (s : State A K Unit) :
    Option (State A K Unit × Ret) := insert O alloc k () s

/-- `map::clear`. -/
def mapClear (O : KeyOps K) (rounds : ℕ) (s : State A K V) : Option (State A K V) :=
  clear O rounds s

/-- `set::clear`. -/
def setClear (O : KeyOps K) (rounds : ℕ) (s : State A K Unit) : Option (State A K Unit) :=
  clear O rounds s

/-- One operation on a map. -/
def mapStep (O : KeyOps K) (s : State A K V) (op : Op K V) : Option (State A K V × Ret) :=
  step true O s op

/-- One operation on a set, whose items have no value. -/
def setStep (O : KeyOps K) (s : State A K Unit) (op : Op K Unit) :
    Option (State A K Unit × Ret) :=
  step false O s op

end KernelLib.AvlContainer
