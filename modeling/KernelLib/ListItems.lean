import KernelLib.ListHeads
import KernelLib.RefHolder

/-!
# The intrusive list of reference-counted items

`skl::list` over any number of list objects and holder variables, as a
step function that fails at a null or dangling access. Heads and items
share one memory of `LIST_ENTRY`s; deleting an item frees its entry. Loops
carry a bound of one round more than items were ever created.

Allocation and copying of the element are inputs: a push is given the
value in the new item, or nothing when the pool is exhausted. `check_valid`
is a parameter. `copy_wraper` calls members that do not exist and is left out.
-/

namespace KernelLib.ListItems

open LinkedRing ListHeads CountedObjects RefHolder

/-- Where a `LIST_ENTRY` lives: in a list object or in an item. -/
inductive Addr where
  /-- The `_head` of a list. -/
  | head (l : ℕ)
  /-- The `_listEntry` of an item. -/
  | item (i : ℕ)
  deriving DecidableEq, Repr

/-- `CONTAINING_RECORD` on an entry; a head has no item around it. -/
def Addr.record : Addr → Option ℕ
  | .head _ => none
  | .item i => some i

/-- Lists, items and holders. -/
structure State (T : Type) where
  /-- The memory of entries. -/
  link : Links Addr
  /-- The items and the holders. -/
  store : Store T
  /-- How many list objects were constructed. -/
  lists : ℕ

variable {T : Type}

/-- Before the first list is constructed. -/
def State.empty : State T := ⟨fun _ => none, ⟨Objects.empty, []⟩, 0⟩

/-- What an operation returns. -/
inductive Ret where
  /-- Nothing. -/
  | void
  /-- A `bool`. -/
  | bool (b : Bool)
  /-- A new holder with this pointer. -/
  | holder (p : Option ℕ)
  /-- The items an iteration visited. -/
  | items (xs : List ℕ)
  deriving DecidableEq, Repr

/-- The entry of a deleted item is freed with it. -/
def free (d : Option ℕ) (m : Links Addr) : Links Addr :=
  match d with
  | none => m
  | some i => Function.update m (.item i) none

/-- Take over a change of items and holders that may have deleted an item. -/
def State.commit (s : State T) (r : Store T × Option ℕ) : State T :=
  { s with store := r.1, link := free r.2 s.link }

/-- `p->release()` for a non-null `p`. -/
def State.release (p : Option ℕ) (s : State T) : Option (State T) :=
  (releasePtr p s.store.objs).map fun r => s.commit ({ s.store with objs := r.1 }, r.2)

/-- `return itr_type(p)`: a new holder for the caller. -/
def State.returnHolder (p : Option ℕ) (s : State T) : Option (State T × Ret) :=
  (s.store.construct p).map fun st => ({ s with store := st }, .holder p)

/-- `new(poolType) item_type(v)`. -/
def State.newItem (v : T) (s : State T) : State T :=
  { s with
    store := { s.store with objs := s.store.objs.create v }
    link := Function.update s.link (.item s.store.objs.created) (some unlinkedEntry) }

/-- `push_back` and `push_front`, up to the insertion they make. -/
def push (insert : Addr → Addr → Links Addr → Option (Links Addr)) (valid : T → Bool) (l : ℕ)
    (v : Option T) (s : State T) : Option (State T × Ret) :=
  match v with
  | none => s.returnHolder none
  | some v => do
    let item := s.store.objs.created
    let s := s.newItem v
    if !valid v then
      let s ← s.release (some item)
      s.returnHolder none
    else
      let m ← insert (.head l) (.item item) s.link
      { s with link := m }.returnHolder (some item)

/-- `push_back`. -/
def pushBack (valid : T → Bool) (l : ℕ) (v : Option T) (s : State T) : Option (State T × Ret) :=
  push insertTailList valid l v s

/-- `push_front`. -/
def pushFront (valid : T → Bool) (l : ℕ) (v : Option T) (s : State T) : Option (State T × Ret) :=
  push insertHeadList valid l v s

/-- Take the first entry off a non-empty list and null its pointers. -/
def takeFirst (l : ℕ) (m : Links Addr) : Option (ℕ × Links Addr) := do
  let (entry, m) ← removeHeadList (.head l) m
  let item ← entry.record
  let m ← nullEntry entry m
  return (item, m)

/-- `pop_front`. -/
def popFront (l : ℕ) (s : State T) : Option (State T × Ret) := do
  if (← isListEmpty (.head l) s.link) = true then s.returnHolder none
  else
    let (item, m) ← takeFirst l s.link
    let (s, v) ← { s with link := m }.returnHolder (some item)
    let s ← s.release (some item)
    return (s, v)

/-- `remove`. -/
def remove (h : ℕ) (s : State T) : Option (State T × Ret) := do
  match ← s.store.ptr h with
  | none => return (s, .bool false)
  | some item =>
    let entry ← s.link (.item item)
    if entry.flink = none ∨ entry.blink = none then return (s, .bool false)
    let m ← removeEntryList (.item item) s.link
    let m ← nullEntry (.item item) m
    let s ← { s with link := m }.release (some item)
    return (s, .bool true)

/-- The loop of `clear`. -/
def clearLoop (l : ℕ) : ℕ → State T → Option (State T)
  | 0, _ => none
  | n + 1, s => do
    if (← isListEmpty (.head l) s.link) = true then return s
    let (item, m) ← takeFirst l s.link
    let s ← { s with link := m }.release (some item)
    clearLoop l n s

/-- `clear`. -/
def clear (l : ℕ) (s : State T) : Option (State T) := clearLoop l (s.store.objs.created + 1) s

/-- The pointer an iterator holds at an entry: null at its list's head. -/
def valueAt (l : ℕ) (current : Addr) : Option (Option ℕ) :=
  if current = .head l then some none else current.record.map some

/-- The body of a loop over a list may copy the holder it is given. -/
def loopBody (keep : ℕ → Bool) (item : ℕ) (st : Store T) : Option (Store T) :=
  if keep item then st.construct (some item) else some st

/-- The loop over an iterator with its `_current` and `value`; the iterator
dies at the end. -/
def iterateLoop (keep : ℕ → Bool) (l : ℕ) :
    ℕ → Addr → Option ℕ → State T → Option (State T × List ℕ)
  | 0, _, _, _ => none
  | n + 1, current, value, s => do
    if current = .head l then
      let s ← s.release value
      return (s, [])
    let item ← value
    let st ← loopBody keep item s.store
    let entry ← s.link current
    let current ← entry.flink
    let next ← valueAt l current
    let o ← retainPtr next st.objs
    let s ← { s with store := { st with objs := o } }.release value
    let (s, rest) ← iterateLoop keep l n current next s
    return (s, item :: rest)

/-- An iteration from `begin()` to `end()`. -/
def iterate (keep : ℕ → Bool) (l : ℕ) (s : State T) : Option (State T × Ret) := do
  let head ← s.link (.head l)
  let current ← head.flink
  let value ← valueAt l current
  let o ← retainPtr value s.store.objs
  let s := { s with store := { s.store with objs := o } }
  let (s, xs) ← iterateLoop keep l (s.store.objs.created + 1) current value s
  return (s, .items xs)

/-- The operations of a run. -/
inductive Op (T : Type) where
  /-- Construct a list. -/
  | construct
  /-- Destroy a list. -/
  | destroy (l : ℕ)
  /-- `l.clear()`. -/
  | clear (l : ℕ)
  /-- `l.empty()`. -/
  | empty (l : ℕ)
  /-- `l.push_back(v)`, with the value in the new item unless its allocation fails. -/
  | pushBack (l : ℕ) (v : Option T)
  /-- `l.push_front(v)`, likewise. -/
  | pushFront (l : ℕ) (v : Option T)
  /-- `l.pop_front()`. -/
  | popFront (l : ℕ)
  /-- `l.remove(h)`. -/
  | remove (l h : ℕ)
  /-- `l.swap(r)`. -/
  | swap (l r : ℕ)
  /-- `l.append(move(r))`. -/
  | append (l r : ℕ)
  /-- A loop over `l` whose body copies the holders of the chosen items. -/
  | iterate (l : ℕ) (keep : ℕ → Bool)
  /-- Copy-construct a holder. -/
  | copyHolder (r : ℕ)
  /-- Move-construct a holder. -/
  | moveHolder (r : ℕ)
  /-- `h = r`. -/
  | assignCopy (h r : ℕ)
  /-- `h = move(r)`. -/
  | assignMove (h r : ℕ)
  /-- Destroy a holder. -/
  | destroyHolder (h : ℕ)

/-- Perform one operation. -/
def step (valid : T → Bool) (s : State T) : Op T → Option (State T × Ret)
  | .construct => do
    let h := Addr.head s.lists
    let m ← initializeListHead h (Function.update s.link h (some unlinkedEntry))
    return ({ s with link := m, lists := s.lists + 1 }, .void)
  | .destroy l => do
    let s ← clear l s
    return ({ s with link := Function.update s.link (.head l) none }, .void)
  | .clear l => (clear l s).map (·, .void)
  | .empty l => (isListEmpty (.head l) s.link).map (s, .bool ·)
  | .pushBack l v => pushBack valid l v s
  | .pushFront l v => pushFront valid l v s
  | .popFront l => popFront l s
  | .remove _ h => remove h s
  | .swap l r => (swapHeads (.head l) (.head r) s.link).map ({ s with link := · }, .void)
  | .append l r => (appendHeads (.head l) (.head r) s.link).map fun (b, m) =>
      ({ s with link := m }, .bool b)
  | .iterate l keep => iterate keep l s
  | .copyHolder r => (s.store.copyConstruct r).map fun st => (s.commit (st, none), .void)
  | .moveHolder r => (s.store.moveConstruct r).map fun st => (s.commit (st, none), .void)
  | .assignCopy h r => (s.store.copyAssign h r).map fun x => (s.commit x, .void)
  | .assignMove h r => (s.store.moveAssign h r).map fun x => (s.commit x, .void)
  | .destroyHolder h => (s.store.destroy h).map fun x => (s.commit x, .void)

end KernelLib.ListItems
