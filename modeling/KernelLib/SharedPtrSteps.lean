import KernelLib.StepRuns
import KernelLib.Word32
import Mathlib.Data.Finset.Card
import Mathlib.Tactic.Simps.Basic

/-!
# Shared pointers in several threads

Each thread performs the member functions of `shared_ptr` on handles that it
owns. The interlocked increment and decrement of a counter, the two
deletions, the two allocations of `make_shared` and the statements between
them are steps that the threads take in any order. A counter and its object
are named after the call of `make_shared` that made them; which thread made
them, brought the counter to zero and deleted them is recorded. A step that
touches what was deleted fails.
-/

namespace KernelLib.SharedPtrSteps

open Word32 Function

/-- `shared_ptr`. The conversions keep the object, so types are left out. -/
structure Handle (B : Type) where
  /-- `_ptr`. -/
  ptr : Option B
  /-- `_pn`. -/
  pn : Option B
  deriving DecidableEq

/-- `shared_ptr()`. -/
def Handle.null {B : Type} : Handle B := ⟨none, none⟩

/-- What became of an object. -/
inductive Object where
  /-- Not made yet. -/
  | unmade
  /-- Made and not deleted. -/
  | alive
  /-- Deleted. -/
  | deleted
  deriving DecidableEq

/-- A counter and its object. -/
structure Block (T : Type) where
  /-- `m_Value`, as long as the counter is not deleted. -/
  counter : Option ℕ
  /-- The object. -/
  object : Object
  /-- The thread that made the counter. -/
  madeBy : T
  /-- The threads whose decrement reached zero. -/
  zeroedBy : List T
  /-- The threads that deleted the object. -/
  objectDeletedBy : List T
  /-- The threads that deleted the counter. -/
  counterDeletedBy : List T
  deriving DecidableEq

/-- What follows a call of `dec`. -/
inductive Rest (H : Type) where
  /-- The end of the destructor. -/
  | leave
  /-- `_ptr = r._ptr; _pn = r._pn;` and the clearing of `r`. -/
  | take (r : H)
  deriving DecidableEq

/-- Where a thread is. -/
inductive Pc (H B : Type) where
  /-- Outside of the member functions. -/
  | idle
  /-- In `make_shared` for the result `h`, before the allocation of the counter. -/
  | newCounter (h : H)
  /-- In `make_shared`, before the allocation of the object. -/
  | newObject (h : H) (b : B)
  /-- In `make_shared`, before `delete ref`. -/
  | deleteRef (h : H) (b : B)
  /-- In a copy constructor, before the increment. -/
  | copied (h r : H)
  /-- Before `r._ptr = 0; r._pn = 0;`, with the fields already in `h`. -/
  | moved (h r : H)
  /-- In a copy assignment, before the increment for `this_type(r)`. -/
  | assigning (h r tmp : H)
  /-- In a copy assignment, before the swap with `this_type(r)`. -/
  | assigned (h tmp : H)
  /-- In `dec`, before the decrement. -/
  | dec (h : H) (rest : Rest H)
  /-- In `dec`, before the deletion of the object. -/
  | deleteObject (h : H) (rest : Rest H)
  /-- In `dec`, before the deletion of the counter. -/
  | deleteCounter (h : H) (rest : Rest H)
  /-- After `dec`. -/
  | released (h : H) (rest : Rest H)
  deriving DecidableEq

/-- The threads, the handles and the blocks. -/
structure State (T H B : Type) where
  /-- Where each thread is. -/
  pc : T → Pc H B
  /-- The thread that owns a handle. -/
  owner : H → T
  /-- The handles in use. -/
  live : Finset H
  /-- The fields of a handle. -/
  handle : H → Handle B
  /-- The blocks that were made. -/
  block : B → Option (Block T)

/-- No handle and no block. -/
def State.start {T H B : Type} (owner : H → T) : State T H B :=
  ⟨fun _ => .idle, owner, ∅, fun _ => .null, fun _ => none⟩

section Statements

variable {T H B : Type} [DecidableEq T]

/-- A thread goes on elsewhere. -/
@[simps] def State.setPc (s : State T H B) (t : T) (p : Pc H B) : State T H B :=
  { s with pc := update s.pc t p }

variable [DecidableEq H] [DecidableEq B]

/-- Write the fields of a handle. -/
@[simps] def State.put (s : State T H B) (h : H) (v : Handle B) : State T H B :=
  { s with handle := update s.handle h v }

/-- Write a block. -/
@[simps] def State.setBlock (s : State T H B) (b : B) (k : Block T) : State T H B :=
  { s with block := update s.block b (some k) }

/-- The life of a handle begins, in a thread. -/
@[simps] def State.enter (s : State T H B) (t : T) (h : H) (v : Handle B) : State T H B :=
  { s with owner := update s.owner h t, live := insert h s.live, handle := update s.handle h v }

/-- The life of a handle ends. -/
@[simps] def State.leave (s : State T H B) (h : H) : State T H B := { s with live := s.live.erase h }

/-- `swap`, of the fields of `r` with those of `this`. -/
def State.swap (s : State T H B) (h r : H) : State T H B :=
  (s.put r (s.handle h)).put h (s.handle r)

/-- `if (_pn)(*_pn)++`. -/
def increment (pn : Option B) (s : State T H B) : Option (State T H B) :=
  match pn with
  | none => some s
  | some b => do
    let k ← s.block b
    let n ← k.counter
    return s.setBlock b { k with counter := some (u32 (n + 1)) }

/-- The deletion of a counter, by a thread. -/
def deleteCounter (t : T) (b : B) (s : State T H B) : Option (State T H B) := do
  let k ← s.block b
  let _ ← k.counter
  return s.setBlock b { k with counter := none, counterDeletedBy := k.counterDeletedBy ++ [t] }

/-- The deletion of an object, by a thread. -/
def deleteObject (t : T) (b : B) (s : State T H B) : Option (State T H B) := do
  let k ← s.block b
  if k.object = .alive then
    return s.setBlock b { k with object := .deleted, objectDeletedBy := k.objectDeletedBy ++ [t] }
  else none

/-- After `--*_pn`, which gave `n`. -/
def decremented (t : T) (h : H) (rest : Rest H) (b : B) (k : Block T) (n : ℕ) (s : State T H B) :
    State T H B :=
  if n = 0 then
    (s.setBlock b { k with counter := some n, zeroedBy := k.zeroedBy ++ [t] }).setPc t
      (.deleteObject h rest)
  else (s.setBlock b { k with counter := some n }).setPc t (.released h rest)

/-- `if (_pn && --*_pn == 0)`. -/
def decrement (t : T) (h : H) (rest : Rest H) (s : State T H B) : Option (State T H B) :=
  match (s.handle h).pn with
  | none => some (s.setPc t (.released h rest))
  | some b => do
    let k ← s.block b
    let n ← k.counter
    return decremented t h rest b k (sub32 n 1) s

/-- The allocation of the counter in `make_shared`, which gives `b` or fails. -/
def newCounter (t : T) (h : H) (got : Option B) (s : State T H B) : State T H B :=
  match got with
  | none => s.setPc t .idle
  | some b => (s.setBlock b ⟨some 1, .unmade, t, [], [], []⟩).setPc t (.newObject h b)

/-- The allocation of the object in `make_shared`. -/
def newObject (t : T) (h : H) (b : B) (got : Bool) (s : State T H B) : Option (State T H B) :=
  if got then do
    let k ← s.block b
    return ((s.setBlock b { k with object := .alive }).put h ⟨some b, some b⟩).setPc t .idle
  else some (s.setPc t (.deleteRef h b))

/-- What a thread does next. `got` is what an allocation gives. -/
def go (t : T) (got : Option B) (s : State T H B) : Option (State T H B) :=
  match s.pc t with
  | .idle => none
  | .newCounter h => some (newCounter t h got s)
  | .newObject h b => newObject t h b got.isSome s
  | .deleteRef _ b => (deleteCounter t b s).map fun s => s.setPc t .idle
  | .copied h _ => (increment (s.handle h).pn s).map fun s => s.setPc t .idle
  | .moved _ r => some ((s.put r .null).setPc t .idle)
  | .assigning h _ tmp => (increment (s.handle tmp).pn s).map fun s => s.setPc t (.assigned h tmp)
  | .assigned h tmp => some ((s.swap tmp h).setPc t (.dec tmp .leave))
  | .dec h rest => decrement t h rest s
  | .deleteObject h rest =>
    match (s.handle h).ptr with
    | none => some (s.setPc t (.deleteCounter h rest))
    | some b => (deleteObject t b s).map fun s => s.setPc t (.deleteCounter h rest)
  | .deleteCounter h rest =>
    match (s.handle h).pn with
    | none => some (s.setPc t (.released h rest))
    | some b => (deleteCounter t b s).map fun s => s.setPc t (.released h rest)
  | .released h .leave => some ((s.leave h).setPc t .idle)
  | .released h (.take r) => some ((s.put h (s.handle r)).setPc t (.moved h r))

end Statements

section Members

variable {T H B : Type} [DecidableEq T] [DecidableEq H] [DecidableEq B]

/-- `make_shared`. -/
def makeShared (t : T) (h : H) (s : State T H B) : State T H B :=
  (s.enter t h .null).setPc t (.newCounter h)

/-- `shared_ptr(const shared_ptr&)`. -/
def copyConstruct (t : T) (h r : H) (s : State T H B) : State T H B :=
  (s.enter t h (s.handle r)).setPc t (.copied h r)

/-- `shared_ptr(shared_ptr&&)`. -/
def moveConstruct (t : T) (h r : H) (s : State T H B) : State T H B :=
  (s.enter t h (s.handle r)).setPc t (.moved h r)

/-- `~shared_ptr()`. -/
def destroy (t : T) (h : H) (s : State T H B) : State T H B := s.setPc t (.dec h .leave)

/-- `operator=(const shared_ptr&)`, where `tmp` is `this_type(r)`. -/
def copyAssign (t : T) (h r tmp : H) (s : State T H B) : State T H B :=
  (s.enter t tmp (s.handle r)).setPc t (.assigning h r tmp)

/-- `operator=(shared_ptr&&)`. -/
def moveAssign (h r : H) (s : State T H B) : State T H B := s.swap r h

/-- `shared_ptr(const shared_ptr<TChild>&)`. -/
def copyConstructChild (t : T) (h r : H) (s : State T H B) : State T H B := copyConstruct t h r s

/-- `shared_ptr(shared_ptr<TChild>&&)`. -/
def moveConstructChild (t : T) (h r : H) (s : State T H B) : State T H B := moveConstruct t h r s

/-- `operator=(const shared_ptr<TChild>&)`. -/
def copyAssignChild (t : T) (h r tmp : H) (s : State T H B) : State T H B := copyAssign t h r tmp s

/-- `operator=(shared_ptr<TChild>&&)`, which has a body of its own. -/
def moveAssignChild (t : T) (h r : H) (s : State T H B) : State T H B := s.setPc t (.dec h (.take r))

/-- A call of a member function. `h` is `this` or the result. -/
inductive Op (H : Type) where
  /-- `shared_ptr()`. -/
  | empty (h : H)
  /-- `make_shared`. -/
  | make (h : H)
  /-- Copy construction. -/
  | copy (h r : H)
  /-- Copy construction from a `shared_ptr<TChild>`. -/
  | copyChild (h r : H)
  /-- Move construction. -/
  | move (h r : H)
  /-- Move construction from a `shared_ptr<TChild>`. -/
  | moveChild (h r : H)
  /-- Copy assignment. -/
  | copyAssign (h r tmp : H)
  /-- Copy assignment from a `shared_ptr<TChild>`. -/
  | copyAssignChild (h r tmp : H)
  /-- Move assignment. -/
  | moveAssign (h r : H)
  /-- Move assignment from a `shared_ptr<TChild>`. -/
  | moveAssignChild (h r : H)
  /-- `swap`. -/
  | swap (h r : H)
  /-- Destruction. -/
  | destroy (h : H)

/-- Enter a member function, up to its first atomic step. -/
def call (t : T) (s : State T H B) : Op H → State T H B
  | .empty h => s.enter t h .null
  | .make h => makeShared t h s
  | .copy h r => copyConstruct t h r s
  | .copyChild h r => copyConstructChild t h r s
  | .move h r => moveConstruct t h r s
  | .moveChild h r => moveConstructChild t h r s
  | .copyAssign h r tmp => copyAssign t h r tmp s
  | .copyAssignChild h r tmp => copyAssignChild t h r tmp s
  | .moveAssign h r => moveAssign h r s
  | .moveAssignChild h r => moveAssignChild t h r s
  | .swap h r => s.swap h r
  | .destroy h => destroy t h s

/-- A step of a run. -/
inductive Act (T H B : Type) where
  /-- A thread calls a member function. -/
  | call (t : T) (op : Op H)
  /-- A thread goes on. -/
  | go (t : T) (got : Option B)
  /-- A handle is handed to another thread. -/
  | give (h : H) (t : T)

/-- Take one step. -/
def step (s : State T H B) : Act T H B → Option (State T H B)
  | .call t op => some (call t s op)
  | .go t got => go t got s
  | .give h t => some { s with owner := update s.owner h t }

/-- A thread owns a handle in use. -/
def Owns (s : State T H B) (t : T) (h : H) : Prop := h ∈ s.live ∧ s.owner h = t

instance (s : State T H B) (t : T) (h : H) : Decidable (Owns s t h) :=
  inferInstanceAs (Decidable (_ ∧ _))

/-- There is room for a handle: there are fewer than `2 ^ 32`. -/
def Room (s : State T H B) (h : H) : Prop := h ∉ s.live ∧ s.live.card + 1 < 2 ^ 32

instance (s : State T H B) (h : H) : Decidable (Room s h) := inferInstanceAs (Decidable (_ ∧ _))

/-- A thread calls a member function on handles that it owns. -/
def CanCall (s : State T H B) (t : T) : Op H → Prop
  | .empty h | .make h => Room s h
  | .copy h r | .copyChild h r | .move h r | .moveChild h r => Room s h ∧ Owns s t r
  | .copyAssign h r tmp | .copyAssignChild h r tmp => Room s tmp ∧ Owns s t h ∧ Owns s t r
  | .moveAssign h r | .swap h r => Owns s t h ∧ Owns s t r
  -- the types of the two handles differ, so the handles do
  | .moveAssignChild h r => Owns s t h ∧ Owns s t r ∧ h ≠ r
  | .destroy h => Owns s t h

instance (s : State T H B) (t : T) (op : Op H) : Decidable (CanCall s t op) :=
  match op with
  | .empty h | .make h => inferInstanceAs (Decidable (Room s h))
  | .copy h r | .copyChild h r | .move h r | .moveChild h r =>
    inferInstanceAs (Decidable (Room s h ∧ Owns s t r))
  | .copyAssign h r tmp | .copyAssignChild h r tmp =>
    inferInstanceAs (Decidable (Room s tmp ∧ Owns s t h ∧ Owns s t r))
  | .moveAssign h r | .swap h r => inferInstanceAs (Decidable (Owns s t h ∧ Owns s t r))
  | .moveAssignChild h r => inferInstanceAs (Decidable (Owns s t h ∧ Owns s t r ∧ h ≠ r))
  | .destroy h => inferInstanceAs (Decidable (Owns s t h))

/-- Whether a thread allocates a counter next. -/
def Pc.allocates : Pc H B → Bool
  | .newCounter _ => true
  | _ => false

/-- What an allocation gives is not in use. -/
def NewMemory (s : State T H B) (t : T) : Option B → Prop
  | none => True
  | some b => (s.pc t).allocates = true → s.block b = none

instance (s : State T H B) (t : T) (got : Option B) : Decidable (NewMemory s t got) :=
  match got with
  | none => isTrue trivial
  | some b => inferInstanceAs (Decidable ((s.pc t).allocates = true → s.block b = none))

/-- Threads call member functions one after the other, on handles that they own. -/
def Permitted (s : State T H B) : Act T H B → Prop
  | .call t op => s.pc t = .idle ∧ CanCall s t op
  | .go t got => s.pc t ≠ .idle ∧ NewMemory s t got
  | .give h _ => h ∈ s.live ∧ s.pc (s.owner h) = .idle

instance (s : State T H B) (a : Act T H B) : Decidable (Permitted s a) :=
  match a with
  | .call t op => inferInstanceAs (Decidable (s.pc t = .idle ∧ CanCall s t op))
  | .go t got => inferInstanceAs (Decidable (s.pc t ≠ .idle ∧ NewMemory s t got))
  | .give h _ => inferInstanceAs (Decidable (h ∈ s.live ∧ s.pc (s.owner h) = .idle))

end Members

end KernelLib.SharedPtrSteps
