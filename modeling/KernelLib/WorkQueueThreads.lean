import KernelLib.QueueRing
import KernelLib.StepRuns
import Mathlib.Tactic.Simps.Basic

/-!
# The work queue in several threads

Each thread calls `enque`, `emptyEnque`, `clear`, `deque` and `goExit` of one
`WorkQueue`. A section under the mutex is one step; so is each statement
outside of the mutex that touches the event, the flag or the memory. The
queue `ept` of `emptyEnque` and `clear` is a local object of the thread, and
its destructor unlinks and deletes one item after the other while other
threads go on. Calls and accepted elements are numbered, for the record of
what was accepted, handed out, dropped and returned.
-/

namespace KernelLib.WorkQueueThreads

open LinkedRing QueueRing Function
open WorkQueueSections (DequeResult)

/-- The queue objects. -/
inductive Queue (T : Type) where
  /-- `_q`. -/
  | shared
  /-- `ept` in a thread. -/
  | ept (t : T)
  deriving DecidableEq

/-- What a call returns. -/
inductive Ret (V : Type) where
  /-- From `enque` and `emptyEnque`. -/
  | added (ok : Bool)
  /-- From `clear`. -/
  | cleared
  /-- From `deque`, with the element in `o`. -/
  | dequed (rt : DequeResult) (o : Option V)
  /-- From `goExit`. -/
  | exit (rt : Bool)
  deriving DecidableEq

/-- Where a thread is, and in which call. -/
inductive Pc (V : Type) where
  /-- Outside of the calls. -/
  | idle
  /-- In `enque`, before the section. -/
  | enque (c : ℕ) (v : V)
  /-- In `enque`, after the section. -/
  | enqued (c : ℕ) (empty ok : Bool)
  /-- In `emptyEnque`, before the section. -/
  | emptyEnque (c : ℕ) (v : V)
  /-- In `emptyEnque`, after the section. -/
  | emptyEnqued (c : ℕ) (ok : Bool)
  /-- In `clear`, before the section. -/
  | clear (c : ℕ)
  /-- In `clear`, after the section. -/
  | cleared (c : ℕ)
  /-- In the destructor of `ept`, before the test for emptiness. -/
  | unlink (c : ℕ) (r : Ret V)
  /-- In the destructor of `ept`, before `delete item`. -/
  | delete (c : ℕ) (r : Ret V) (item : ℕ)
  /-- In `deque`, before the section. -/
  | deque (c : ℕ)
  /-- In `deque`, in the wait. -/
  | wait (c : ℕ)
  /-- In `deque`, before the test of `_exit`. -/
  | test (c : ℕ)
  /-- In `deque`, after the section that called `pop_front`. -/
  | dequed (c : ℕ) (o : Option V)
  /-- In `goExit`, before `_exit` is read. -/
  | goExit (c : ℕ)
  /-- In `goExit`, before `_exit` is set. -/
  | setExit (c : ℕ) (rt : Bool)
  deriving DecidableEq

/-- An element that `deque` handed out. -/
structure Delivery (V : Type) where
  /-- The call of `deque`. -/
  call : ℕ
  /-- The item it was in, which is its number among the accepted elements. -/
  item : ℕ
  /-- The element. -/
  value : V
  deriving DecidableEq

/-- The members of the `WorkQueue`, the threads, and the record. -/
structure Sys (T V : Type) where
  /-- `_q`, the local queues and their items. -/
  heap : Heap (Queue T) V
  /-- `_e`, true when it is signalled. -/
  e : Bool
  /-- `_exit`. -/
  exit : Bool
  /-- Where each thread is. -/
  pc : T → Pc V
  /-- How many calls were made. -/
  calls : ℕ
  /-- The accepted elements with their calls, in the order of acceptance. -/
  accepted : List (ℕ × V)
  /-- What was handed out, in order. -/
  delivered : List (Delivery V)
  /-- The elements that were dropped. -/
  dropped : List ℕ
  /-- What the calls returned. -/
  returned : List (ℕ × Ret V)

section Sections

variable {T V : Type} [DecidableEq T]

/-- The section of `enque`: whether `_q` was empty, and whether `v` was added. -/
def enqueLocked (v : V) (allocated : Bool) (h : Heap (Queue T) V) :
    Option ((Bool × Bool) × Heap (Queue T) V) := do
  let empty ← empty .shared h
  let (ok, h) ← pushBack .shared v allocated h
  return ((empty, ok), h)

/-- The section of `clear`. -/
def clearLocked (t : T) (h : Heap (Queue T) V) : Option (Heap (Queue T) V) :=
  swap .shared (.ept t) h

/-- The section of `emptyEnque`. -/
def emptyEnqueLocked (t : T) (v : V) (allocated : Bool) (h : Heap (Queue T) V) :
    Option (Bool × Heap (Queue T) V) := do
  let h ← swap .shared (.ept t) h
  pushBack .shared v allocated h

/-- The section of `deque`, which leads to a wait or to the result of `pop_front`. -/
def dequeLocked (h : Heap (Queue T) V) :
    Option (Option (Option (ℕ × V)) × Heap (Queue T) V) := do
  if (← empty .shared h) = true then return (none, h)
  let (o, h) ← popFront .shared h
  return (some o, h)

/-- A round of the destructor of `ept`, up to `delete item`: nothing when it is done. -/
def unlinkRound (t : T) (h : Heap (Queue T) V) : Option (Option ℕ × Heap (Queue T) V) := do
  if (← empty (.ept t) h) = true then return (none, endLife (.ept t) h)
  let (item, h) ← removeFirst (.ept t) h
  return (some item, h)

end Sections

section Record

variable {T V : Type}

/-- The items that `deque` handed out. -/
def Sys.deliveredItems (s : Sys T V) : List ℕ := s.delivered.map Delivery.item

/-- The accepted elements that were neither handed out nor dropped. -/
def Sys.waiting (s : Sys T V) : List ℕ :=
  (List.range s.accepted.length).filter fun i => i ∉ s.deliveredItems ∧ i ∉ s.dropped

/-- `_e.notify()`, when the condition holds. -/
@[simps] def Sys.notify (s : Sys T V) (b : Bool) : Sys T V := { s with e := s.e || b }

/-- Record that an element was accepted, if it was. -/
@[simps] def Sys.accept (s : Sys T V) (c : ℕ) (v : V) (ok : Bool) : Sys T V :=
  { s with accepted := s.accepted ++ if ok then [(c, v)] else [] }

/-- Record that everything that waits is dropped. -/
@[simps] def Sys.drop (s : Sys T V) : Sys T V := { s with dropped := s.dropped ++ s.waiting }

/-- Record what `pop_front` handed out. -/
@[simps] def Sys.deliver (s : Sys T V) (c : ℕ) (o : Option (ℕ × V)) : Sys T V :=
  { s with delivered := s.delivered ++ (o.map fun x => ⟨c, x.1, x.2⟩).toList }

/-- Record what a call returned. -/
@[simps] def Sys.ret (s : Sys T V) (c : ℕ) (r : Ret V) : Sys T V :=
  { s with returned := s.returned ++ [(c, r)] }

/-- Change the memory. -/
@[simps] def Sys.setHeap (s : Sys T V) (h : Heap (Queue T) V) : Sys T V := { s with heap := h }

end Record

section Steps

variable {T V : Type} [DecidableEq T]

/-- A thread goes on elsewhere. -/
@[simps] def Sys.setPc (s : Sys T V) (t : T) (p : Pc V) : Sys T V :=
  { s with pc := update s.pc t p }

/-- A thread begins a call. -/
@[simps] def Sys.begin (s : Sys T V) (t : T) (p : ℕ → Pc V) : Sys T V :=
  { s with pc := update s.pc t (p s.calls), calls := s.calls + 1 }

/-- The calls. -/
inductive Call (V : Type) where
  /-- `enque(v)`. -/
  | enque (v : V)
  /-- `emptyEnque(v)`. -/
  | emptyEnque (v : V)
  /-- `clear()`. -/
  | clear
  /-- `deque(o)`. -/
  | deque
  /-- `goExit()`. -/
  | goExit

/-- Enter a call, up to its first step; `ept` is constructed on entry. -/
def call (t : T) (s : Sys T V) : Call V → Option (Sys T V)
  | .enque v => some (s.begin t fun c => .enque c v)
  | .emptyEnque v =>
    (construct (.ept t) s.heap).map fun h => (s.setHeap h).begin t fun c => .emptyEnque c v
  | .clear => (construct (.ept t) s.heap).map fun h => (s.setHeap h).begin t .clear
  | .deque => some (s.begin t .deque)
  | .goExit => some (s.begin t .goExit)

/-- What a thread does next. -/
def go (t : T) (allocated : Bool) (s : Sys T V) : Option (Sys T V) :=
  match s.pc t with
  | .idle => none
  | .enque c v => (enqueLocked v allocated s.heap).map fun x =>
      ((s.setHeap x.2).accept c v x.1.2).setPc t (.enqued c x.1.1 x.1.2)
  | .enqued c empty ok => some (((s.notify (empty && ok)).ret c (.added ok)).setPc t .idle)
  | .emptyEnque c v => (emptyEnqueLocked t v allocated s.heap).map fun x =>
      ((s.setHeap x.2).drop.accept c v x.1).setPc t (.emptyEnqued c x.1)
  | .emptyEnqued c ok => some ((s.notify ok).setPc t (.unlink c (.added ok)))
  | .clear c => (clearLocked t s.heap).map fun h => (s.setHeap h).drop.setPc t (.cleared c)
  | .cleared c => some ((s.notify true).setPc t (.unlink c .cleared))
  | .unlink c r => (unlinkRound t s.heap).map fun x =>
      match x.1 with
      | none => ((s.setHeap x.2).ret c r).setPc t .idle
      | some item => (s.setHeap x.2).setPc t (.delete c r item)
  | .delete c r item => (deleteItem item s.heap).map fun h => (s.setHeap h).setPc t (.unlink c r)
  | .deque c => (dequeLocked s.heap).map fun x =>
      match x.1 with
      | none => (s.setHeap x.2).setPc t (.wait c)
      | some o => ((s.setHeap x.2).deliver c o).setPc t (.dequed c (o.map Prod.snd))
  -- the wait ends at a signal, which it consumes, or after a while
  | .wait c => some ({ s with e := false }.setPc t (.test c))
  | .test c =>
    if s.exit then some ((s.ret c (.dequed .exit none)).setPc t .idle)
    else some (s.setPc t (.deque c))
  | .dequed c o =>
    some ((s.ret c (.dequed (if o.isSome then .ok else .fail) o)).setPc t .idle)
  | .goExit c => some (s.setPc t (.setExit c s.exit))
  | .setExit c rt => some (({ s with exit := true }.ret c (.exit rt)).setPc t .idle)

/-- A step of a run. -/
inductive Act (T V : Type) where
  /-- A thread makes a call. -/
  | call (t : T) (c : Call V)
  /-- A thread goes on; the flag says whether an allocation succeeds. -/
  | go (t : T) (allocated : Bool)

/-- Take one step. -/
def step (s : Sys T V) : Act T V → Option (Sys T V)
  | .call t c => call t s c
  | .go t allocated => go t allocated s

/-- A thread makes one call after the other. -/
def Permitted (s : Sys T V) : Act T V → Prop
  | .call t _ => s.pc t = .idle
  | .go t _ => s.pc t ≠ .idle

/-- The memory of `WorkQueue()`: the head of `_q`, linked to itself. -/
def newHeap : Heap (Queue T) V :=
  { (Heap.empty : Heap (Queue T) V) with
    link := update (fun _ => none) (.head .shared)
      (some ⟨some (.head .shared), some (.head .shared)⟩) }

/-- It is what the constructor of `_q` makes. -/
theorem construct_shared : construct .shared (Heap.empty : Heap (Queue T) V) = some newHeap := by
  unfold construct newHeap
  rw [initializeListHead, setFlink_some (by simp), Option.bind_some, setBlink_some (by simp)]
  simp [withFlink, withBlink, Heap.empty]

/-- A new `WorkQueue`, before the first call. -/
def Sys.start : Sys T V := ⟨newHeap, true, false, fun _ => .idle, 0, [], [], [], []⟩

end Steps

end KernelLib.WorkQueueThreads
