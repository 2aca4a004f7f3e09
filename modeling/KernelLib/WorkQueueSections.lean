import Mathlib.Data.List.Basic

/-!
# The work queue and its critical sections

`WorkQueue` guards a queue by a mutex and carries an event and an exit
flag. Each method is cut at its synchronisation points: the section under
the mutex, the wait, and the accesses of `_exit` are separate operations,
so that a scheduler may place anything between them. The queue itself is
kept as the list of its elements.
-/

namespace KernelLib.WorkQueueSections

/-- `E_DEQUE_RT`, the results of `WorkQueue::deque`. -/
inductive DequeResult where
  | exit
  | ok
  | fail
  deriving DecidableEq, Repr

/-- The members of `WorkQueue`, less its mutex. -/
structure WorkQueue (T : Type*) where
  /-- `_q`, front first. -/
  q : List T
  /-- `_e`, a synchronization event; true when it is signalled. -/
  e : Bool
  /-- `_exit`. -/
  exit : Bool
  deriving DecidableEq, Repr

variable {T : Type*}

/-- The constructor: an empty queue, a signalled event and a cleared flag. -/
def WorkQueue.new : WorkQueue T := ⟨[], true, false⟩

/-- `queue::push_back`; the flag says whether the item could be allocated. -/
def pushBack (q : List T) (v : T) (allocated : Bool) : Bool × List T :=
  if allocated then (true, q ++ [v]) else (false, q)

/-- `queue::pop_front`. -/
def popFront : List T → Option (T × List T)
  | [] => none
  | v :: q => some (v, q)

/-- What the section of `deque` under the mutex leads to: a wait, because the
queue was empty, or a result of the call with the element it hands out. -/
inductive DequeSection (T : Type*) where
  | wait
  | returns (result : DequeResult) (o : Option T)
  deriving DecidableEq, Repr

/-- What a section of `deque` took off the queue, unless it leads to a wait. -/
def DequeSection.handed : DequeSection T → Option (Option T)
  | .wait => none
  | .returns _ o => some o

/-- One pass of `deque` under the mutex, from `lock` to the next `unlock`:
the emptiness test, and the removal when it fails. -/
def WorkQueue.dequeLocked (wq : WorkQueue T) : WorkQueue T × DequeSection T :=
  if wq.q.isEmpty then (wq, .wait)
  else
    match popFront wq.q with
    | some (v, q) => ({ wq with q := q }, .returns .ok (some v))
    | none => (wq, .returns .fail none)

/-- The test of the flag after the wait: true leaves `deque` with `E_EXIT`. -/
def WorkQueue.testExit (wq : WorkQueue T) : Bool := wq.exit

/-- `wait_for` returns and consumes the signal, if there was one. -/
def WorkQueue.waited (wq : WorkQueue T) : WorkQueue T := { wq with e := false }

/-- The section of `enque` under the mutex: the new queue, whether the queue
was empty before, and whether the element was added. -/
def WorkQueue.enqueLocked (wq : WorkQueue T) (v : T) (allocated : Bool) :
    WorkQueue T × Bool × Bool :=
  let empty := wq.q.isEmpty
  let pushed := pushBack wq.q v allocated
  ({ wq with q := pushed.2 }, empty, pushed.1)

/-- The rest of `enque`: the first element of an empty queue sets the event. -/
def WorkQueue.enqueNotify (wq : WorkQueue T) (empty ok : Bool) : WorkQueue T :=
  if empty && ok then { wq with e := true } else wq

/-- The second half of `goExit`; the first half only reads the flag. -/
def WorkQueue.setExit (wq : WorkQueue T) : WorkQueue T := { wq with exit := true }

/-- The section of `deque` under the mutex waits exactly on the empty queue. -/
theorem dequeLocked_nil {wq : WorkQueue T} (h : wq.q = []) : wq.dequeLocked = (wq, .wait) := by
  simp [WorkQueue.dequeLocked, h]

/-- On a nonempty queue `deque` hands out the front, and never `E_FALSE`. -/
theorem dequeLocked_cons {wq : WorkQueue T} {v : T} {q : List T} (h : wq.q = v :: q) :
    wq.dequeLocked = ({ wq with q := q }, .returns .ok (some v)) := by
  simp [WorkQueue.dequeLocked, popFront, h]

/-- The event has no part in what the queue and the flag hold. -/
@[simp] theorem enqueNotify_q (wq : WorkQueue T) (empty ok : Bool) :
    (wq.enqueNotify empty ok).q = wq.q := by
  unfold WorkQueue.enqueNotify
  split <;> rfl

@[simp] theorem enqueNotify_exit (wq : WorkQueue T) (empty ok : Bool) :
    (wq.enqueNotify empty ok).exit = wq.exit := by
  unfold WorkQueue.enqueNotify
  split <;> rfl

end KernelLib.WorkQueueSections
