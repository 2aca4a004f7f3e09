import KernelLib.JustACall
import KernelLib.WorkQueueDrain

/-!
# Creating a worker

`simple_worker::create` and `interface_worker::create` make nine requests,
allocations and system calls, each of which may fail. The worker is allocated
first, its queue next, and the thread may run before the last request. A
worker whose `init` has failed is destroyed like a finished one, by a
destructor that calls the null `_queue`; if it was the last request that
failed, the thread is left in its loop besides. So creation fails cleanly
exactly when what fails is the allocation of the worker itself.
-/

namespace KernelLib.WorkerCreate

open StepRuns WorkQueueSections WorkQueueDrain

/-- What `create` makes by `helper::make_shared`. -/
inductive Made where
  /-- The worker. -/
  | worker
  /-- The `WorkQueue`. -/
  | queue
  /-- The copy of the lambda that the thread runs. -/
  | functor
  deriving DecidableEq, Repr

/-- The allocations and system calls of `create`. -/
inductive Request where
  /-- The control block, in `make_shared`. -/
  | ref (m : Made)
  /-- The object, in `make_shared`. -/
  | object (m : Made)
  /-- The `shared_ref_item`, in `thread::thread`. -/
  | holder
  /-- `PsCreateSystemThread`. -/
  | createThread
  /-- `ObReferenceObjectByHandle`. -/
  | reference
  deriving DecidableEq, Repr

/-- Where the owner of the worker is. -/
inductive Pc where
  /-- In `create`, before a request. -/
  | request (r : Request)
  /-- In `create`, after `init` has returned false. -/
  | failed
  /-- After `create`, which returned a worker or null, and in no call. -/
  | returned (rt : Bool)
  /-- In `detach`, before the wait. -/
  | joining
  deriving DecidableEq, Repr

/-- The members of a worker. -/
structure Worker where
  /-- Whether `_queue` holds the queue; else it is null. -/
  queue : Bool
  /-- Whether `_t` references the thread; else it is null. -/
  t : Bool
  deriving DecidableEq, Repr

/-- The objects of `create` that exist, with the `shared_ptr` on them counted. -/
structure Sys (V : Type) where
  /-- Where the owner is. -/
  pc : Pc
  /-- The worker; it has one owner. -/
  worker : Option Worker
  /-- The queue. -/
  queue : Option (ℕ × WorkQueue V)
  /-- The functor, which has a copy of `wq`. -/
  functor : Option ℕ
  /-- The holder, which has a `shared_ptr` on the functor. -/
  holder : Bool
  /-- The thread, once it was created. -/
  thread : Option (WorkerAt V)
  deriving DecidableEq

section Pointers

variable {V : Type}

/-- A `shared_ptr` on the queue is copied. -/
def retainQueue (s : Sys V) : Option (Sys V) :=
  s.queue.map fun x => { s with queue := some (x.1 + 1, x.2) }

/-- A `shared_ptr` on the queue is destroyed, and the queue with the last one. -/
def releaseQueue (s : Sys V) : Option (Sys V) :=
  s.queue.map fun x => { s with queue := if x.1 = 1 then none else some (x.1 - 1, x.2) }

/-- A `shared_ptr` on the functor is destroyed, and with the last one the functor with
its copy of `wq`. -/
def releaseFunctor (s : Sys V) : Option (Sys V) := do
  let n ← s.functor
  if n = 1 then releaseQueue { s with functor := none }
  else return { s with functor := some (n - 1) }

/-- `holder->release()`, which deletes the holder. -/
def releaseHolder (s : Sys V) : Option (Sys V) :=
  if s.holder then releaseFunctor { s with holder := false } else none

end Pointers

section Methods

variable {V : Type} {R : Type}

/-- A call by `_queue->`. -/
def callQueue (f : WorkQueue V → R × WorkQueue V) (s : Sys V) : Option (R × Sys V) := do
  let w ← s.worker
  if w.queue then
    let x ← s.queue
    return ((f x.2).1, { s with queue := some (x.1, (f x.2).2) })
  else none

/-- `push_a_async_call` and `push`. -/
def push (valid : V → Bool) (c : V) (allocated : Bool) (s : Sys V) : Option (Bool × Sys V) :=
  if valid c then
    callQueue (fun wq =>
      let x := wq.enqueLocked c allocated
      (x.2.2, x.1.enqueNotify x.2.1 x.2.2)) s
  else some (false, s)

/-- `stop`, which returns the old status. -/
def stop : Sys V → Option (Bool × Sys V) := callQueue fun wq => (wq.exit, wq.setExit)

/-- `clear`. -/
def clear : Sys V → Option (Unit × Sys V) := callQueue fun wq => ((), { wq with q := [], e := true })

/-- The first half of `detach`. -/
def detach (s : Sys V) : Option (Sys V) := do
  let (_, s) ← stop s
  return { s with pc := .joining }

/-- The rest of `detach`, `_t.detach()`, after its wait for the thread. -/
def join (s : Sys V) : Option (Sys V) := do
  let w ← s.worker
  return { s with worker := some { w with t := false }, pc := .returned true }

/-- `~simple_worker` and `~interface_worker`: `stop()`, and then the members. -/
def destroy (s : Sys V) : Option (Sys V) := do
  let (_, s) ← stop s
  let w ← s.worker
  let s := { s with worker := none }
  if w.queue then releaseQueue s else return s

end Methods

section Create

variable {V : Type}

/-- `init` returns false after the thread object came out null: the lambda and `wq` go. -/
def initFails (s : Sys V) : Option (Sys V) := do
  let s ← releaseQueue s
  let s ← releaseQueue s
  return { s with pc := .failed }

/-- `init` returns true: the lambda goes, `_t.swap(t); _queue = wq`, and `wq` goes. -/
def initSucceeds (s : Sys V) : Option (Sys V) := do
  let s ← releaseQueue s
  let s ← retainQueue { s with worker := some ⟨true, true⟩ }
  let s ← releaseQueue s
  return { s with pc := .returned true }

/-- `make_shared` has returned an object. The lambda is made right after the queue, with
a copy of `wq`, and is copied to the functor. -/
def made (s : Sys V) : Made → Option (Sys V)
  | .worker => some { s with worker := some ⟨false, false⟩, pc := .request (.ref .queue) }
  | .queue => some { s with queue := some (2, .new), pc := .request (.ref .functor) }
  | .functor => do
    let s ← retainQueue s
    return { s with functor := some 1, pc := .request .holder }

/-- `make_shared` has returned null, with its control block deleted again. -/
def notMade (s : Sys V) : Made → Option (Sys V)
  | .worker => some { s with pc := .returned false }
  | .queue => some { s with pc := .failed }
  | .functor => initFails s

/-- `create` goes on with its next request, up to the one after it. -/
def create (o : Request → Bool) (s : Sys V) : Option (Sys V) :=
  match s.pc with
  | .request (.ref m) =>
    if o (.ref m) then some { s with pc := .request (.object m) } else notMade s m
  | .request (.object m) => if o (.object m) then made s m else notMade s m
  | .request .holder => do
    let n ← s.functor
    if o .holder then
      return { s with holder := true, functor := some (n + 1), pc := .request .createThread }
    else
      let s ← releaseFunctor s
      initFails s
  | .request .createThread =>
    if o .createThread then some { s with thread := some .lock, pc := .request .reference }
    else do
      let s ← releaseHolder s
      let s ← releaseFunctor s
      initFails s
  | .request .reference => do
    -- `ptr` goes at the end of `thread::thread`
    let s ← releaseFunctor s
    if o .reference then initSucceeds s else initFails s
  | .failed => do
    -- `rt` goes before null is returned
    let s ← destroy s
    return { s with pc := .returned false }
  | .returned _ | .joining => none

/-- The next step in the loop of the thread. -/
def loop (wq : WorkQueue V) : WorkerAt V → WorkQueue V × WorkerAt V
  | .lock =>
    match wq.dequeLocked with
    | (wq, .wait) => (wq, .wait)
    | (wq, .returns .ok (some o)) => (wq, .call o)
    | (wq, .returns _ _) => (wq, .failed)
  | .wait => (wq.waited, .test)
  | .test => (wq, if wq.testExit then .exited else .lock)
  | .call _ => (wq, .lock)
  | .failed => (wq, .lock)
  | .exited => (wq, .exited)

/-- The next step of the thread, whose last one is `holder->release()`. -/
def threadProc (s : Sys V) : Option (Sys V) := do
  match ← s.thread with
  | .exited => releaseHolder s
  | p =>
    let x ← s.queue
    let r := loop x.2 p
    return { s with queue := some (x.1, r.1), thread := some r.2 }

end Create

/-- A step of a run. -/
inductive Act (V : Type) where
  /-- The owner goes on in `create`. -/
  | create
  /-- The thread goes on. -/
  | thread
  /-- An element is pushed; the flag says whether its item could be allocated. -/
  | push (c : V) (allocated : Bool)
  /-- `clear()`. -/
  | clear
  /-- `stop()`. -/
  | stop
  /-- `detach()`, up to its wait. -/
  | detach
  /-- The wait of `detach` ends. -/
  | join
  /-- The worker is destroyed. -/
  | destroy
  deriving DecidableEq, Repr

section Runs

variable {V : Type}

/-- Nothing was requested yet. -/
def start : Sys V := ⟨.request (.ref .worker), none, none, none, false, none⟩

/-- Take one step, with the outcome of each request. -/
def step (valid : V → Bool) (o : Request → Bool) (s : Sys V) : Act V → Option (Sys V)
  | .create => create o s
  | .thread => threadProc s
  | .push c allocated => (push valid c allocated s).map Prod.snd
  | .clear => (clear s).map Prod.snd
  | .stop => (stop s).map Prod.snd
  | .detach => detach s
  | .join => join s
  | .destroy => destroy s

/-- A worker accepts only callables that are valid, `just_a_call::isValid`. -/
def simpleWorker {F : Type} (o : Request → Bool) : Sys (JustACall.Call F) →
    Act (JustACall.Call F) → Option (Sys (JustACall.Call F)) :=
  step (fun c => c.routing.isSome) o

/-- A worker accepts only a `shared_ptr<_TInterface>` that is not null. -/
def interfaceWorker {I : Type} (o : Request → Bool) : Sys (Option I) → Act (Option I) →
    Option (Sys (Option I)) :=
  step Option.isSome o

/-- The thread has a step to take. -/
def Runs (s : Sys V) : Prop := s.holder = true ∧ s.thread.isSome

instance (s : Sys V) : Decidable (Runs s) := inferInstanceAs (Decidable (_ ∧ _))

/-- There is a worker, and `create` is over. -/
def InUse (s : Sys V) : Prop := s.worker.isSome ∧ (s.pc = .returned true ∨ s.pc = .joining)

/-- `create` goes on until it returns, and the worker is used after that: pushed to, cleared
and stopped by any thread, and detached and destroyed by its owner. The wait of `detach`
ends with the thread. -/
def Permitted (s : Sys V) : Act V → Prop
  | .create => s.pc ≠ .joining ∧ ∀ rt, s.pc ≠ .returned rt
  | .thread => Runs s
  | .push _ _ | .clear | .stop => InUse s
  | .detach | .destroy => s.worker.isSome ∧ s.pc = .returned true
  | .join => s.pc = .joining ∧ ∀ w, s.worker = some w → w.t = true → ¬Runs s

/-- The thread is in its loop, and whatever happens it does not leave it. -/
def Stranded (worker : Sys V → Act V → Option (Sys V)) (s : Sys V) : Prop :=
  (∃ p, s.thread = some p ∧ p ≠ .exited) ∧
    ∀ as t, Along Permitted worker s as → run worker s as = some t → t.thread ≠ some .exited

/-- The step touches nothing that is null or gone, and leaves no thread stranded when
`create` has returned null. -/
def Sound (worker : Sys V → Act V → Option (Sys V)) (s : Sys V) (a : Act V) : Prop :=
  ∃ t, worker s a = some t ∧ (t.pc = .returned false → ¬Stranded worker t)

/-- In every run from here, every step is sound. -/
def AlwaysSound (worker : Sys V → Act V → Option (Sys V)) (s : Sys V) : Prop :=
  ∀ as, Along Permitted worker s as → Along (Sound worker) worker s as

/-- Nothing fails, or the allocation of the worker does. -/
def Clean (o : Request → Bool) : Prop :=
  o (.ref .worker) = true → o (.object .worker) = true → ∀ r, o r = true

/-- The states of all runs. -/
inductive Stage : Sys V → Prop
  /-- Before the worker is made. -/
  | begin (r : Request) (hr : r = .ref .worker ∨ r = .object .worker) :
    Stage ⟨.request r, none, none, none, false, none⟩
  /-- Before the queue is made. -/
  | worker (r : Request) (hr : r = .ref .queue ∨ r = .object .queue) :
    Stage ⟨.request r, some ⟨false, false⟩, none, none, false, none⟩
  /-- The queue is held by `wq` and the lambda. -/
  | queue (r : Request) (hr : r = .ref .functor ∨ r = .object .functor) :
    Stage ⟨.request r, some ⟨false, false⟩, some (2, .new), none, false, none⟩
  /-- And by the functor, which is held by `ptr`. -/
  | functor : Stage ⟨.request .holder, some ⟨false, false⟩, some (3, .new), some 1, false, none⟩
  /-- And by the holder. -/
  | holder :
    Stage ⟨.request .createThread, some ⟨false, false⟩, some (3, .new), some 2, true, none⟩
  /-- The thread has begun. -/
  | thread (wq : WorkQueue V) (p : WorkerAt V) (he : wq.exit = false) (hp : p ≠ .exited) :
    Stage ⟨.request .reference, some ⟨false, false⟩, some (3, wq), some 2, true, some p⟩
  /-- The queue is held by `_queue` and the functor. -/
  | working (pc : Pc) (hpc : pc = .returned true ∨ pc = .joining) (t : Bool) (wq : WorkQueue V)
      (p : WorkerAt V) : Stage ⟨pc, some ⟨true, t⟩, some (2, wq), some 1, true, some p⟩
  /-- The thread is over. -/
  | ended (pc : Pc) (hpc : pc = .returned true ∨ pc = .joining) (t : Bool) (wq : WorkQueue V) :
    Stage ⟨pc, some ⟨true, t⟩, some (1, wq), none, false, some .exited⟩
  /-- The worker is destroyed, the thread is not over. -/
  | destroyed (wq : WorkQueue V) (p : WorkerAt V) (he : wq.exit = true) :
    Stage ⟨.returned true, none, some (1, wq), some 1, true, some p⟩
  /-- Everything is gone. -/
  | gone : Stage ⟨.returned true, none, none, none, false, some .exited⟩
  /-- The worker was not made. -/
  | refused : Stage ⟨.returned false, none, none, none, false, none⟩
  /-- `init` has failed without a thread. -/
  | failed : Stage ⟨.failed, some ⟨false, false⟩, none, none, false, none⟩
  /-- `init` has failed with a thread. -/
  | abandoned (wq : WorkQueue V) (p : WorkerAt V) (he : wq.exit = false) (hp : p ≠ .exited) :
    Stage ⟨.failed, some ⟨false, false⟩, some (1, wq), some 1, true, some p⟩

/-- The request that follows, if this one is granted. -/
def next : Request → Option Request
  | .ref m => some (.object m)
  | .object .worker => some (.ref .queue)
  | .object .queue => some (.ref .functor)
  | .object .functor => some .holder
  | .holder => some .createThread
  | .createThread => some .reference
  | .reference => none

/-- Where `create` goes on after a request. -/
def after (o : Request → Bool) (r : Request) : Pc :=
  if o r then (next r).elim (.returned true) .request
  else if r = .ref .worker ∨ r = .object .worker then .returned false else .failed

end Runs

section Steps

variable {V : Type} {valid : V → Bool} {o : Request → Bool} {s : Sys V}

theorem loop_exit (wq : WorkQueue V) (p : WorkerAt V) : (loop wq p).1.exit = wq.exit := by
  cases p with
  | lock =>
    cases hq : wq.q with
    | nil => simp [loop, dequeLocked_nil hq]
    | cons v q => simp [loop, dequeLocked_cons hq]
  | wait => rfl
  | test => rfl
  | call v => rfl
  | failed => rfl
  | exited => rfl

/-- The loop is left on the flag only. -/
theorem loop_ne_exited {wq : WorkQueue V} {p : WorkerAt V} (he : wq.exit = false)
    (hp : p ≠ .exited) : (loop wq p).2 ≠ .exited := by
  cases p with
  | lock =>
    cases hq : wq.q with
    | nil => simp [loop, dequeLocked_nil hq]
    | cons v q => simp [loop, dequeLocked_cons hq]
  | wait => simp [loop]
  | test => simp [loop, WorkQueue.testExit, he]
  | call v => simp [loop]
  | failed => simp [loop]
  | exited => exact absurd rfl hp

/-- A thread in its loop only changes the queue and its own place. -/
theorem threadProc_loop {p : WorkerAt V} {n : ℕ} {wq : WorkQueue V} (ht : s.thread = some p)
    (hp : p ≠ .exited) (hq : s.queue = some (n, wq)) :
    threadProc s = some { s with queue := some (n, (loop wq p).1), thread := some (loop wq p).2 } := by
  cases p <;> first | exact absurd rfl hp | simp [threadProc, ht, hq]

/-- A request is granted, and `create` goes on to the next one, or all of `create` is undone
up to the worker; this one cannot be destroyed. -/
theorem stage_create (hs : Stage s) (hperm : Permitted s .create) :
    (s.pc = .failed ∧ create o s = none) ∨
      ∃ r t, s.pc = .request r ∧ create o s = some t ∧ Stage t ∧ t.pc = after o r := by
  cases hs with
  | begin r hr =>
    refine .inr ⟨r, ?_⟩
    rcases hr with rfl | rfl
    · cases ho : o (.ref .worker)
      · exact ⟨_, rfl, by simp [create, ho, notMade], .refused, by simp [after, ho]⟩
      · exact ⟨_, rfl, by simp [create, ho], .begin _ (.inr rfl), by simp [after, ho, next]⟩
    · cases ho : o (.object .worker)
      · exact ⟨_, rfl, by simp [create, ho, notMade], .refused, by simp [after, ho]⟩
      · exact ⟨_, rfl, by simp [create, ho, made], .worker _ (.inl rfl), by simp [after, ho, next]⟩
  | worker r hr =>
    refine .inr ⟨r, ?_⟩
    rcases hr with rfl | rfl
    · cases ho : o (.ref .queue)
      · exact ⟨_, rfl, by simp [create, ho, notMade], .failed, by simp [after, ho]⟩
      · exact ⟨_, rfl, by simp [create, ho], .worker _ (.inr rfl), by simp [after, ho, next]⟩
    · cases ho : o (.object .queue)
      · exact ⟨_, rfl, by simp [create, ho, notMade], .failed, by simp [after, ho]⟩
      · exact ⟨_, rfl, by simp [create, ho, made], .queue _ (.inl rfl), by simp [after, ho, next]⟩
  | queue r hr =>
    refine .inr ⟨r, ?_⟩
    rcases hr with rfl | rfl
    · cases ho : o (.ref .functor)
      · exact ⟨_, rfl, by simp [create, ho, notMade, initFails, releaseQueue], .failed,
          by simp [after, ho]⟩
      · exact ⟨_, rfl, by simp [create, ho], .queue _ (.inr rfl), by simp [after, ho, next]⟩
    · cases ho : o (.object .functor)
      · exact ⟨_, rfl, by simp [create, ho, notMade, initFails, releaseQueue], .failed,
          by simp [after, ho]⟩
      · exact ⟨_, rfl, by simp [create, ho, made, retainQueue], .functor, by simp [after, ho, next]⟩
  | functor =>
    refine .inr ⟨.holder, ?_⟩
    cases ho : o .holder
    · exact ⟨_, rfl, by simp [create, ho, releaseFunctor, initFails, releaseQueue], .failed,
        by simp [after, ho]⟩
    · exact ⟨_, rfl, by simp [create, ho], .holder, by simp [after, ho, next]⟩
  | holder =>
    refine .inr ⟨.createThread, ?_⟩
    cases ho : o .createThread
    · exact ⟨_, rfl, by simp [create, ho, releaseHolder, releaseFunctor, initFails, releaseQueue],
        .failed, by simp [after, ho]⟩
    · exact ⟨_, rfl, by simp [create, ho], .thread .new .lock rfl (by simp), by simp [after, ho, next]⟩
  | thread wq p he hp =>
    refine .inr ⟨.reference, ?_⟩
    cases ho : o .reference
    · exact ⟨_, rfl, by simp [create, ho, releaseFunctor, initFails, releaseQueue],
        .abandoned wq p he hp, by simp [after, ho]⟩
    · exact ⟨_, rfl, by simp [create, ho, releaseFunctor, initSucceeds, releaseQueue, retainQueue],
        .working _ (.inl rfl) true wq p, by simp [after, ho, next]⟩
  | working pc hpc t wq p => rcases hpc with rfl | rfl <;> simp [Permitted] at hperm
  | ended pc hpc t wq => rcases hpc with rfl | rfl <;> simp [Permitted] at hperm
  | destroyed wq p he => simp [Permitted] at hperm
  | gone => simp [Permitted] at hperm
  | refused => simp [Permitted] at hperm
  | failed => exact .inl ⟨rfl, by simp [create, destroy, stop, callQueue]⟩
  | abandoned wq p he hp => exact .inl ⟨rfl, by simp [create, destroy, stop, callQueue]⟩

/-- The thread goes around its loop, or leaves for good. -/
theorem stage_thread (hs : Stage s) (hr : Runs s) :
    ∃ t, threadProc s = some t ∧ Stage t ∧ t.pc = s.pc := by
  cases hs with
  | thread wq p he hp =>
    exact ⟨_, threadProc_loop rfl hp rfl,
      .thread _ _ ((loop_exit wq p).trans he) (loop_ne_exited he hp), rfl⟩
  | working pc hpc t wq p =>
    by_cases hp : p = .exited
    · subst hp
      exact ⟨_, by simp [threadProc, releaseHolder, releaseFunctor, releaseQueue],
        .ended pc hpc t wq, rfl⟩
    · exact ⟨_, threadProc_loop rfl hp rfl, .working pc hpc t _ _, rfl⟩
  | destroyed wq p he =>
    by_cases hp : p = .exited
    · subst hp
      exact ⟨_, by simp [threadProc, releaseHolder, releaseFunctor, releaseQueue], .gone, rfl⟩
    · exact ⟨_, threadProc_loop rfl hp rfl, .destroyed _ _ ((loop_exit wq p).trans he), rfl⟩
  | abandoned wq p he hp =>
    exact ⟨_, threadProc_loop rfl hp rfl,
      .abandoned _ _ ((loop_exit wq p).trans he) (loop_ne_exited he hp), rfl⟩
  | _ => simp [Runs] at hr

/-- A call of the queue of a worker in use reaches it. -/
theorem stage_callQueue {R : Type} (hs : Stage s) (hu : InUse s) (f : WorkQueue V → R × WorkQueue V) :
    ∃ n wq, s.queue = some (n, wq) ∧
      callQueue f s = some ((f wq).1, { s with queue := some (n, (f wq).2) }) ∧
      Stage { s with queue := some (n, (f wq).2) } := by
  obtain ⟨hw, hpc⟩ := hu
  cases hs with
  | working pc hpc t wq p => exact ⟨2, wq, rfl, rfl, .working pc hpc t _ p⟩
  | ended pc hpc t wq => exact ⟨1, wq, rfl, rfl, .ended pc hpc t _⟩
  | _ => simp at hw hpc

/-- With a flag that is set, the worker goes; the thread keeps the queue until it is over. -/
theorem stage_destroy (hs : Stage s) (hw : s.worker.isSome) (hpc : s.pc = .returned true) :
    ∃ t, destroy s = some t ∧ Stage t ∧ t.pc = .returned true := by
  cases hs with
  | working pc _ t wq p =>
    subst hpc
    exact ⟨_, by simp [destroy, stop, callQueue, releaseQueue], .destroyed wq.setExit p rfl, rfl⟩
  | ended pc _ t wq =>
    subst hpc
    exact ⟨_, by simp [destroy, stop, callQueue, releaseQueue], .gone, rfl⟩
  | _ => simp at hw hpc

theorem stage_push (valid : V → Bool) (hs : Stage s) (hu : InUse s) (c : V) (allocated : Bool) :
    ∃ r t, push valid c allocated s = some (r, t) ∧ Stage t ∧ t.pc = s.pc := by
  unfold push
  split
  · obtain ⟨n, wq, -, hcall, ht⟩ := stage_callQueue hs hu _
    exact ⟨_, _, hcall, ht, rfl⟩
  · exact ⟨_, _, rfl, hs, rfl⟩

theorem stage_detach (hs : Stage s) (hw : s.worker.isSome) (hpc : s.pc = .returned true) :
    ∃ t, detach s = some t ∧ Stage t ∧ t.pc = .joining := by
  cases hs with
  | working pc _ t wq p => exact ⟨_, rfl, .working .joining (.inr rfl) t wq.setExit p, rfl⟩
  | ended pc _ t wq => exact ⟨_, rfl, .ended .joining (.inr rfl) t wq.setExit, rfl⟩
  | _ => simp at hw hpc

theorem stage_join (hs : Stage s) (hpc : s.pc = .joining) :
    ∃ t, join s = some t ∧ Stage t ∧ t.pc = .returned true := by
  cases hs with
  | working pc _ t wq p => exact ⟨_, rfl, .working _ (.inl rfl) false wq p, rfl⟩
  | ended pc _ t wq => exact ⟨_, rfl, .ended _ (.inl rfl) false wq, rfl⟩
  | _ => simp at hpc

/-- Outside of `create`, the owner stays outside, and everything succeeds. -/
theorem stage_use (valid : V → Bool) {a : Act V} (hs : Stage s) (hp : Permitted s a)
    (hc : a ≠ .create) :
    ∃ t, step valid o s a = some t ∧ Stage t ∧
      (t.pc = s.pc ∨ s.pc = .returned true ∧ t.pc = .joining ∨
        s.pc = .joining ∧ t.pc = .returned true) := by
  cases a with
  | create => exact absurd rfl hc
  | thread =>
    obtain ⟨t, ht, hst, hpc⟩ := stage_thread hs hp
    exact ⟨t, ht, hst, .inl hpc⟩
  | push c allocated =>
    obtain ⟨r, t, ht, hst, hpc⟩ := stage_push valid hs hp c allocated
    exact ⟨t, by simp [step, ht], hst, .inl hpc⟩
  | clear =>
    obtain ⟨n, wq, -, hcall, ht⟩ :=
      stage_callQueue hs hp fun wq => ((), { wq with q := [], e := true })
    exact ⟨_, by simp only [step, clear, hcall, Option.map_some], ht, .inl rfl⟩
  | stop =>
    obtain ⟨n, wq, -, hcall, ht⟩ := stage_callQueue hs hp fun wq => (wq.exit, wq.setExit)
    exact ⟨_, by simp only [step, stop, hcall, Option.map_some], ht, .inl rfl⟩
  | detach =>
    obtain ⟨t, ht, hst, hpc⟩ := stage_detach hs hp.1 hp.2
    exact ⟨t, ht, hst, .inr (.inl ⟨hp.2, hpc⟩)⟩
  | join =>
    obtain ⟨t, ht, hst, hpc⟩ := stage_join hs hp.1
    exact ⟨t, ht, hst, .inr (.inr ⟨hp.1, hpc⟩)⟩
  | destroy =>
    obtain ⟨t, ht, hst, hpc⟩ := stage_destroy hs hp.1 hp.2
    exact ⟨t, ht, hst, .inl (hpc.trans hp.2.symm)⟩

/-- A thread that runs when creation has failed keeps running. -/
theorem stage_failed {a : Act V} {t : Sys V} (hs : Stage s) (hpc : s.pc = .failed)
    (hp : Permitted s a) (ht : step valid o s a = some t) : Stage t ∧ t.pc = .failed := by
  by_cases hc : a = .create
  · subst hc
    obtain ⟨-, hnone⟩ | ⟨r, u, hr, -⟩ := stage_create (o := o) hs hp
    · rw [step, hnone] at ht
      cases ht
    · rw [hpc] at hr
      cases hr
  · cases a with
    | create => exact absurd rfl hc
    | thread =>
      obtain ⟨u, hu, hsu, hpcu⟩ := stage_thread hs hp
      obtain rfl := Option.some.inj (hu.symm.trans ht)
      exact ⟨hsu, hpcu.trans hpc⟩
    | _ => simp [Permitted, InUse, hpc] at hp

/-- When `init` has failed after the thread was created, nobody can make it leave its loop. -/
theorem abandoned_stranded (hs : Stage s) (hpc : s.pc = .failed) (ht : s.thread.isSome) :
    Stranded (step valid o) s := by
  have hloop : ∀ t : Sys V, Stage t → t.pc = .failed → t.thread ≠ some .exited := by
    intro t hs hpc
    cases hs with
    | failed => simp
    | abandoned wq p he hp => simpa using hp
    | working pc hpc' | ended pc hpc' => rcases hpc' with rfl | rfl <;> cases hpc
    | _ => cases hpc
  refine ⟨?_, fun as t hp hr => ?_⟩
  · obtain ⟨p, hp⟩ := Option.isSome_iff_exists.mp ht
    exact ⟨p, hp, fun he => hloop s hs hpc (hp.trans (congrArg some he))⟩
  · obtain ⟨hst, hpct⟩ := along_invariant (I := fun s : Sys V => Stage s ∧ s.pc = .failed)
      (fun s a t hs hp ht => stage_failed hs.1 hs.2 hp ht) ⟨hs, hpc⟩ hp hr
    exact hloop t hst hpct

/-- Null is returned only before there is a thread. -/
theorem not_stranded (hs : Stage s) (hpc : s.pc = .returned false) :
    ¬Stranded (step valid o) s := by
  rintro ⟨⟨p, hp, -⟩, -⟩
  cases hs with
  | refused => cases hp
  | working pc hpc' | ended pc hpc' => rcases hpc' with rfl | rfl <;> cases hpc
  | _ => cases hpc

/-- What must have been granted to get there, when creation fails cleanly. -/
def Granted (o : Request → Bool) : Pc → Prop
  | .request (.ref .worker) | .returned false => True
  | .request (.object .worker) => o (.ref .worker) = true
  | .failed => False
  | .request _ | .returned true | .joining => ∀ r, o r = true

theorem granted_after {r : Request} (hc : Clean o) (h : Granted o (.request r)) :
    Granted o (after o r) := by
  by_cases hr : r = .ref .worker ∨ r = .object .worker
  · cases ho : o r with
    | false =>
      rw [after, ho, if_neg Bool.false_ne_true, if_pos hr]
      trivial
    | true =>
      rw [after, if_pos ho]
      rcases hr with rfl | rfl
      · exact ho
      · exact hc h ho
  · -- past the worker, everything was granted
    have hall : ∀ r, o r = true := by
      cases r with
      | ref m => cases m <;> first | exact absurd (.inl rfl) hr | exact h
      | object m => cases m <;> first | exact absurd (.inr rfl) hr | exact h
      | _ => exact h
    rw [after, if_pos (hall r)]
    cases r with
    | ref m => cases m <;> first | exact absurd (.inl rfl) hr | exact hall
    | object m => cases m <;> first | exact absurd (.inr rfl) hr | exact hall
    | _ => exact hall

/-- In runs with a clean failure, or none, every step is sound. -/
theorem stage_sound {a : Act V} (hc : Clean o) (hs : Stage s) (hg : Granted o s.pc)
    (hp : Permitted s a) :
    Sound (step valid o) s a ∧ ∀ t, step valid o s a = some t → Stage t ∧ Granted o t.pc := by
  obtain ⟨t, ht, hst, hgt⟩ : ∃ t, step valid o s a = some t ∧ Stage t ∧ Granted o t.pc := by
    by_cases ha : a = .create
    · subst ha
      obtain ⟨hpc, -⟩ | ⟨r, t, hpc, ht, hst, hpct⟩ := stage_create (o := o) hs hp
      · rw [hpc] at hg
        exact hg.elim
      · rw [hpc] at hg
        exact ⟨t, ht, hst, hpct ▸ granted_after hc hg⟩
    · obtain ⟨t, ht, hst, hpc⟩ := stage_use (o := o) valid hs hp ha
      refine ⟨t, ht, hst, ?_⟩
      rcases hpc with hpc | ⟨hpc, hpct⟩ | ⟨hpc, hpct⟩
      · rwa [hpc]
      · rw [hpc] at hg
        rw [hpct]
        exact hg
      · rw [hpc] at hg
        rw [hpct]
        exact hg
  refine ⟨⟨t, ht, fun hpc => not_stranded hst hpc⟩, fun u hu => ?_⟩
  obtain rfl := Option.some.inj (ht.symm.trans hu)
  exact ⟨hst, hgt⟩

/-- One request in `create`. -/
theorem always_create {r : Request} (h : AlwaysSound (step valid o) s) (hs : Stage s)
    (hpc : s.pc = .request r) : ∃ t, Stage t ∧ t.pc = after o r ∧ AlwaysSound (step valid o) t := by
  have hp : Permitted s (.create : Act V) := by simp [Permitted, hpc]
  obtain ⟨hfail, -⟩ | ⟨r', t, hr, ht, hst, hpct⟩ := stage_create (o := o) hs hp
  · rw [hpc] at hfail
    cases hfail
  · obtain rfl : r = r' := by
      rw [hpc] at hr
      injection hr
    refine ⟨t, hst, hpct, fun as has => ?_⟩
    have hall := h (.create :: as) ⟨hp, fun u hu => by
      obtain rfl := Option.some.inj (ht.symm.trans hu)
      exact has⟩
    exact hall.2 t ht

/-- The destructor of a worker without a queue is not sound. -/
theorem not_always_failed (hs : Stage s) (hpc : s.pc = .failed) : ¬AlwaysSound (step valid o) s := by
  intro h
  have hp : Permitted s (.create : Act V) := by simp [Permitted, hpc]
  obtain ⟨t, ht, -⟩ := (h [.create] ⟨hp, fun _ _ => trivial⟩).1
  obtain ⟨-, hnone⟩ | ⟨r, u, hr, -⟩ := stage_create (o := o) hs hp
  · rw [step, hnone] at ht
    cases ht
  · rw [hpc] at hr
    cases hr

/-- What is requested once there is a worker must be granted. -/
theorem always_granted {r : Request} (h : AlwaysSound (step valid o) s) (hs : Stage s)
    (hpc : s.pc = .request r) (hr : ¬(r = .ref .worker ∨ r = .object .worker)) : o r = true := by
  obtain ⟨t, hst, hpct, ht⟩ := always_create h hs hpc
  by_contra ho
  rw [after, if_neg ho, if_neg hr] at hpct
  exact not_always_failed hst hpct ht

theorem always_next {r r' : Request} (h : AlwaysSound (step valid o) s) (hs : Stage s)
    (hpc : s.pc = .request r) (ho : o r = true) (hnext : next r = some r') :
    ∃ t, AlwaysSound (step valid o) t ∧ Stage t ∧ t.pc = .request r' := by
  obtain ⟨t, hst, hpct, ht⟩ := always_create h hs hpc
  rw [after, if_pos ho, hnext, Option.elim_some] at hpct
  exact ⟨t, ht, hst, hpct⟩

theorem clean_of_always (h : AlwaysSound (step valid o) start) : Clean o := by
  intro hwr hwo
  obtain ⟨s₁, h₁, hs₁, hp₁⟩ := always_next h (.begin _ (.inl rfl)) rfl hwr rfl
  obtain ⟨s₂, h₂, hs₂, hp₂⟩ := always_next h₁ hs₁ hp₁ hwo rfl
  have hqr := always_granted h₂ hs₂ hp₂ (by decide)
  obtain ⟨s₃, h₃, hs₃, hp₃⟩ := always_next h₂ hs₂ hp₂ hqr rfl
  have hqo := always_granted h₃ hs₃ hp₃ (by decide)
  obtain ⟨s₄, h₄, hs₄, hp₄⟩ := always_next h₃ hs₃ hp₃ hqo rfl
  have hfr := always_granted h₄ hs₄ hp₄ (by decide)
  obtain ⟨s₅, h₅, hs₅, hp₅⟩ := always_next h₄ hs₄ hp₄ hfr rfl
  have hfo := always_granted h₅ hs₅ hp₅ (by decide)
  obtain ⟨s₆, h₆, hs₆, hp₆⟩ := always_next h₅ hs₅ hp₅ hfo rfl
  have hh := always_granted h₆ hs₆ hp₆ (by decide)
  obtain ⟨s₇, h₇, hs₇, hp₇⟩ := always_next h₆ hs₆ hp₆ hh rfl
  have ht := always_granted h₇ hs₇ hp₇ (by decide)
  obtain ⟨s₈, h₈, hs₈, hp₈⟩ := always_next h₇ hs₇ hp₇ ht rfl
  have hr := always_granted h₈ hs₈ hp₈ (by decide)
  rintro (m | m | _ | _ | _)
  · cases m <;> assumption
  · cases m <;> assumption
  · exact hh
  · exact ht
  · exact hr

end Steps

/-- In every run of a worker, from `create` to its destruction and the end of its thread,
nothing null or gone is touched, and no thread is stranded when null was returned, exactly
when nothing that `create` requests fails or the allocation of the worker does. -/
theorem creates_iff {V : Type} (valid : V → Bool) (o : Request → Bool) :
    AlwaysSound (step valid o) start ↔ Clean o := by
  refine ⟨clean_of_always, fun hc as hp => ?_⟩
  refine along_of_invariant (I := fun s : Sys V => Stage s ∧ Granted o s.pc)
    (fun s a hs hp => stage_sound hc hs.1 hs.2 hp) ?_ hp
  exact ⟨.begin _ (.inl rfl), trivial⟩

/-- The thread was created but could not be referenced: it runs for good, and the destructor
of the worker calls a null `_queue`. -/
theorem reference_fails :
    let o : Request → Bool := fun r => r ≠ .reference
    ¬AlwaysSound (interfaceWorker (I := Unit) o) start ∧
      ¬AlwaysSound (simpleWorker (F := Unit) o) start ∧
      ∃ t, run (simpleWorker (F := Unit) o) start (List.replicate 9 .create) = some t ∧
        Stranded (simpleWorker o) t ∧ simpleWorker o t .create = none := by
  have hnot : ¬Clean fun r : Request => r ≠ .reference := fun hc =>
    Bool.false_ne_true (hc rfl rfl .reference)
  refine ⟨fun h => hnot (clean_of_always h), fun h => hnot (clean_of_always h), _, rfl, ?_, rfl⟩
  exact abandoned_stranded (.abandoned .new .lock rfl (by decide)) rfl rfl

end KernelLib.WorkerCreate
