import KernelLib.ScopedLockers
import KernelLib.WorkQueueThreads

/-!
# The statements under the mutex of a work queue

Any number of threads call `enque`, `emptyEnque`, `clear`, `deque` and `goExit`
of one `WorkQueue`, and other threads may run between any two statements,
also between those under the mutex. Taking and releasing the `KMUTEX` are
steps of their own. Whenever nobody has the mutex, the queue, the event, the
flag, the threads and the results of their calls are what they would be if
each section under the mutex were one step; and a thread that has the mutex
is never kept from releasing it.
-/

namespace KernelLib.WorkQueueStatements

open Function StepRuns GuardedSections ScopedLockers
open WorkQueueSections (WorkQueue DequeResult pushBack popFront)
open WorkQueueThreads (Ret Call)

/-- Where a thread is. -/
inductive Pc (V : Type) where
  /-- Outside of the calls. -/
  | idle
  /-- In `enque`, before the section. -/
  | enque (v : V)
  /-- In `enque`, after the section. -/
  | enqued (empty ok : Bool)
  /-- In `emptyEnque`, before the section. -/
  | emptyEnque (v : V)
  /-- In `emptyEnque`, after the section. -/
  | emptyEnqued (ok : Bool)
  /-- In `clear`, before the section. -/
  | clear
  /-- In `clear`, after the section. -/
  | cleared
  /-- In `deque`, before `_lock.lock()`. -/
  | deque
  /-- In `deque`, in the wait. -/
  | wait
  /-- In `deque`, before the test of `_exit`. -/
  | test
  /-- In `deque`, after the section that called `pop_front`. -/
  | dequed (rt : DequeResult) (o : Option V)
  /-- In `goExit`, before `_exit` is read. -/
  | goExit
  /-- In `goExit`, before `_exit` is set. -/
  | setExit (rt : Bool)
  deriving DecidableEq

/-- A thread: where it is, and what its calls have returned. -/
structure Place (V : Type) where
  /-- Where it is. -/
  pc : Pc V
  /-- The results of its calls, in order. -/
  returned : List (Ret V)
  deriving DecidableEq

/-- What happens next in a thread. -/
inductive Choice (V : Type) where
  /-- It makes a call. -/
  | call (c : Call V)
  /-- It goes on; the flag says whether an allocation succeeds. -/
  | go (allocated : Bool)

/-- The queue object and the threads. -/
structure Sys (T V : Type) where
  /-- The members of `WorkQueue`, less its mutex. -/
  wq : WorkQueue V
  /-- The threads. -/
  place : T → Place V

section Sections

variable {T V : Type} [DecidableEq T]

/-- A thread goes on elsewhere. -/
def Place.at (p : Place V) (pc : Pc V) : Place V := { p with pc := pc }

/-- A call returns. -/
def Place.ret (p : Place V) (r : Ret V) : Place V := ⟨.idle, p.returned ++ [r]⟩

/-- The first place in a call. -/
def begin : Call V → Pc V
  | .enque v => .enque v
  | .emptyEnque v => .emptyEnque v
  | .clear => .clear
  | .deque => .deque
  | .goExit => .goExit

/-- The section of `emptyEnque`. -/
def emptyEnqueLocked (wq : WorkQueue V) (v : V) (allocated : Bool) : WorkQueue V × Bool :=
  ({ wq with q := (pushBack [] v allocated).2 }, (pushBack [] v allocated).1)

/-- The section of `clear`. -/
def clearLocked (wq : WorkQueue V) : WorkQueue V := { wq with q := [] }

/-- `_e.notify()`, when the condition holds. -/
def notify (wq : WorkQueue V) (b : Bool) : WorkQueue V := if b then { wq with e := true } else wq

/-- What a thread does next, with each section as one step. -/
def next (wq : WorkQueue V) (p : Place V) : Choice V → Option (WorkQueue V × Place V)
  | .call c =>
    match p.pc with
    | .idle => some (wq, p.at (begin c))
    | _ => none
  | .go allocated =>
    match p.pc with
    | .idle => none
    | .enque v =>
      let x := wq.enqueLocked v allocated
      some (x.1, p.at (.enqued x.2.1 x.2.2))
    | .enqued empty ok => some (wq.enqueNotify empty ok, p.ret (.added ok))
    | .emptyEnque v =>
      let x := emptyEnqueLocked wq v allocated
      some (x.1, p.at (.emptyEnqued x.2))
    | .emptyEnqued ok => some (notify wq ok, p.ret (.added ok))
    | .clear => some (clearLocked wq, p.at .cleared)
    | .cleared => some (notify wq true, p.ret .cleared)
    | .deque =>
      match wq.dequeLocked with
      | (wq, .wait) => some (wq, p.at .wait)
      | (wq, .returns rt o) => some (wq, p.at (.dequed rt o))
    | .wait => some (wq.waited, p.at .test)
    | .test =>
      if wq.testExit then some (wq, p.ret (.dequed .exit none)) else some (wq, p.at .deque)
    | .dequed rt o => some (wq, p.ret (.dequed rt o))
    | .goExit => some (wq, p.at (.setExit wq.exit))
    | .setExit rt => some (wq.setExit, p.ret (.exit rt))

/-- A thread goes on, with each section as one step. -/
def stepSections (s : Sys T V) (x : T × Choice V) : Option (Sys T V) :=
  (next s.wq (s.place x.1) x.2).map fun y => ⟨y.1, update s.place x.1 y.2⟩

end Sections

section Statements

variable {T V : Type}

/-- The local variables of the sections. -/
structure Locals (V : Type) where
  /-- `empty` in `enque`, and what `_q.empty()` returns in `deque`. -/
  empty : Bool
  /-- `ok`, and `v` in `deque`. -/
  ok : Bool
  /-- `o` in `deque`. -/
  o : Option V
  /-- The queue `ept`. -/
  ept : List V

/-- Before the first statement. -/
def Locals.start : Locals V := ⟨false, false, none, []⟩

/-- `_q.empty()`. -/
def isEmpty : Statement (List V) (Locals V) := fun (q, l) => some (q, { l with empty := q.isEmpty })

/-- `ok = _q.push_back(v)`. -/
def push (v : V) (allocated : Bool) : Statement (List V) (Locals V) := fun (q, l) =>
  some ((pushBack q v allocated).2, { l with ok := (pushBack q v allocated).1 })

/-- `_q.swap(ept)`. -/
def swapEpt : Statement (List V) (Locals V) := fun (q, l) => some (l.ept, { l with ept := q })

/-- `v = _q.pop_front(o)`, which is not reached when the queue was empty. -/
def pop : Statement (List V) (Locals V) := fun (q, l) =>
  if l.empty then some (q, l)
  else
    match popFront q with
    | none => some (q, { l with ok := false })
    | some (v, q) => some (q, { l with ok := true, o := some v })

/-- The section that a thread is in front of. -/
def enter (p : Place V) : Choice V → Option (Locals V × List (Statement (List V) (Locals V)))
  | .call _ => none
  | .go allocated =>
    match p.pc with
    | .enque v => some (.start, [isEmpty, push v allocated])
    | .emptyEnque v => some (.start, [swapEpt, push v allocated])
    | .clear => some (.start, [swapEpt])
    | .deque => some (.start, [isEmpty, pop])
    | _ => none

/-- Where a thread goes on after a section. -/
def leave (p : Place V) (l : Locals V) : Place V :=
  match p.pc with
  | .enque _ => p.at (.enqued l.empty l.ok)
  | .emptyEnque _ => p.at (.emptyEnqued l.ok)
  | .clear => p.at .cleared
  | .deque => p.at (if l.empty then .wait else .dequed (if l.ok then .ok else .fail) l.o)
  | _ => p

/-- `_e` and `_exit`, which are not guarded. -/
structure Flags where
  /-- `_e`. -/
  e : Bool
  /-- `_exit`. -/
  exit : Bool
  deriving DecidableEq

/-- What a thread does outside of the sections. -/
def outside (p : Place V) (a : Choice V) (f : Flags) : Option (Place V × Flags) :=
  match a with
  | .call c =>
    match p.pc with
    | .idle => some (p.at (begin c), f)
    | _ => none
  | .go _ =>
    match p.pc with
    | .enqued empty ok => some (p.ret (.added ok), if empty && ok then { f with e := true } else f)
    | .emptyEnqued ok => some (p.ret (.added ok), if ok then { f with e := true } else f)
    | .cleared => some (p.ret .cleared, { f with e := true })
    | .wait => some (p.at .test, { f with e := false })
    | .test => some (if f.exit then p.ret (.dequed .exit none) else p.at .deque, f)
    | .dequed rt o => some (p.ret (.dequed rt o), f)
    | .goExit => some (p.at (.setExit f.exit), f)
    | .setExit rt => some (p.ret (.exit rt), { f with exit := true })
    | _ => none

/-- The methods, statement by statement. -/
def methods : Program (List V) Flags (Place V) (Locals V) (Choice V) := ⟨enter, leave, outside⟩

/-- The queue is guarded by the mutex, and the event and the flag are not. -/
def Sys.whole (s : Sys T V) : Whole T (List V) Flags (Place V) :=
  ⟨s.wq.q, ⟨s.wq.e, s.wq.exit⟩, s.place⟩

/-- A thread goes on, statement by statement, with `_lock` a `KMUTEX`. -/
def stepStatements [DecidableEq T] : Split (kmutex : Lock T) (List V) Flags (Place V) (Locals V) →
    T × Choice V → Option (Split (kmutex : Lock T) (List V) Flags (Place V) (Locals V)) :=
  stepSplit methods

/-- Nobody has the mutex. -/
def Sys.atRest [DecidableEq T] (s : Sys T V) :
    Split (kmutex : Lock T) (List V) Flags (Place V) (Locals V) := s.whole.rest kmutex (Locals V)

end Statements

section Atomic

variable {T V : Type} [DecidableEq T]

/-- The statements of a section, one after the other, do what the section does. -/
theorem stepWhole_eq (s : Sys T V) (x : T × Choice V) :
    stepWhole methods s.whole x = (stepSections s x).map Sys.whole := by
  obtain ⟨t, a⟩ := x
  obtain ⟨⟨q, e, exit⟩, place⟩ := s
  cases a with
  | call c =>
    cases hp : (place t).pc <;>
      simp [stepWhole, stepSections, methods, enter, outside, next, Sys.whole, hp]
  | go allocated =>
    cases hp : (place t).pc with
    | idle => simp [stepWhole, stepSections, methods, enter, outside, next, Sys.whole, hp]
    | enque v =>
      simp [stepWhole, stepSections, methods, enter, leave, next, Sys.whole, hp, exec, isEmpty, push,
        WorkQueue.enqueLocked]
    | enqued empty ok =>
      cases empty <;> cases ok <;>
        simp [stepWhole, stepSections, methods, enter, outside, next, Sys.whole, hp,
          WorkQueue.enqueNotify]
    | emptyEnque v =>
      simp [stepWhole, stepSections, methods, enter, leave, next, Sys.whole, hp, exec, swapEpt, push,
        emptyEnqueLocked, Locals.start]
    | emptyEnqued ok =>
      cases ok <;> simp [stepWhole, stepSections, methods, enter, outside, next, Sys.whole, hp, notify]
    | clear =>
      simp [stepWhole, stepSections, methods, enter, leave, next, Sys.whole, hp, exec, swapEpt,
        clearLocked, Locals.start]
    | cleared => simp [stepWhole, stepSections, methods, enter, outside, next, Sys.whole, hp, notify]
    | deque =>
      cases q <;>
        simp [stepWhole, stepSections, methods, enter, leave, next, Sys.whole, hp, exec, isEmpty, pop,
          popFront, WorkQueue.dequeLocked, Locals.start]
    | wait =>
      simp [stepWhole, stepSections, methods, enter, outside, next, Sys.whole, hp, WorkQueue.waited]
    | test =>
      cases exit <;>
        simp [stepWhole, stepSections, methods, enter, outside, next, Sys.whole, hp,
          WorkQueue.testExit]
    | dequed rt o => simp [stepWhole, stepSections, methods, enter, outside, next, Sys.whole, hp]
    | goExit => simp [stepWhole, stepSections, methods, enter, outside, next, Sys.whole, hp]
    | setExit rt =>
      simp [stepWhole, stepSections, methods, enter, outside, next, Sys.whole, hp, WorkQueue.setExit]

omit [DecidableEq T] in
theorem whole_injective : Function.Injective (Sys.whole : Sys T V → _) := by
  rintro ⟨⟨q, e, exit⟩, place⟩ ⟨⟨q', e', exit'⟩, place'⟩ h
  simp only [Sys.whole, Whole.mk.injEq, Flags.mk.injEq] at h
  obtain ⟨rfl, ⟨rfl, rfl⟩, rfl⟩ := h
  rfl

/-- Both programs whose sections are one step reach the same states. -/
theorem reachable_whole {s : Sys T V} {c : Whole T (List V) Flags (Place V)} :
    Reachable (stepWhole methods) s.whole c ↔ ∃ s', Reachable stepSections s s' ∧ s'.whole = c := by
  constructor
  · rintro ⟨as, hr⟩
    rw [run_map stepWhole_eq] at hr
    obtain ⟨s', hs, he⟩ := Option.map_eq_some_iff.mp hr
    exact ⟨s', ⟨as, hs⟩, he⟩
  · rintro ⟨s', ⟨as, hs⟩, rfl⟩
    exact ⟨as, by rw [run_map stepWhole_eq, hs, Option.map_some]⟩

omit [DecidableEq T] in
/-- No statement of a section fails. -/
theorem exec_enter {p : Place V} {a : Choice V} {l : Locals V}
    {body : List (Statement (List V) (Locals V))} (h : enter p a = some (l, body)) (q : List V) :
    exec body (q, l) ≠ none := by
  have hpop : ∀ x : List V × Locals V, pop x ≠ none := by
    rintro ⟨q, l⟩
    simp only [pop]
    split_ifs
    · simp
    · cases popFront q <;> simp
  cases a with
  | call c => cases h
  | go allocated =>
    cases hp : p.pc <;> simp only [enter, hp, Option.some.injEq, Prod.mk.injEq, reduceCtorEq] at h
    case deque =>
      obtain ⟨rfl, rfl⟩ := h
      simpa [exec, isEmpty] using hpop _
    all_goals
      obtain ⟨rfl, rfl⟩ := h
      simp [exec, isEmpty, push, swapEpt]

/-- The mutex makes the sections of `WorkQueue` atomic: whenever nobody has it, statements reach
the states that whole sections reach, at most one thread at a time has it, and that thread always
gets on. -/
theorem sections_atomic (s : Sys T V) :
    (∀ s' : Sys T V, Reachable stepStatements s.atRest s'.atRest ↔ Reachable stepSections s s') ∧
      ∀ f, Reachable stepStatements s.atRest f →
        (∀ t u, (f.inside t).isSome → (f.inside u).isSome → t = u) ∧
          ∀ t, (f.inside t).isSome → ∀ a, ∃ f', stepStatements f (t, a) = some f' := by
  refine ⟨fun s' => ?_, fun f hf => ⟨fun t u => inside_unique kmutex_exclusive hf, fun t ht => ?_⟩⟩
  · refine (reachable_rest_iff kmutex_exclusive s.whole s'.whole).trans (reachable_whole.trans ?_)
    exact ⟨fun ⟨s'', hs, he⟩ => whole_injective he ▸ hs, fun hs => ⟨s', hs, rfl⟩⟩
  · refine (inside_moves kmutex_exclusive hf ht).resolve_left fun hfails => ?_
    obtain ⟨c, a, l, body, -, he, hx⟩ := whole_fails kmutex_exclusive hf hfails
    exact exec_enter he c.guarded hx

end Atomic

end KernelLib.WorkQueueStatements
