import Mathlib.Logic.Function.Basic
import KernelLib.StepRuns
import KernelLib.WorkQueueSections

/-!
# Draining the work queue before the worker exits

One worker thread runs the loop of `simple_worker::init` (the loop of
`interface_worker::init` differs only in what it does with an element),
any number of producers call `enque`, and one thread calls `goExit`. The
scheduler chooses every next atomic step. Positions in the sequence of
accepted elements serve as tickets, so that equal elements stay apart.
-/

namespace KernelLib.WorkQueueDrain

open WorkQueueSections StepRuns

/-- Where the worker thread stands in its loop. -/
inductive WorkerAt (T : Type*) where
  /-- About to take the mutex in `deque`, on entry or after the exit test. -/
  | lock
  /-- Unlocked after it found the queue empty; inside `wait_for`. -/
  | wait
  /-- The wait is over; about to read `_exit`. -/
  | test
  /-- `deque` returned `E_OK` with this element; about to call it. -/
  | call (o : T)
  /-- `deque` returned `E_FALSE`; about to go around the loop. -/
  | failed
  /-- `deque` returned `E_EXIT` and the loop was left. -/
  | exited
  deriving DecidableEq, Repr

/-- Where a producer stands: outside `enque`, or past its critical section
with the two locals and the ticket of an added element. -/
inductive ProducerAt where
  | idle
  | unlocked (empty ok : Bool) (ticket : ℕ)
  deriving DecidableEq, Repr

/-- Where the caller of `goExit` stands. -/
inductive GoExitAt where
  | idle
  | read (rt : Bool)
  | returned (rt : Bool)
  deriving DecidableEq, Repr

/-- All threads, the queue they share, and the history of the run. -/
structure Sys (P T : Type*) where
  /-- The shared queue. -/
  wq : WorkQueue T
  /-- The worker thread. -/
  worker : WorkerAt T
  /-- Every producer thread. -/
  producer : P → ProducerAt
  /-- The thread that calls `goExit`. -/
  goExit : GoExitAt
  /-- Every element an `enque` added, in the order of the critical sections. -/
  accepted : List T
  /-- Every element `deque` handed out, in order. -/
  delivered : List T
  /-- Tickets of the elements whose `enque` has returned true. -/
  returned : List ℕ
  /-- The tickets of `returned` at the moment `goExit` was called. -/
  before : List ℕ

variable {P T : Type*}

/-- No thread has taken a step. -/
def Sys.init : Sys P T := ⟨.new, .lock, fun _ => .idle, .idle, [], [], [], []⟩

/-- The scheduler's choices. -/
inductive Act (P T : Type*) where
  /-- The worker's next atomic step; its wait may end at any moment. -/
  | worker
  /-- A producer enters `enque` and runs the section under the mutex. -/
  | enque (p : P) (v : T) (allocated : Bool)
  /-- A producer sets the event when it has to and returns from `enque`. -/
  | enqueReturn (p : P)
  /-- `goExit` is called and reads the flag. -/
  | goExitCall
  /-- `goExit` sets the flag. -/
  | goExitSet
  deriving DecidableEq, Repr

/-- The worker's next atomic step. -/
def workerStep (s : Sys P T) : Option (Sys P T) :=
  match s.worker with
  | .lock =>
    match s.wq.dequeLocked with
    | (wq, .wait) => some { s with wq := wq, worker := .wait }
    | (wq, .returns .ok (some v)) =>
      some { s with wq := wq, worker := .call v, delivered := s.delivered ++ [v] }
    | (wq, .returns _ _) => some { s with wq := wq, worker := .failed }
  | .wait => some { s with wq := s.wq.waited, worker := .test }
  | .test => some { s with worker := if s.wq.testExit then .exited else .lock }
  | .call _ => some { s with worker := .lock }
  | .failed => some { s with worker := .lock }
  | .exited => none

/-- The ticket's element has been handed out. -/
def Delivered (s : Sys P T) (i : ℕ) : Prop :=
  ∃ v, s.accepted[i]? = some v ∧ s.delivered[i]? = some v

/-- Once the worker has left its loop, every element whose `enque` returned
true before `goExit` was called has been handed out. -/
def Drained (s : Sys P T) : Prop := s.worker = .exited → ∀ i ∈ s.before, Delivered s i

/-- The worker found the queue empty and has not tested the flag since. -/
def InWait (s : Sys P T) : Prop := s.worker = .wait ∨ s.worker = .test

/-- What every run keeps about the history. -/
structure History (s : Sys P T) : Prop where
  /-- Accepted elements are handed out in order and wait in the queue. -/
  split : s.accepted = s.delivered ++ s.wq.q
  /-- A returned ticket names an accepted element. -/
  returned_lt : ∀ i ∈ s.returned, i < s.accepted.length
  /-- So does a ticket that `goExit` found returned. -/
  before_lt : ∀ i ∈ s.before, i < s.accepted.length
  /-- So does the ticket of a producer that is about to return true. -/
  ticket_lt : ∀ p empty ticket, s.producer p = .unlocked empty true ticket →
    ticket < s.accepted.length
  /-- The flag is only up once `goExit` has set it. -/
  exit_set : s.wq.exit = true → ∃ rt, s.goExit = .returned rt
  /-- The worker leaves its loop only on the flag. -/
  exited : s.worker = .exited → s.wq.exit = true

/-- Nothing has happened yet. -/
theorem history_init : History (Sys.init : Sys P T) where
  split := rfl
  returned_lt := by simp [Sys.init]
  before_lt := by simp [Sys.init]
  ticket_lt := by simp [Sys.init]
  exit_set := by simp [Sys.init, WorkQueue.new]
  exited := by simp [Sys.init]

/-- Everything the worker's next step can do. -/
theorem workerStep_cases {s t : Sys P T} (h : workerStep s = some t) :
    (s.worker = .lock ∧ s.wq.q = [] ∧ t = { s with worker := .wait }) ∨
    (∃ v q, s.worker = .lock ∧ s.wq.q = v :: q ∧
      t = { s with wq := { s.wq with q := q }, worker := .call v,
                   delivered := s.delivered ++ [v] }) ∨
    (s.worker = .wait ∧ t = { s with wq := s.wq.waited, worker := .test }) ∨
    (s.worker = .test ∧ s.wq.exit = true ∧ t = { s with worker := .exited }) ∨
    (s.worker = .test ∧ s.wq.exit = false ∧ t = { s with worker := .lock }) ∨
    (((∃ v, s.worker = .call v) ∨ s.worker = .failed) ∧ t = { s with worker := .lock }) := by
  unfold workerStep at h
  cases hw : s.worker with
  | lock =>
    cases hq : s.wq.q with
    | nil =>
      rw [hw, dequeLocked_nil hq] at h
      exact .inl ⟨rfl, rfl, (Option.some.inj h).symm⟩
    | cons v q =>
      rw [hw, dequeLocked_cons hq] at h
      exact .inr (.inl ⟨v, q, rfl, rfl, (Option.some.inj h).symm⟩)
  | wait =>
    rw [hw] at h
    exact .inr (.inr (.inl ⟨rfl, (Option.some.inj h).symm⟩))
  | test =>
    rw [hw] at h
    have ht := (Option.some.inj h).symm
    cases he : s.wq.exit with
    | true => exact .inr (.inr (.inr (.inl ⟨rfl, rfl, by simpa [WorkQueue.testExit, he] using ht⟩)))
    | false =>
      exact .inr (.inr (.inr (.inr (.inl ⟨rfl, rfl, by simpa [WorkQueue.testExit, he] using ht⟩))))
  | call v =>
    rw [hw] at h
    exact .inr (.inr (.inr (.inr (.inr ⟨.inl ⟨v, rfl⟩, (Option.some.inj h).symm⟩))))
  | failed =>
    rw [hw] at h
    exact .inr (.inr (.inr (.inr (.inr ⟨.inr rfl, (Option.some.inj h).symm⟩))))
  | exited =>
    rw [hw] at h
    cases h

/-- The worker's steps keep the history: handing out moves the front of the
queue to the end of what was delivered, and the flag is only read. -/
theorem history_worker {s t : Sys P T} (hs : History s) (h : workerStep s = some t) :
    History t := by
  rcases workerStep_cases h with ⟨-, -, rfl⟩ | ⟨v, q, -, hq, rfl⟩ | ⟨-, rfl⟩ | ⟨-, he, rfl⟩ |
    ⟨-, -, rfl⟩ | ⟨-, rfl⟩
  · exact { hs with exited := by simp }
  · exact { hs with
      split := by simpa [hq] using hs.split
      exited := by simp }
  · exact { hs with exited := by simp }
  · exact { hs with exited := fun _ => he }
  · exact { hs with exited := by simp }
  · exact { hs with exited := by simp }

/-- The guard was missed: the flag is up, an element whose `enque` returned
before the call is still queued, and the worker will not look again. -/
def Late (s : Sys P T) : Prop :=
  s.wq.exit = true ∧ (InWait s ∨ s.worker = .exited) ∧ ∃ i ∈ s.before, s.delivered.length ≤ i

/-- A ticket is delivered when the handed-out elements reach past it. -/
theorem delivered_iff {s : Sys P T} (hs : History s) (i : ℕ) :
    Delivered s i ↔ i < s.delivered.length := by
  constructor
  · rintro ⟨v, -, hv⟩
    exact (List.getElem?_eq_some_iff.mp hv).1
  · intro hd
    refine ⟨s.delivered[i], ?_, List.getElem?_eq_getElem hd⟩
    rw [hs.split, List.getElem?_append_left hd, List.getElem?_eq_getElem hd]

/-- A worker that has left its loop has drained the queue unless it was late. -/
theorem drained_iff_not_late {s : Sys P T} (hs : History s) (hw : s.worker = .exited) :
    Drained s ↔ ¬Late s := by
  constructor
  · rintro hd ⟨-, -, i, hi, hle⟩
    have hlt := (delivered_iff hs i).mp (hd hw i hi)
    omega
  · intro hl _ i hi
    refine (delivered_iff hs i).mpr ?_
    by_contra hn
    exact hl ⟨hs.exited hw, .inr hw, i, hi, by omega⟩

/-- Once late, the worker has only the exit test ahead of it. -/
theorem late_worker {s t : Sys P T} (hl : Late s) (h : workerStep s = some t) : Late t := by
  obtain ⟨he, hw, hi⟩ := hl
  rcases workerStep_cases h with ⟨hp, -, rfl⟩ | ⟨v, q, hp, -, rfl⟩ | ⟨hp, rfl⟩ | ⟨hp, -, rfl⟩ |
    ⟨hp, hf, rfl⟩ | ⟨hp, rfl⟩
  · simp [InWait, hp] at hw
  · simp [InWait, hp] at hw
  · exact ⟨he, .inl (.inr rfl), hi⟩
  · exact ⟨he, .inr rfl, hi⟩
  · rw [he] at hf
    cases hf
  · rcases hp with ⟨v, hp⟩ | hp <;> simp [InWait, hp] at hw

/-- The worker enters its wait only with everything accepted handed out, so
it is not late when it was not late before. -/
theorem not_late_worker {s t : Sys P T} (hs : History s) (hn : ¬Late s)
    (h : workerStep s = some t) : ¬Late t := by
  rintro ⟨he, hw, i, hi, hle⟩
  rcases workerStep_cases h with ⟨-, hq, rfl⟩ | ⟨v, q, -, -, rfl⟩ | ⟨hp, rfl⟩ | ⟨hp, -, rfl⟩ |
    ⟨-, -, rfl⟩ | ⟨-, rfl⟩
  · have hlt := hs.before_lt i hi
    rw [hs.split, hq, List.append_nil] at hlt
    exact absurd hlt (by simpa using hle)
  · simp [InWait] at hw
  · exact hn ⟨he, .inl (.inl hp), i, hi, hle⟩
  · exact hn ⟨he, .inl (.inr hp), i, hi, hle⟩
  · simp [InWait] at hw
  · simp [InWait] at hw

variable [DecidableEq P]

/-- One atomic step of the thread the scheduler chose. -/
def step (s : Sys P T) : Act P T → Option (Sys P T)
  | .worker => workerStep s
  | .enque p v allocated =>
    match s.producer p with
    | .idle =>
      let r := s.wq.enqueLocked v allocated
      some { s with
        wq := r.1
        producer := Function.update s.producer p (.unlocked r.2.1 r.2.2 s.accepted.length)
        accepted := if r.2.2 then s.accepted ++ [v] else s.accepted }
    | .unlocked .. => none
  | .enqueReturn p =>
    match s.producer p with
    | .idle => none
    | .unlocked empty ok ticket =>
      some { s with
        wq := s.wq.enqueNotify empty ok
        producer := Function.update s.producer p .idle
        returned := if ok then s.returned ++ [ticket] else s.returned }
  | .goExitCall =>
    match s.goExit with
    | .idle => some { s with goExit := .read s.wq.exit, before := s.returned }
    | _ => none
  | .goExitSet =>
    match s.goExit with
    | .read rt => some { s with wq := s.wq.setExit, goExit := .returned rt }
    | _ => none

/-- The condition on `goExit`: it does not set the flag while the worker is
between its emptiness test and its test of the flag and the queue holds an
element whose `enque` returned before `goExit` was called. -/
def SetsExitInTime (s : Sys P T) : Act P T → Prop
  | .goExitSet => InWait s → ∀ i ∈ s.before, i < s.delivered.length
  | _ => True

/-- A critical section of `enque` starts outside `enque`. -/
theorem step_enque {s t : Sys P T} {p : P} {v : T} {allocated : Bool}
    (h : step s (.enque p v allocated) = some t) :
    t = { s with
      wq := (s.wq.enqueLocked v allocated).1
      producer := Function.update s.producer p
        (.unlocked s.wq.q.isEmpty (s.wq.enqueLocked v allocated).2.2 s.accepted.length)
      accepted := if (s.wq.enqueLocked v allocated).2.2 then s.accepted ++ [v]
        else s.accepted } := by
  simp only [step] at h
  split at h
  · exact (Option.some.inj h).symm
  · cases h

/-- A return from `enque` ends a call that was past its critical section. -/
theorem step_enqueReturn {s t : Sys P T} {p : P} (h : step s (.enqueReturn p) = some t) :
    ∃ empty ok ticket, s.producer p = .unlocked empty ok ticket ∧
      t = { s with
        wq := s.wq.enqueNotify empty ok
        producer := Function.update s.producer p .idle
        returned := if ok then s.returned ++ [ticket] else s.returned } := by
  simp only [step] at h
  split at h
  · cases h
  · rename_i empty ok ticket hp
    exact ⟨empty, ok, ticket, hp, (Option.some.inj h).symm⟩

/-- `goExit` is called once. -/
theorem step_goExitCall {s t : Sys P T} (h : step s .goExitCall = some t) :
    s.goExit = .idle ∧ t = { s with goExit := .read s.wq.exit, before := s.returned } := by
  simp only [step] at h
  split at h
  · rename_i hg
    exact ⟨hg, (Option.some.inj h).symm⟩
  · cases h

/-- `goExit` sets the flag after it has read it. -/
theorem step_goExitSet {s t : Sys P T} (h : step s .goExitSet = some t) :
    ∃ rt, t = { s with wq := s.wq.setExit, goExit := .returned rt } := by
  simp only [step] at h
  split at h
  · rename_i rt _
    exact ⟨rt, (Option.some.inj h).symm⟩
  · cases h

/-- Adding an element lengthens the accepted elements and the queue alike. -/
theorem history_enque {s t : Sys P T} {p : P} {v : T} {allocated : Bool} (hs : History s)
    (h : step s (.enque p v allocated) = some t) : History t := by
  rw [step_enque h]
  cases allocated with
  | false =>
    refine { hs with ticket_lt := ?_ }
    intro p' empty ticket hp'
    by_cases hpp : p' = p
    · subst hpp
      simp [WorkQueue.enqueLocked, pushBack] at hp'
    · exact hs.ticket_lt p' empty ticket (by simpa [Function.update_of_ne hpp] using hp')
  | true =>
    refine { hs with split := ?_, returned_lt := ?_, before_lt := ?_, ticket_lt := ?_ }
    · simp [WorkQueue.enqueLocked, pushBack, hs.split]
    · intro i hi
      have hlt := hs.returned_lt i hi
      simp only [WorkQueue.enqueLocked, pushBack, if_true, List.length_append]
      omega
    · intro i hi
      have hlt := hs.before_lt i hi
      simp only [WorkQueue.enqueLocked, pushBack, if_true, List.length_append]
      omega
    · intro p' empty ticket hp'
      simp only [WorkQueue.enqueLocked, pushBack, if_true, List.length_append,
        List.length_singleton]
      by_cases hpp : p' = p
      · subst hpp
        simp only [Function.update_self, ProducerAt.unlocked.injEq] at hp'
        omega
      · have hlt := hs.ticket_lt p' empty ticket
          (by simpa [Function.update_of_ne hpp] using hp')
        omega

/-- Returning moves the producer's ticket to the returned ones. -/
theorem history_enqueReturn {s t : Sys P T} {p : P} (hs : History s)
    (h : step s (.enqueReturn p) = some t) : History t := by
  obtain ⟨empty, ok, ticket, hp, rfl⟩ := step_enqueReturn h
  refine { hs with split := ?_, returned_lt := ?_, ticket_lt := ?_, exit_set := ?_, exited := ?_ }
  · simpa using hs.split
  · intro i hi
    cases ok with
    | false => exact hs.returned_lt i (by simpa using hi)
    | true =>
      have hm : i ∈ s.returned ∨ i = ticket := by simpa using hi
      rcases hm with hm | rfl
      · exact hs.returned_lt i hm
      · exact hs.ticket_lt p empty i hp
  · intro p' empty' ticket' hp'
    by_cases hpp : p' = p
    · subst hpp
      simp at hp'
    · exact hs.ticket_lt p' empty' ticket' (by simpa [Function.update_of_ne hpp] using hp')
  · simpa using hs.exit_set
  · simpa using hs.exited

/-- Every step keeps the history. -/
theorem history_step (s : Sys P T) (a : Act P T) (t : Sys P T) (hs : History s)
    (h : step s a = some t) : History t := by
  cases a with
  | worker => exact history_worker hs h
  | enque p v allocated => exact history_enque hs h
  | enqueReturn p => exact history_enqueReturn hs h
  | goExitCall =>
    obtain ⟨hg, rfl⟩ := step_goExitCall h
    refine { hs with before_lt := hs.returned_lt, exit_set := ?_ }
    intro he
    obtain ⟨rt, hr⟩ := hs.exit_set he
    rw [hg] at hr
    cases hr
  | goExitSet =>
    obtain ⟨rt, rfl⟩ := step_goExitSet h
    exact { hs with exit_set := fun _ => ⟨rt, rfl⟩, exited := fun _ => rfl }

/-- No step undoes lateness. -/
theorem late_step (s : Sys P T) (a : Act P T) (t : Sys P T) (hs : History s) (hl : Late s)
    (h : step s a = some t) : Late t := by
  cases a with
  | worker => exact late_worker hl h
  | enque p v allocated =>
    rw [step_enque h]
    exact hl
  | enqueReturn p =>
    obtain ⟨empty, ok, ticket, -, rfl⟩ := step_enqueReturn h
    obtain ⟨he, hrest⟩ := hl
    exact ⟨(enqueNotify_exit _ _ _).trans he, hrest⟩
  | goExitCall =>
    obtain ⟨hg, rfl⟩ := step_goExitCall h
    obtain ⟨rt, hr⟩ := hs.exit_set hl.1
    rw [hg] at hr
    cases hr
  | goExitSet =>
    obtain ⟨rt, rfl⟩ := step_goExitSet h
    exact ⟨rfl, hl.2⟩

/-- A step that meets the condition does not make the worker late. -/
theorem not_late_step (s : Sys P T) (a : Act P T) (t : Sys P T) (hs : History s) (hn : ¬Late s)
    (hp : SetsExitInTime s a) (h : step s a = some t) : ¬Late t := by
  cases a with
  | worker => exact not_late_worker hs hn h
  | enque p v allocated =>
    rw [step_enque h]
    exact hn
  | enqueReturn p =>
    obtain ⟨empty, ok, ticket, -, rfl⟩ := step_enqueReturn h
    rintro ⟨he, hrest⟩
    exact hn ⟨(enqueNotify_exit _ _ _).symm.trans he, hrest⟩
  | goExitCall =>
    obtain ⟨hg, rfl⟩ := step_goExitCall h
    rintro ⟨he, -⟩
    obtain ⟨rt, hr⟩ := hs.exit_set he
    rw [hg] at hr
    cases hr
  | goExitSet =>
    obtain ⟨rt, rfl⟩ := step_goExitSet h
    rintro ⟨-, hw, i, hi, hle⟩
    rcases hw with hw | hw
    · have hlt := hp hw i hi
      exact absurd hlt (by simpa using hle)
    · exact hn ⟨hs.exited hw, .inr hw, i, hi, hle⟩

/-- A step that misses the condition makes the worker late. -/
theorem late_of_not_inTime {s t : Sys P T} {a : Act P T} (hp : ¬SetsExitInTime s a)
    (h : step s a = some t) : Late t := by
  cases a with
  | goExitSet =>
    simp only [SetsExitInTime, not_forall] at hp
    obtain ⟨hw, i, hi, hle⟩ := hp
    obtain ⟨rt, rfl⟩ := step_goExitSet h
    exact ⟨rfl, .inl hw, i, hi, by simpa using hle⟩
  | worker | enque | enqueReturn | goExitCall => exact absurd trivial hp

/-- A run without the condition missed is never late. -/
theorem not_late_run {as : List (Act P T)} {s : Sys P T}
    (hg : Along SetsExitInTime step Sys.init as) (h : run step Sys.init as = some s) :
    History s ∧ ¬Late s :=
  along_invariant (I := fun s => History s ∧ ¬Late s)
    (fun s a t hs hp ht => ⟨history_step s a t hs.1 ht, not_late_step s a t hs.1 hs.2 hp ht⟩)
    ⟨history_init, by simp [Late, Sys.init, WorkQueue.new]⟩ hg h

/-- In every interleaving: when `goExit` never sets the flag between the
worker's emptiness test and its test of the flag with an element queued
whose `enque` had returned before the call, the worker drains the queue.
When it does so in a run in which the worker leaves its loop, that element
is lost. -/
theorem drained_iff_setsExitInTime (as : List (Act P T)) (s : Sys P T)
    (h : run step Sys.init as = some s) :
    (Along SetsExitInTime step Sys.init as → Drained s) ∧
      (s.worker = .exited → Drained s → Along SetsExitInTime step Sys.init as) := by
  have hs : History s := run_invariant history_step history_init h
  constructor
  · intro hg hw
    exact (drained_iff_not_late hs hw).mpr (not_late_run hg h).2 hw
  · intro hw hd
    by_contra hn
    obtain ⟨pre, a, post, u, w, rfl, hu, hp, ha, hr⟩ := exists_of_not_along h hn
    have hsu : History u := run_invariant history_step history_init hu
    have hl : History s ∧ Late s :=
      run_invariant (I := fun s => History s ∧ Late s)
        (fun s a t hs ht => ⟨history_step s a t hs.1 ht, late_step s a t hs.1 hs.2 ht⟩)
        ⟨history_step u a w hsu ha, late_of_not_inTime hp ha⟩ hr
    exact (drained_iff_not_late hs hw).mp hd hl.2

/-- The worker goes to wait on the empty queue, an element is enqueued and
`goExit` is called; the worker reads the flag and leaves the element behind. -/
def lostElement : List (Act Unit ℕ) :=
  [.worker, .enque () 7 true, .enqueReturn (), .goExitCall, .goExitSet, .worker, .worker]

/-- The work queue does not drain in every interleaving. -/
theorem not_drained_lostElement :
    ¬∀ (as : List (Act Unit ℕ)) (s : Sys Unit ℕ), run step Sys.init as = some s → Drained s := by
  intro hall
  obtain ⟨s, hs⟩ : ∃ s, run step Sys.init lostElement = some s := ⟨_, rfl⟩
  have hd := hall lostElement s hs
  cases hs
  obtain ⟨v, -, hv⟩ := hd rfl 0 (by decide)
  cases hv

/-- The same calls, with `goExit` before the worker looks at the queue. -/
def earlyGoExit : List (Act Unit ℕ) :=
  [.enque () 7 true, .enqueReturn (), .goExitCall, .goExitSet, .worker, .worker, .worker,
    .worker, .worker]

/-- That schedule meets the condition, and the element is handed out. -/
theorem drained_earlyGoExit :
    ∃ s : Sys Unit ℕ, run step Sys.init earlyGoExit = some s ∧ s.worker = .exited ∧
      Drained s := by
  obtain ⟨s, hs⟩ : ∃ s, run step Sys.init earlyGoExit = some s := ⟨_, rfl⟩
  have hd := (drained_iff_setsExitInTime earlyGoExit s hs).1 (by
    refine ⟨trivial, fun t ht => ⟨trivial, fun u hu => ⟨trivial, fun v hv => ⟨?_, fun _ _ => ?_⟩⟩⟩⟩
    · cases ht
      cases hu
      cases hv
      rintro (hw | hw) <;> cases hw
    · simp [Along, SetsExitInTime])
  cases hs
  exact ⟨_, rfl, rfl, hd⟩

end KernelLib.WorkQueueDrain
