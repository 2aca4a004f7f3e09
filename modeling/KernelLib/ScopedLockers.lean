import KernelLib.GuardedSections
import Mathlib.Data.List.Count
import Mathlib.Data.List.Nodup
import Mathlib.Order.Nat
import Mathlib.Tactic.Simps.Basic

/-!
# Lockers in scopes

`skl::mutex` is a `KMUTEX`, which its owner may take again, `skl::mutex_fast` a
`FAST_MUTEX`, which raises the interrupt level and keeps the old one in itself,
and `skl::spin_lock` a queued spin lock, where the old level is kept in the
`KLOCK_QUEUE_HANDLE` of the `auto_spinlocker`. `auto_locker` and
`auto_spinlocker` take a lock in the constructor and give it back in the
destructor, so that the lockers of a thread form a stack. Any number of
threads nest them in any order: no destructor gives back a lock that its
thread does not have, no two threads get past the constructor for one lock,
and each thread is back at its own level when its lockers are gone.
-/

namespace KernelLib.ScopedLockers

open Function StepRuns

/-- `KLOCK_QUEUE_HANDLE`. -/
structure Handle where
  /-- Which handle it is. -/
  number : ℕ
  /-- The level that was saved in it. -/
  oldIrql : ℕ
  deriving DecidableEq, Repr

/-- A locker, on an object `K`. -/
inductive Locker (K : Type) where
  /-- `auto_locker<mutex>`. -/
  | mutex (k : K)
  /-- `auto_locker<mutex_fast>`. -/
  | fast (k : K)
  /-- `auto_spinlocker`, with its `_lh`. -/
  | spin (k : K) (lh : Handle)
  deriving DecidableEq, Repr

/-- What a thread has. -/
structure Thread (K : Type) where
  /-- The current interrupt level: 0 for `PASSIVE_LEVEL`, 1 for `APC_LEVEL`, 2 for
  `DISPATCH_LEVEL`. -/
  irql : ℕ
  /-- Its lockers past their constructors, innermost first. -/
  lockers : List (Locker K)
  /-- The locker whose constructor it is in. -/
  waiting : Option (Locker K)

/-- The locks and the threads. -/
structure Sys (T K : Type) where
  /-- The owner of a `KMUTEX`, and how often it took it. -/
  mutex : K → Option (T × ℕ)
  /-- The owner of a `FAST_MUTEX`, and `OldIrql`. -/
  fast : K → Option (T × ℕ)
  /-- The handles in the queue of a spin lock, with their threads. -/
  spin : K → List (T × ℕ)
  /-- The threads. -/
  thread : T → Thread K
  /-- How many handles there were. -/
  handles : ℕ

/-- The classes of lockers. -/
inductive Kind where
  /-- `auto_locker<mutex>`. -/
  | mutex
  /-- `auto_locker<mutex_fast>`. -/
  | fast
  /-- `auto_spinlocker`. -/
  | spin
  deriving DecidableEq, Repr

/-- A step of a thread. -/
inductive Act (T K : Type) where
  /-- The constructor of a locker begins. -/
  | enter (t : T) (kind : Kind) (k : K)
  /-- It gets the lock. -/
  | pass (t : T)
  /-- The innermost locker is destroyed. -/
  | leave (t : T)
  deriving DecidableEq, Repr

section Locks

variable {T : Type} [DecidableEq T]

/-- `mutex::lock`, `KeWaitForSingleObject` on a `KMUTEX`; nothing while the thread has to wait. -/
def lockMutex (t : T) : Option (T × ℕ) → Option (Option (T × ℕ))
  | none => some (some (t, 1))
  | some (u, n) => if u = t then some (some (t, n + 1)) else none

/-- `mutex::unlock`, `KeReleaseMutex`, which only the owner may call. -/
def unlockMutex (t : T) : Option (T × ℕ) → Option (Option (T × ℕ))
  | none => none
  | some (u, n) => if u = t then some (if n = 1 then none else some (t, n - 1)) else none

/-- A `KMUTEX` that is taken once is a lock that keeps all others out. -/
def kmutex : GuardedSections.Lock T where
  State := Option (T × ℕ)
  free := none
  held t := some (t, 1)
  acquire := lockMutex
  release := unlockMutex

theorem kmutex_exclusive : (kmutex : GuardedSections.Lock T).Exclusive where
  acquire_free _ := rfl
  acquire_held t u h := by simp [kmutex, lockMutex, Ne.symm h]
  release_held t := by simp [kmutex, unlockMutex]

end Locks

section Steps

variable {T K : Type} [DecidableEq T] [DecidableEq K]

/-- Change a thread. -/
@[simps -fullyApplied] def Sys.put (s : Sys T K) (t : T) (x : Thread K) : Sys T K :=
  { s with thread := update s.thread t x }

/-- The constructor of a locker begins. A spin lock raises the level and enters the queue
at once. -/
def enter (t : T) (k : K) (s : Sys T K) : Kind → Sys T K
  | .mutex => s.put t { s.thread t with waiting := some (.mutex k) }
  | .fast => s.put t { s.thread t with waiting := some (.fast k) }
  | .spin =>
    { s with
      spin := update s.spin k (s.spin k ++ [(t, s.handles)])
      handles := s.handles + 1 }.put t
        { s.thread t with irql := 2, waiting := some (.spin k ⟨s.handles, (s.thread t).irql⟩) }

/-- The constructor gets the lock and ends. -/
def getLock (t : T) (s : Sys T K) : Option (Sys T K) :=
  let x := s.thread t
  match x.waiting with
  | none => none
  | some (.mutex k) => (lockMutex t (s.mutex k)).map fun m =>
      { s with mutex := update s.mutex k m }.put t
        { x with lockers := .mutex k :: x.lockers, waiting := none }
  | some (.fast k) =>
    match s.fast k with
    | some _ => none
    | none => some <| { s with fast := update s.fast k (some (t, x.irql)) }.put t
        { x with irql := 1, lockers := .fast k :: x.lockers, waiting := none }
  | some (.spin k lh) =>
    if (s.spin k).head? = some (t, lh.number) then
      some <| s.put t { x with lockers := .spin k lh :: x.lockers, waiting := none }
    else none

/-- The destructor of the innermost locker; nothing when the lock is not the thread's. -/
def leave (t : T) (s : Sys T K) : Option (Sys T K) :=
  let x := s.thread t
  match x.lockers with
  | [] => none
  | .mutex k :: rest => (unlockMutex t (s.mutex k)).map fun m =>
      { s with mutex := update s.mutex k m }.put t { x with lockers := rest }
  | .fast k :: rest =>
    match s.fast k with
    | none => none
    | some (u, oldIrql) =>
      if u = t then some <| { s with fast := update s.fast k none }.put t
        { x with irql := oldIrql, lockers := rest }
      else none
  | .spin k lh :: rest =>
    if (s.spin k).head? = some (t, lh.number) then
      some <| { s with spin := update s.spin k (s.spin k).tail }.put t
        { x with irql := lh.oldIrql, lockers := rest }
    else none

/-- Take one step. -/
def step (s : Sys T K) : Act T K → Option (Sys T K)
  | .enter t kind k => some (enter t k s kind)
  | .pass t => getLock t s
  | .leave t => leave t s

/-- Threads wait for a `KMUTEX` or a `FAST_MUTEX` at `APC_LEVEL` at most. A thread that is in
a constructor does nothing else, and the locker that is destroyed is the innermost one. -/
def Permitted (s : Sys T K) : Act T K → Prop
  | .enter t .spin _ => (s.thread t).waiting = none
  | .enter t _ _ => (s.thread t).waiting = none ∧ (s.thread t).irql ≤ 1
  | .pass t => (s.thread t).waiting.isSome
  | .leave t => (s.thread t).waiting = none ∧ (s.thread t).lockers ≠ []

instance (s : Sys T K) (a : Act T K) : Decidable (Permitted s a) :=
  match a with
  | .enter t .spin _ => inferInstanceAs (Decidable ((s.thread t).waiting = none))
  | .enter t .mutex _ => inferInstanceAs (Decidable ((s.thread t).waiting = none ∧ _))
  | .enter t .fast _ => inferInstanceAs (Decidable ((s.thread t).waiting = none ∧ _))
  | .pass t => inferInstanceAs (Decidable ((s.thread t).waiting.isSome = true))
  | .leave t => inferInstanceAs (Decidable ((s.thread t).waiting = none ∧ _))

/-- No lock is taken, and each thread runs at a level of its own. -/
def start (irql : T → ℕ) : Sys T K :=
  ⟨fun _ => none, fun _ => none, fun _ => [], fun t => ⟨irql t, [], none⟩, 0⟩

end Steps

section Invariant

variable {T K : Type} [DecidableEq T] [DecidableEq K]

/-- How often a thread has a `KMUTEX`. -/
def depth (t : T) : Option (T × ℕ) → ℕ
  | none => 0
  | some (u, n) => if u = t then n else 0

/-- The level below which lockers were constructed, from that of the thread. -/
def level (base : ℕ) : List (Locker K) → ℕ
  | [] => base
  | .mutex _ :: rest => level base rest
  | .fast _ :: _ => 1
  | .spin _ _ :: _ => 2

/-- What each locker will restore is the level it was constructed at. -/
def Restores (base : ℕ) (fast : K → Option (T × ℕ)) (t : T) : List (Locker K) → Prop
  | [] => True
  | .mutex _ :: rest => Restores base fast t rest
  | .fast k :: rest => fast k = some (t, level base rest) ∧ Restores base fast t rest
  | .spin _ lh :: rest => lh.oldIrql = level base rest ∧ Restores base fast t rest

/-- The handle of a spin locker. -/
def Locker.number : Locker K → Option ℕ
  | .spin _ lh => some lh.number
  | _ => none

/-- The handles that a thread has in queues. -/
def Thread.numbers (x : Thread K) : List ℕ := (x.waiting.toList ++ x.lockers).filterMap Locker.number

/-- The level of a thread, from its lockers. -/
def Thread.level (base : ℕ) (x : Thread K) : ℕ :=
  match x.waiting with
  | some (.spin _ _) => 2
  | _ => ScopedLockers.level base x.lockers

/-- What a thread and its lockers agree on. -/
structure Orderly (base : ℕ) (s : Sys T K) (t : T) (x : Thread K) : Prop where
  irql : x.irql = x.level base
  restores : Restores base s.fast t x.lockers
  saved : ∀ k lh, x.waiting = some (.spin k lh) → lh.oldIrql = level base x.lockers
  numbers : x.numbers.Nodup
  fresh : ∀ n ∈ x.numbers, n < s.handles
  queued : ∀ k lh, x.waiting = some (.spin k lh) → (t, lh.number) ∈ s.spin k

/-- Locks and lockers agree. -/
structure Nested (base : T → ℕ) (s : Sys T K) : Prop where
  mutex : ∀ k t, (s.thread t).lockers.count (.mutex k) = depth t (s.mutex k)
  taken : ∀ k t n, s.mutex k = some (t, n) → 0 < n
  fast : ∀ k t, (s.thread t).lockers.count (.fast k) = depth t ((s.fast k).map fun x => (x.1, 1))
  head : ∀ k t lh, .spin k lh ∈ (s.thread t).lockers → (s.spin k).head? = some (t, lh.number)
  queue : ∀ k, (s.spin k).Nodup
  known : ∀ k, ∀ e ∈ s.spin k, e.2 < s.handles
  orderly : ∀ t, Orderly (base t) s t (s.thread t)

variable {base : T → ℕ} {s s' : Sys T K} {t u : T} {k : K} {l : List (Locker K)}

omit [DecidableEq T] [DecidableEq K] in
/-- Only the fast mutexes of the lockers matter. -/
theorem restores_congr {b : ℕ} {f g : K → Option (T × ℕ)} (h : ∀ k, .fast k ∈ l → g k = f k)
    (hr : Restores b f t l) : Restores b g t l := by
  induction l with
  | nil => trivial
  | cons x l ih =>
    have hrest : ∀ k, .fast k ∈ l → g k = f k := fun k hk => h k (List.mem_cons_of_mem _ hk)
    cases x with
    | mutex k => exact ih hrest hr
    | fast k => exact ⟨(h k List.mem_cons_self).trans hr.1, ih hrest hr.2⟩
    | spin k lh => exact ⟨hr.1, ih hrest hr.2⟩

/-- Before the first step. -/
theorem nested_start (irql : T → ℕ) : Nested irql (start irql : Sys T K) where
  mutex := by simp [start, depth]
  taken := by simp [start]
  fast := by simp [start, depth]
  head := by simp [start]
  queue := by simp [start]
  known := by simp [start]
  orderly t := by
    constructor <;> simp [start, Thread.level, level, Restores, Thread.numbers]

omit [DecidableEq T] [DecidableEq K] in
/-- A thread keeps order while others change what it does not use. -/
theorem Orderly.congr {b : ℕ} {x : Thread K} (h : Orderly b s u x)
    (hf : ∀ k, .fast k ∈ x.lockers → s'.fast k = s.fast k) (hn : s.handles ≤ s'.handles)
    (hq : ∀ k lh, x.waiting = some (.spin k lh) → (u, lh.number) ∈ s'.spin k) :
    Orderly b s' u x :=
  ⟨h.irql, restores_congr hf h.restores, h.saved, h.numbers, fun n hx => (h.fresh n hx).trans_le hn, hq⟩

omit [DecidableEq T] [DecidableEq K] in
theorem numbers_cons {x : Thread K} {m : Locker K} (hw : x.waiting = some m) :
    x.numbers = m.number.toList ++ x.lockers.filterMap Locker.number := by
  cases hm : m.number <;> simp [Thread.numbers, hw, hm]

omit [DecidableEq T] [DecidableEq K] in
theorem numbers_idle {x : Thread K} (hw : x.waiting = none) :
    x.numbers = x.lockers.filterMap Locker.number := by
  simp [Thread.numbers, hw]

/-- The constructor of a locker for a mutex of either kind has no effect before it gets it. -/
theorem nested_waits (h : Nested base s) (hw : (s.thread t).waiting = none) {m : Locker K}
    (hm : m.number = none) : Nested base (s.put t { s.thread t with waiting := some m }) := by
  have hx : ∀ u, (update s.thread t { s.thread t with waiting := some m } u).lockers =
      (s.thread u).lockers := by
    intro u
    rcases eq_or_ne u t with rfl | hu
    · simp
    · simp [hu]
  refine ⟨?_, h.taken, ?_, ?_, h.queue, h.known, ?_⟩
  · intro k u
    simpa [hx] using h.mutex k u
  · intro k u
    simpa [hx] using h.fast k u
  · intro k u lh
    simpa [hx] using h.head k u lh
  · intro u
    rcases eq_or_ne u t with rfl | hu
    · have ho := h.orderly u
      have hns := numbers_idle hw
      cases m with
      | spin k lh => cases hm
      | mutex k | fast k =>
        constructor
        · simpa [Thread.level, hw] using ho.irql
        · simpa using ho.restores
        · simp
        · simpa [numbers_cons, Locker.number, ← hns] using ho.numbers
        · simpa [numbers_cons, Locker.number, ← hns] using ho.fresh
        · simp
    · have hc : Orderly (base u) (s.put t { s.thread t with waiting := some m }) u (s.thread u) :=
        (h.orderly u).congr (fun _ _ => rfl) le_rfl (h.orderly u).queued
      simpa [hu] using hc

/-- A spin lock is queued for at the raised level. -/
theorem nested_queues (h : Nested base s) (hw : (s.thread t).waiting = none) (k : K) :
    Nested base (enter t k s .spin) := by
  have hx : ∀ u, ((enter t k s .spin).thread u).lockers = (s.thread u).lockers := by
    intro u
    rcases eq_or_ne u t with rfl | hu
    · simp [enter]
    · simp [enter, hu]
  have hq : ∀ j, (s.spin j) <+: (enter t k s .spin).spin j := by
    intro j
    rcases eq_or_ne j k with rfl | hj
    · simp [enter]
    · simp [enter, hj]
  have hnew : ∀ u, (u, s.handles) ∉ s.spin k := fun u hm => (h.known k _ hm).ne rfl
  refine ⟨?_, h.taken, ?_, ?_, ?_, ?_, ?_⟩
  · intro j u
    rw [hx]
    exact h.mutex j u
  · intro j u
    rw [hx]
    exact h.fast j u
  · intro j u lh hm
    rw [hx] at hm
    obtain ⟨rest, hr⟩ := hq j
    rw [← hr, List.head?_append, h.head j u lh hm, Option.some_or]
  · intro j
    rcases eq_or_ne j k with rfl | hj
    · have hn : (s.spin j ++ [(t, s.handles)]).Nodup :=
        List.nodup_append.mpr ⟨h.queue j, List.nodup_singleton _, by
          rintro e he f hf rfl
          exact hnew t (List.mem_singleton.mp hf ▸ he)⟩
      simpa [enter] using hn
    · simpa [enter, hj] using h.queue j
  · intro j e he
    rcases eq_or_ne j k with rfl | hj
    · have hmem : e ∈ s.spin j ++ [(t, s.handles)] := by simpa [enter] using he
      rcases List.mem_append.mp hmem with he | he
      · exact (h.known j e he).trans (Nat.lt_succ_self _)
      · obtain rfl := List.mem_singleton.mp he
        exact Nat.lt_succ_self _
    · exact (h.known j e (by simpa [enter, hj] using he)).trans (Nat.lt_succ_self _)
  · intro u
    rcases eq_or_ne u t with rfl | hu
    · have ho := h.orderly u
      have hns := numbers_idle hw
      constructor
      · simp [enter, Thread.level]
      · simpa [enter] using ho.restores
      · have hi := ho.irql
        simp only [Thread.level, hw] at hi
        simp [enter, ← hi]
      · have hfresh : s.handles ∉ (s.thread u).numbers := fun hm => (ho.fresh _ hm).ne rfl
        simpa [enter, numbers_cons, Locker.number, ← hns] using ⟨hfresh, ho.numbers⟩
      · simpa [enter, numbers_cons, Locker.number, ← hns] using
          fun n hn => (ho.fresh n hn).trans (Nat.lt_succ_self _)
      · simp [enter]
    · have hc : Orderly (base u) (enter t k s .spin) u (s.thread u) :=
        (h.orderly u).congr (fun _ _ => rfl) (Nat.le_succ _)
          fun j lh hj => (hq j).subset ((h.orderly u).queued j lh hj)
      simpa [enter, hu] using hc

omit [DecidableEq K] in
/-- Taking a mutex deepens it for its owner alone. -/
theorem depth_lock {o m : Option (T × ℕ)} (h : lockMutex t o = some m) (u : T) :
    depth u m = depth u o + if u = t then 1 else 0 := by
  rcases o with _ | ⟨v, n⟩
  · obtain rfl := Option.some.inj h
    simp [depth, eq_comm]
  · simp only [lockMutex] at h
    split_ifs at h with hv
    subst hv
    obtain rfl := Option.some.inj h
    rcases eq_or_ne u v with rfl | hu
    · simp [depth]
    · simp [depth, hu, Ne.symm hu]

omit [DecidableEq K] in
theorem pos_of_lock {o m : Option (T × ℕ)} (h : lockMutex t o = some m) {n : ℕ}
    (hm : m = some (u, n)) : 0 < n := by
  rcases o with _ | ⟨v, j⟩
  · obtain ⟨-, rfl⟩ := Prod.mk.inj (Option.some.inj ((Option.some.inj h).trans hm))
    exact Nat.one_pos
  · simp only [lockMutex] at h
    split_ifs at h
    obtain ⟨-, rfl⟩ := Prod.mk.inj (Option.some.inj ((Option.some.inj h).trans hm))
    exact Nat.succ_pos j

omit [DecidableEq K] in
/-- Whoever has a mutex can give it back, and has it once less. -/
theorem exists_unlock {o : Option (T × ℕ)} (ho : ∀ u n, o = some (u, n) → 0 < n)
    (h : 0 < depth t o) : ∃ m, unlockMutex t o = some m ∧ (∀ u n, m = some (u, n) → 0 < n) ∧
      ∀ u, depth u o = depth u m + if u = t then 1 else 0 := by
  rcases o with _ | ⟨v, n⟩
  · cases h
  · have hn := ho v n rfl
    have hv : v = t := by
      by_contra hv
      simp [depth, hv] at h
    subst hv
    refine ⟨_, by simp only [unlockMutex, if_true]; rfl, ?_, fun u => ?_⟩
    · intro u j hj
      split_ifs at hj with h1
      obtain ⟨-, rfl⟩ := Prod.mk.inj (Option.some.inj hj)
      omega
    · split_ifs with h1 hu hu
      · simp [depth, hu, h1]
      · simp [depth, Ne.symm hu]
      · simp only [depth, hu, if_true]
        omega
      · simp [depth, Ne.symm hu]

omit [DecidableEq T] [DecidableEq K] in
/-- Getting past the constructor moves a locker to the others. -/
theorem numbers_pass {x : Thread K} {m : Locker K} (hw : x.waiting = some m) (i : ℕ) :
    Thread.numbers ⟨i, m :: x.lockers, none⟩ = x.numbers := by
  simp [Thread.numbers, hw]

/-- A thread gets a `KMUTEX`. -/
theorem nested_pass_mutex (h : Nested base s) (hw : (s.thread t).waiting = some (.mutex k))
    {m : Option (T × ℕ)} (hm : lockMutex t (s.mutex k) = some m) :
    Nested base ({ s with mutex := update s.mutex k m }.put t
      { s.thread t with lockers := .mutex k :: (s.thread t).lockers, waiting := none }) := by
  have ho := h.orderly t
  have hn := numbers_pass hw (s.thread t).irql
  refine ⟨?_, ?_, ?_, ?_, h.queue, h.known, ?_⟩
  · intro j u
    have hd := depth_lock hm u
    have hc := h.mutex j u
    rcases eq_or_ne j k with rfl | hj <;> rcases eq_or_ne u t with rfl | hu
    · simp [hd, hc]
    · simpa [hd, hu] using hc
    · simpa [hj, List.count_cons, Ne.symm hj] using hc
    · simpa [hj, hu] using hc
  · intro j u n hj
    rcases eq_or_ne j k with rfl | hjk
    · exact pos_of_lock hm (by simpa using hj)
    · exact h.taken j u n (by simpa [hjk] using hj)
  · intro j u
    have hc := h.fast j u
    rcases eq_or_ne u t with rfl | hu
    · simpa [List.count_cons] using hc
    · simpa [hu] using hc
  · intro j u lh hj
    rcases eq_or_ne u t with rfl | hu
    · exact h.head j u lh (by simpa using hj)
    · exact h.head j u lh (by simpa [hu] using hj)
  · intro u
    rcases eq_or_ne u t with rfl | hu
    · constructor
      · simpa [Thread.level, level, hw] using ho.irql
      · simpa [Restores] using ho.restores
      · simp
      · simpa [hn] using ho.numbers
      · simpa [hn] using ho.fresh
      · simp
    · have hc : Orderly (base u) ({ s with mutex := update s.mutex k m }.put t
          { s.thread t with lockers := .mutex k :: (s.thread t).lockers, waiting := none }) u
            (s.thread u) := (h.orderly u).congr (fun _ _ => rfl) le_rfl (h.orderly u).queued
      simpa [hu] using hc

/-- A thread gets a `FAST_MUTEX`. -/
theorem nested_pass_fast (h : Nested base s) (hw : (s.thread t).waiting = some (.fast k))
    (hm : s.fast k = none) :
    Nested base ({ s with fast := update s.fast k (some (t, (s.thread t).irql)) }.put t
      { irql := 1, lockers := .fast k :: (s.thread t).lockers, waiting := none }) := by
  have ho := h.orderly t
  have hn := numbers_pass hw 1
  have hfree : ∀ u, .fast k ∉ (s.thread u).lockers := by
    intro u
    rw [← List.count_eq_zero, h.fast k u, hm]
    rfl
  refine ⟨?_, h.taken, ?_, ?_, h.queue, h.known, ?_⟩
  · intro j u
    have hc := h.mutex j u
    rcases eq_or_ne u t with rfl | hu
    · simpa [List.count_cons] using hc
    · simpa [hu] using hc
  · intro j u
    have hc := h.fast j u
    rcases eq_or_ne j k with rfl | hj <;> rcases eq_or_ne u t with rfl | hu
    · simp [depth, List.count_eq_zero.mpr (hfree u)]
    · simp [hu, Ne.symm hu, depth, List.count_eq_zero.mpr (hfree u)]
    · simpa [hj, List.count_cons, Ne.symm hj] using hc
    · simpa [hj, hu] using hc
  · intro j u lh hj
    rcases eq_or_ne u t with rfl | hu
    · exact h.head j u lh (by simpa using hj)
    · exact h.head j u lh (by simpa [hu] using hj)
  · intro u
    have hsame : ∀ j, .fast j ∈ (s.thread u).lockers →
        update s.fast k (some (t, (s.thread t).irql)) j = s.fast j := by
      intro j hj
      exact update_of_ne (fun hjk : j = k => hfree u (hjk ▸ hj)) _ _
    rcases eq_or_ne u t with rfl | hu
    · have hi := ho.irql
      simp only [Thread.level, hw] at hi
      constructor
      · simp [Thread.level, level]
      · simpa [Restores, ← hi] using restores_congr hsame ho.restores
      · simp
      · simpa [hn] using ho.numbers
      · simpa [hn] using ho.fresh
      · simp
    · have hc : Orderly (base u) ({ s with fast := update s.fast k (some (t, (s.thread t).irql)) }.put t
          { irql := 1, lockers := .fast k :: (s.thread t).lockers, waiting := none }) u
            (s.thread u) := (h.orderly u).congr hsame le_rfl (h.orderly u).queued
      simpa [hu] using hc

/-- A thread gets a spin lock. -/
theorem nested_pass_spin (h : Nested base s) {lh : Handle}
    (hw : (s.thread t).waiting = some (.spin k lh)) (hm : (s.spin k).head? = some (t, lh.number)) :
    Nested base (s.put t
      { s.thread t with lockers := .spin k lh :: (s.thread t).lockers, waiting := none }) := by
  have ho := h.orderly t
  have hn := numbers_pass hw (s.thread t).irql
  refine ⟨?_, h.taken, ?_, ?_, h.queue, h.known, ?_⟩
  · intro j u
    have hc := h.mutex j u
    rcases eq_or_ne u t with rfl | hu
    · simpa [List.count_cons] using hc
    · simpa [hu] using hc
  · intro j u
    have hc := h.fast j u
    rcases eq_or_ne u t with rfl | hu
    · simpa [List.count_cons] using hc
    · simpa [hu] using hc
  · intro j u lh' hj
    rcases eq_or_ne u t with rfl | hu
    · rcases List.mem_cons.mp (by simpa using hj : Locker.spin j lh' ∈ .spin k lh :: (s.thread u).lockers)
        with hj | hj
      · obtain ⟨rfl, rfl⟩ := Locker.spin.inj hj
        exact hm
      · exact h.head j u lh' hj
    · exact h.head j u lh' (by simpa [hu] using hj)
  · intro u
    rcases eq_or_ne u t with rfl | hu
    · constructor
      · simpa [Thread.level, level, hw] using ho.irql
      · simpa [Restores] using ⟨ho.saved k lh hw, ho.restores⟩
      · simp
      · simpa [hn] using ho.numbers
      · simpa [hn] using ho.fresh
      · simp
    · have hc : Orderly (base u) (s.put t
          { s.thread t with lockers := .spin k lh :: (s.thread t).lockers, waiting := none }) u
            (s.thread u) := (h.orderly u).congr (fun _ _ => rfl) le_rfl (h.orderly u).queued
      simpa [hu] using hc

omit [DecidableEq T] [DecidableEq K] in
/-- A locker that goes takes its handle along. -/
theorem numbers_leave {x : Thread K} {m : Locker K} {rest : List (Locker K)} (i : ℕ)
    (hw : x.waiting = none) (hl : x.lockers = m :: rest) :
    x.numbers = m.number.toList ++ Thread.numbers ⟨i, rest, none⟩ := by
  cases hm : m.number <;> simp [Thread.numbers, hw, hl, hm]

omit [DecidableEq T] [DecidableEq K] in
/-- What is left of a thread's lockers is in order, with the level they were constructed below. -/
theorem Orderly.leave {b i : ℕ} {x : Thread K} {m : Locker K} {rest : List (Locker K)}
    (h : Orderly b s u x) (hw : x.waiting = none) (hl : x.lockers = m :: rest)
    (hi : i = level b rest) (hr : Restores b s'.fast u rest) (hn : s'.handles = s.handles) :
    Orderly b s' u ⟨i, rest, x.waiting⟩ where
  irql := by simpa [Thread.level, hw] using hi
  restores := hr
  saved := by simp [hw]
  numbers := by
    have hx := h.numbers
    rw [numbers_leave i hw hl] at hx
    exact hw ▸ (List.nodup_append.mp hx).2.1
  fresh n hx := hn ▸ h.fresh n (numbers_leave i hw hl ▸ List.mem_append_right _ (hw ▸ hx))
  queued := by simp [hw]

/-- A `KMUTEX` is given back. -/
theorem nested_leave_mutex (h : Nested base s) (hw : (s.thread t).waiting = none)
    {rest : List (Locker K)} (hl : (s.thread t).lockers = .mutex k :: rest) :
    ∃ m, unlockMutex t (s.mutex k) = some m ∧
      Nested base ({ s with mutex := update s.mutex k m }.put t
        { s.thread t with lockers := rest }) := by
  have ho := h.orderly t
  have hpos : 0 < depth t (s.mutex k) := by
    rw [← h.mutex, hl, List.count_cons_self]
    exact Nat.succ_pos _
  obtain ⟨m, hm, htaken, hd⟩ := exists_unlock (h.taken k) hpos
  refine ⟨m, hm, ?_, ?_, ?_, ?_, h.queue, h.known, ?_⟩
  · intro j u
    have hdu := hd u
    have hc := h.mutex j u
    rcases eq_or_ne j k with rfl | hj <;> rcases eq_or_ne u t with rfl | hu
    · rw [hl, List.count_cons_self] at hc
      simp only [if_true] at hdu
      simpa using Nat.succ_injective (hc.trans hdu)
    · simpa [hu, hdu] using hc
    · simpa [hj, hl, List.count_cons, Ne.symm hj] using hc
    · simpa [hj, hu] using hc
  · intro j u n hj
    rcases eq_or_ne j k with rfl | hjk
    · exact htaken u n (by simpa using hj)
    · exact h.taken j u n (by simpa [hjk] using hj)
  · intro j u
    have hc := h.fast j u
    rcases eq_or_ne u t with rfl | hu
    · simpa [hl, List.count_cons] using hc
    · simpa [hu] using hc
  · intro j u lh hj
    rcases eq_or_ne u t with rfl | hu
    · exact h.head j u lh (hl ▸ List.mem_cons_of_mem _ (by simpa using hj))
    · exact h.head j u lh (by simpa [hu] using hj)
  · intro u
    rcases eq_or_ne u t with rfl | hu
    · have hi := ho.irql
      have hr := ho.restores
      simp only [Thread.level, hw, hl, level] at hi
      rw [hl] at hr
      rw [Sys.put_thread, update_self]
      exact ho.leave hw hl hi hr rfl
    · have hc : Orderly (base u) ({ s with mutex := update s.mutex k m }.put t
          { s.thread t with lockers := rest }) u (s.thread u) :=
        (h.orderly u).congr (fun _ _ => rfl) le_rfl (h.orderly u).queued
      simpa [hu] using hc

/-- A `FAST_MUTEX` is given back, with the level that was saved in it. -/
theorem nested_leave_fast (h : Nested base s) (hw : (s.thread t).waiting = none)
    {rest : List (Locker K)} (hl : (s.thread t).lockers = .fast k :: rest) :
    ∃ oldIrql, s.fast k = some (t, oldIrql) ∧ Nested base ({ s with fast := update s.fast k none }.put t
      { s.thread t with irql := oldIrql, lockers := rest }) := by
  have ho := h.orderly t
  have hr := ho.restores
  rw [hl] at hr
  have hown := hr.1
  have hcount : ∀ u, (s.thread u).lockers.count (.fast k) = if t = u then 1 else 0 := by
    intro u
    rw [h.fast k u, hown]
    rfl
  have hrest : .fast k ∉ rest := by
    have hc := hcount t
    rw [hl, List.count_cons_self, if_pos rfl] at hc
    exact List.count_eq_zero.mp (Nat.succ_injective hc)
  have hsame : ∀ j, .fast j ∈ rest → update s.fast k none j = s.fast j := fun j hj =>
    update_of_ne (fun hjk : j = k => hrest (hjk ▸ hj)) _ _
  refine ⟨_, hown, ?_, h.taken, ?_, ?_, h.queue, h.known, ?_⟩
  · intro j u
    have hc := h.mutex j u
    rcases eq_or_ne u t with rfl | hu
    · simpa [hl, List.count_cons] using hc
    · simpa [hu] using hc
  · intro j u
    have hc := h.fast j u
    rcases eq_or_ne j k with rfl | hj <;> rcases eq_or_ne u t with rfl | hu
    · simpa [depth] using List.count_eq_zero.mpr hrest
    · simpa [hu, depth, Ne.symm hu] using hcount u
    · simpa [hj, hl, List.count_cons, Ne.symm hj] using hc
    · simpa [hj, hu] using hc
  · intro j u lh hj
    rcases eq_or_ne u t with rfl | hu
    · exact h.head j u lh (hl ▸ List.mem_cons_of_mem _ (by simpa using hj))
    · exact h.head j u lh (by simpa [hu] using hj)
  · intro u
    rcases eq_or_ne u t with rfl | hu
    · rw [Sys.put_thread, update_self]
      exact ho.leave hw hl rfl (restores_congr hsame hr.2) rfl
    · have hother : ∀ j, .fast j ∈ (s.thread u).lockers → update s.fast k none j = s.fast j := by
        intro j hj
        refine update_of_ne (fun hjk : j = k => ?_) _ _
        have hc := hcount u
        rw [if_neg (Ne.symm hu)] at hc
        exact List.count_eq_zero.mp hc (hjk ▸ hj)
      have hc : Orderly (base u) ({ s with fast := update s.fast k none }.put t
          { s.thread t with irql := level (base t) rest, lockers := rest }) u (s.thread u) :=
        (h.orderly u).congr hother le_rfl (h.orderly u).queued
      simpa [hu] using hc

/-- A spin lock is given back, with the level that was saved in the handle. -/
theorem nested_leave_spin (h : Nested base s) (hw : (s.thread t).waiting = none) {lh : Handle}
    {rest : List (Locker K)} (hl : (s.thread t).lockers = .spin k lh :: rest) :
    (s.spin k).head? = some (t, lh.number) ∧
      Nested base ({ s with spin := update s.spin k (s.spin k).tail }.put t
        { s.thread t with irql := lh.oldIrql, lockers := rest }) := by
  have ho := h.orderly t
  have hr := ho.restores
  rw [hl] at hr
  have hhead := h.head k t lh (hl ▸ List.mem_cons_self)
  obtain ⟨q, hq⟩ : ∃ q, s.spin k = (t, lh.number) :: q := by
    cases hk : s.spin k with
    | nil => simp [hk] at hhead
    | cons e q =>
      rw [hk, List.head?_cons] at hhead
      exact ⟨q, by rw [Option.some.inj hhead]⟩
  -- no locker but the one that goes has this lock
  have hgone : ∀ u lh', .spin k lh' ∈ (s.thread u).lockers → u = t ∧ lh'.number = lh.number := by
    intro u lh' hm
    have hx := (h.head k u lh' hm).symm.trans hhead
    exact Prod.mk.inj (Option.some.inj hx)
  have hrest : ∀ lh', .spin k lh' ∉ rest := by
    intro lh' hm
    have hx := ho.numbers
    rw [numbers_leave 0 hw hl] at hx
    refine (List.nodup_append.mp hx).2.2 lh.number (by simp [Locker.number]) lh.number ?_ rfl
    rw [← (hgone t lh' (hl ▸ List.mem_cons_of_mem _ hm)).2]
    exact List.mem_filterMap.mpr ⟨_, by simpa [Thread.numbers] using hm, rfl⟩
  refine ⟨hhead, ?_, h.taken, ?_, ?_, ?_, ?_, ?_⟩
  · intro j u
    have hc := h.mutex j u
    rcases eq_or_ne u t with rfl | hu
    · simpa [hl, List.count_cons] using hc
    · simpa [hu] using hc
  · intro j u
    have hc := h.fast j u
    rcases eq_or_ne u t with rfl | hu
    · simpa [hl, List.count_cons] using hc
    · simpa [hu] using hc
  · intro j u lh' hj
    have hjk : j ≠ k := by
      rintro rfl
      rcases eq_or_ne u t with rfl | hu
      · exact hrest lh' (by simpa using hj)
      · exact hu (hgone u lh' (by simpa [hu] using hj)).1
    rcases eq_or_ne u t with rfl | hu
    · simpa [hjk] using h.head j u lh' (hl ▸ List.mem_cons_of_mem _ (by simpa using hj))
    · simpa [hjk] using h.head j u lh' (by simpa [hu] using hj)
  · intro j
    rcases eq_or_ne j k with rfl | hj
    · simpa using (h.queue j).tail
    · simpa [hj] using h.queue j
  · intro j e he
    rcases eq_or_ne j k with rfl | hj
    · exact h.known j e (List.mem_of_mem_tail (by simpa using he))
    · exact h.known j e (by simpa [hj] using he)
  · intro u
    rcases eq_or_ne u t with rfl | hu
    · rw [Sys.put_thread, update_self]
      exact ho.leave hw hl hr.1 hr.2 rfl
    · have hqueued : ∀ j lh', (s.thread u).waiting = some (.spin j lh') →
          (u, lh'.number) ∈ update s.spin k (s.spin k).tail j := by
        intro j lh' hj
        have hm := (h.orderly u).queued j lh' hj
        rcases eq_or_ne j k with rfl | hjk
        · rw [hq] at hm
          simpa [hq, hu] using hm
        · simpa [hjk] using hm
      have hc : Orderly (base u) ({ s with spin := update s.spin k (s.spin k).tail }.put t
          { s.thread t with irql := lh.oldIrql, lockers := rest }) u (s.thread u) :=
        (h.orderly u).congr (fun _ _ => rfl) le_rfl hqueued
      simpa [hu] using hc

/-- The destructor of the innermost locker finds the lock in its thread's possession. -/
theorem leave_spec (h : Nested base s) (hp : Permitted s (.leave t)) :
    ∃ s', leave t s = some s' ∧ Nested base s' := by
  obtain ⟨hw, hl⟩ := hp
  cases hs : (s.thread t).lockers with
  | nil => exact absurd hs hl
  | cons l rest =>
    cases l with
    | mutex k =>
      obtain ⟨m, hm, hn⟩ := nested_leave_mutex h hw hs
      exact ⟨_, by simp only [leave, hs, hm, Option.map_some], hn⟩
    | fast k =>
      obtain ⟨q, hq, hn⟩ := nested_leave_fast h hw hs
      exact ⟨_, by simp only [leave, hs, hq, if_true], hn⟩
    | spin k lh =>
      obtain ⟨hq, hn⟩ := nested_leave_spin h hw hs
      exact ⟨_, by simp only [leave, hs, hq, if_true], hn⟩

/-- Getting a lock keeps locks and lockers in agreement. -/
theorem pass_spec (h : Nested base s) (hs : getLock t s = some s') : Nested base s' := by
  simp only [getLock] at hs
  cases hw : (s.thread t).waiting with
  | none => simp [hw] at hs
  | some l =>
    cases l with
    | mutex k =>
      simp only [hw] at hs
      obtain ⟨m, hm, rfl⟩ := Option.map_eq_some_iff.mp hs
      exact nested_pass_mutex h hw hm
    | fast k =>
      cases hk : s.fast k with
      | some e => simp [hw, hk] at hs
      | none =>
        simp only [hw, hk, Option.some.injEq] at hs
        exact hs ▸ nested_pass_fast h hw hk
    | spin k lh =>
      simp only [hw] at hs
      split_ifs at hs with hk
      exact Option.some.inj hs ▸ nested_pass_spin h hw hk

/-- So does every step. -/
theorem nested_step {a : Act T K} (h : Nested base s) (hp : Permitted s a)
    (hs : step s a = some s') : Nested base s' := by
  cases a with
  | enter t kind k =>
    obtain rfl := Option.some.inj hs
    cases kind with
    | mutex => exact nested_waits h hp.1 rfl
    | fast => exact nested_waits h hp.1 rfl
    | spin => exact nested_queues h hp k
  | pass t => exact pass_spec h hs
  | leave t =>
    obtain ⟨s'', hs'', hn⟩ := leave_spec h hp
    rw [step, hs''] at hs
    exact Option.some.inj hs ▸ hn

/-- And every run. -/
theorem nested_run {irql : T → ℕ} {as : List (Act T K)} (hp : Along Permitted step (start irql) as)
    (hs : run step (start irql) as = some s) : Nested irql s :=
  along_invariant (fun _ _ _ h hp hs => nested_step h hp hs) (nested_start irql) hp hs

end Invariant

section Scoped

variable {T K : Type} [DecidableEq T] [DecidableEq K]

/-- The lock of a locker. -/
def Locker.lock : Locker K → Kind × K
  | .mutex k => (.mutex, k)
  | .fast k => (.fast, k)
  | .spin k _ => (.spin, k)

/-- How many lockers of a thread have a lock. -/
def Sys.holds (s : Sys T K) (t : T) (x : Kind × K) : ℕ :=
  (s.thread t).lockers.countP fun l => l.lock = x

/-- Scoped locking works. -/
structure WellScoped (irql : T → ℕ) (s : Sys T K) : Prop where
  /-- A destructor never gives back a lock that its thread does not have. -/
  leaves : ∀ t, Permitted s (.leave t) → ∃ s', step s (.leave t) = some s'
  /-- Two threads never have one lock. -/
  exclusive : ∀ t u x, 0 < s.holds t x → 0 < s.holds u x → t = u
  /-- A `KMUTEX` is owned as often as lockers for it are open ... -/
  again : ∀ t k n, s.mutex k = some (t, n) ↔ s.holds t (.mutex, k) = n ∧ 0 < n
  /-- ... and the other locks by one locker. -/
  once : ∀ t k, s.holds t (.fast, k) ≤ 1 ∧ s.holds t (.spin, k) ≤ 1
  /-- A thread without lockers is at its own level. -/
  back : ∀ t, (s.thread t).lockers = [] → (s.thread t).waiting = none → (s.thread t).irql = irql t

variable {irql : T → ℕ} {s : Sys T K} {t u : T} {k : K}

omit [DecidableEq T] in
theorem holds_mutex (s : Sys T K) (t : T) (k : K) :
    s.holds t (.mutex, k) = (s.thread t).lockers.count (.mutex k) := by
  refine List.countP_congr fun l _ => ?_
  cases l <;> simp [Locker.lock]

omit [DecidableEq T] in
theorem holds_fast (s : Sys T K) (t : T) (k : K) :
    s.holds t (.fast, k) = (s.thread t).lockers.count (.fast k) := by
  refine List.countP_congr fun l _ => ?_
  cases l <;> simp [Locker.lock]

omit [DecidableEq T] in
/-- Whoever has a spin lock has a locker with a handle for it. -/
theorem exists_spin (h : 0 < s.holds t (.spin, k)) : ∃ lh, .spin k lh ∈ (s.thread t).lockers := by
  obtain ⟨l, hm, hl⟩ := List.countP_pos_iff.mp h
  cases l with
  | spin j lh =>
    obtain rfl : j = k := by simpa [Locker.lock] using hl
    exact ⟨lh, hm⟩
  | mutex j | fast j => simp [Locker.lock] at hl

/-- Lockers for a spin lock would have handles of one number. -/
theorem holds_spin_le (h : Nested irql s) (t : T) (k : K) : s.holds t (.spin, k) ≤ 1 := by
  have hnd : ((s.thread t).lockers.filterMap Locker.number).Nodup := by
    have hx := (h.orderly t).numbers
    rw [Thread.numbers, List.filterMap_append] at hx
    exact (List.nodup_append.mp hx).2.1
  have hone : ∀ lh lh', .spin k lh ∈ (s.thread t).lockers → .spin k lh' ∈ (s.thread t).lockers →
      lh.number = lh'.number := by
    intro lh lh' hl hl'
    have hx := (h.head k t lh hl).symm.trans (h.head k t lh' hl')
    exact (Prod.mk.inj (Option.some.inj hx)).2
  unfold Sys.holds
  generalize (s.thread t).lockers = l at hnd hone
  induction l with
  | nil => simp
  | cons m l ih =>
    have hrest := ih (hnd.sublist ((List.sublist_cons_self m l).filterMap _)) fun lh lh' hl hl' =>
      hone lh lh' (List.mem_cons_of_mem _ hl) (List.mem_cons_of_mem _ hl')
    by_cases hm : m.lock = (.spin, k)
    · -- the rest of the lockers cannot have the number of this one
      have hzero : l.countP (fun x => x.lock = (.spin, k)) = 0 := by
        rw [List.countP_eq_zero]
        intro x hx hxl
        cases m with
        | spin j lh =>
          cases x with
          | spin j' lh' =>
            obtain rfl : j = k := by simpa [Locker.lock] using hm
            obtain rfl : j' = j := by simpa [Locker.lock] using hxl
            have hn := hone lh lh' List.mem_cons_self (List.mem_cons_of_mem _ hx)
            rw [List.filterMap_cons] at hnd
            exact (List.nodup_cons.mp hnd).1 (hn ▸ List.mem_filterMap.mpr ⟨_, hx, rfl⟩)
          | mutex j' | fast j' => simp [Locker.lock] at hxl
        | mutex j | fast j => simp [Locker.lock] at hm
      simp [hm, hzero]
    · simpa [hm] using hrest

/-- Locks and lockers that agree are well scoped. -/
theorem Nested.wellScoped (h : Nested irql s) : WellScoped irql s where
  leaves t hp := by
    obtain ⟨s', hs, -⟩ := leave_spec h hp
    exact ⟨s', hs⟩
  exclusive := by
    rintro t u ⟨kind, k⟩ ht hu
    cases kind with
    | mutex =>
      rw [holds_mutex, h.mutex] at ht hu
      cases hk : s.mutex k with
      | none => simp [hk, depth] at ht
      | some e =>
        simp only [hk, depth] at ht hu
        split_ifs at ht hu with h1 h2 <;> first | exact h1.symm.trans h2 | omega
    | fast =>
      rw [holds_fast, h.fast] at ht hu
      cases hk : s.fast k with
      | none => simp [hk, depth] at ht
      | some e =>
        simp only [hk, depth, Option.map_some] at ht hu
        split_ifs at ht hu with h1 h2 <;> first | exact h1.symm.trans h2 | omega
    | spin =>
      obtain ⟨lh, hl⟩ := exists_spin ht
      obtain ⟨lh', hl'⟩ := exists_spin hu
      exact (Prod.mk.inj (Option.some.inj ((h.head k t lh hl).symm.trans (h.head k u lh' hl')))).1
  again t k n := by
    rw [holds_mutex, h.mutex]
    constructor
    · intro hk
      exact ⟨by simp [hk, depth], h.taken k t n hk⟩
    · rintro ⟨hd, hn⟩
      cases hk : s.mutex k with
      | none =>
        simp only [hk, depth] at hd
        omega
      | some e =>
        simp only [hk, depth] at hd
        split_ifs at hd with he
        · rw [← he, ← hd]
        · omega
  once t k := by
    refine ⟨?_, holds_spin_le h t k⟩
    rw [holds_fast, h.fast]
    cases s.fast k with
    | none => simp [depth]
    | some e =>
      simp only [depth, Option.map_some]
      split_ifs <;> omega
  back t hl hw := by
    have hi := (h.orderly t).irql
    simpa [Thread.level, hw, hl, level] using hi

/-- However threads nest lockers of the three classes: each destructor gives back what its
constructor took, no lock is ever in two threads, and a thread ends at its own level. -/
theorem lockers_nest (irql : T → ℕ) {as : List (Act T K)} {s : Sys T K}
    (hp : Along Permitted step (start irql) as) (hs : run step (start irql) as = some s) :
    WellScoped irql s :=
  (nested_run hp hs).wellScoped

/-- Two threads, of which one nests all three classes and takes the mutex twice. -/
def nesting : List (Act Bool ℕ) :=
  [.enter true .mutex 0, .pass true, .enter false .mutex 0, .enter true .fast 1, .pass true,
    .enter true .mutex 0, .pass true, .enter true .spin 2, .pass true, .leave true, .leave true]

theorem lockers_nest_nesting :
    ∃ s, run step (start fun _ => 0) nesting = some s ∧ WellScoped (fun _ => 0) s :=
  ⟨_, rfl, lockers_nest _ (show Along Permitted step (start fun _ => 0) nesting by decide) rfl⟩

end Scoped

end KernelLib.ScopedLockers
