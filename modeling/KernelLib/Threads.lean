import KernelLib.ShareCounts
import KernelLib.StepRuns
import Mathlib.Logic.Function.Basic

/-!
# Thread objects

A `thread` starts a kernel thread on a copy of a callable, which the two
share: the constructor by its `ptr`, `ThreadProc` by a holder that it
releases at its end. The `thread` keeps a reference on the kernel thread,
which can be moved, swapped, waited for and dropped. All that one constructor
makes is a function of three things: where the constructor is, where the
kernel thread is, and how many `thread`s refer to it.
-/

namespace KernelLib.Threads

open ShareCounts StepRuns

section Counters

/-- A counted object as long as something refers to it. -/
def counted (n : ℕ) : Option ℕ := if n = 0 then none else some n

/-- Take a reference. -/
def retain : Option ℕ → Option (Option ℕ)
  | none => none
  | some n => some (some (n + 1))

/-- Drop a reference; the last one deletes the object. -/
def release : Option ℕ → Option (Option ℕ)
  | none => none
  | some n => some (if n = 1 then none else some (n - 1))

@[simp] theorem counted_zero : counted 0 = none := rfl

/-- A thread with references counts them. -/
@[simp] theorem counted_succ (n : ℕ) : counted (n + 1) = some (n + 1) := rfl

/-- Only a thread with references has a count. -/
@[simp] theorem isSome_counted {n : ℕ} : (counted n).isSome ↔ 0 < n := by
  cases n <;> simp

/-- A reference that is given up is counted down. -/
theorem release_counted (n : ℕ) : release (counted (n + 1)) = some (counted n) := by
  cases n <;> simp [release]

end Counters

/-- Where a constructor is. -/
inductive Point where
  /-- In `make_shared`, before the control block. -/
  | ref
  /-- In `make_shared`, before the copy of the callable. -/
  | object
  /-- Before `new shared_ref_item`. -/
  | holder
  /-- Before `PsCreateSystemThread`. -/
  | createThread
  /-- Before `ObReferenceObjectByHandle`. -/
  | reference
  /-- Before `ZwClose`. -/
  | close
  /-- Before `ptr` goes. -/
  | leave
  deriving DecidableEq, Repr

/-- Where a kernel thread is in `ThreadProc`. -/
inductive Pc where
  /-- Before the call. -/
  | begun
  /-- In the call. -/
  | calling
  /-- Before `holder->release()`. -/
  | called
  /-- Before `PsTerminateSystemThread`. -/
  | released
  /-- The thread is over, and its object signalled. -/
  | terminated
  deriving DecidableEq, Repr

/-- What one constructor makes. -/
structure Job where
  /-- Where that constructor is, until it returns. -/
  ctor : Option Point
  /-- `_pn` of the shared callable. -/
  pn : Option ℕ
  /-- Whether the callable exists. -/
  functor : Bool
  /-- `_pn` of the holder. -/
  holder : Option ℕ
  /-- The kernel thread, once it was created. -/
  thread : Option Pc
  /-- The references on the thread's object. -/
  object : Option ℕ
  /-- Whether `hThread` is open. -/
  hThread : Bool
  /-- How often the callable has returned. -/
  calls : ℕ
  deriving DecidableEq, Repr

/-- What the owner of a `thread` does with it. -/
inductive Owner where
  /-- Nothing. -/
  | idle
  /-- It constructs it. -/
  | constructing (j : ℕ)
  /-- It waits, in `detach` or `then`. -/
  | waiting
  deriving DecidableEq, Repr

/-- The `thread`s of a driver, and all that was made for them. -/
structure Sys (S : Type) where
  /-- The `thread`s that exist. -/
  live : Finset S
  /-- `_thread` in each of them. -/
  thread : S → Option ℕ
  /-- What their owners do. -/
  owner : S → Owner
  /-- What was made, in the order of the constructors. -/
  job : ℕ → Job
  /-- How many constructors there were. -/
  jobs : ℕ
  /-- The threads that were waited for. -/
  joined : List ℕ

/-- A step of a run. -/
inductive Act (S : Type) where
  /-- `thread()`. -/
  | default (i : S)
  /-- `thread(_Fx)` and `thread(_Fx, param)` begin. -/
  | construct (i : S)
  /-- A constructor goes on; the flag says whether what it requests is granted. -/
  | make (i : S) (ok : Bool)
  /-- `thread(thread&& r)`. -/
  | moveConstruct (i r : S)
  /-- `operator=(thread&& r)`. -/
  | moveAssign (i r : S)
  /-- `swap(r)`. -/
  | swap (i r : S)
  /-- `detach()` and `then()`, up to the wait. -/
  | detach (i : S)
  /-- The wait ends. -/
  | waited (i : S)
  /-- `~thread()`. -/
  | destroy (i : S)
  /-- A kernel thread goes on. -/
  | thread (j : ℕ)
  deriving DecidableEq, Repr

section Source

/-- The destructor of a `shared_ptr` on the callable. -/
def Job.releaseFunctor (b : Job) : Option Job :=
  match b.pn with
  | none => none
  | some n =>
    if n = 1 then if b.functor then some { b with functor := false, pn := none } else none
    else some { b with pn := some (n - 1) }

/-- `holder->release()`. -/
def Job.releaseHolder (b : Job) : Option Job :=
  match b.holder with
  | none => none
  | some n =>
    if n = 1 then { b with holder := none }.releaseFunctor
    else some { b with holder := some (n - 1) }

/-- `ObDereferenceObject`. -/
def Job.dereference (b : Job) : Option Job := (release b.object).map fun o => { b with object := o }

/-- The next step of `ThreadProc`. -/
def Job.threadProc (b : Job) : Option Job :=
  match b.thread with
  | some .begun =>
    if b.holder.isSome ∧ b.functor then some { b with thread := some .calling } else none
  | some .calling =>
    if b.holder.isSome ∧ b.functor then
      some { b with thread := some .called, calls := b.calls + 1 }
    else none
  | some .called => b.releaseHolder.map fun b => { b with thread := some .released }
  | some .released => b.dereference.map fun b => { b with thread := some .terminated }
  | some .terminated | none => none

/-- A constructor goes on: what it has made, and `_thread` if it is set here. It leaves the
block with `ctor` none. -/
def Job.make (ok : Bool) (b : Job) : Option (Job × Bool) :=
  match b.ctor with
  | some .ref =>
    if ok then some ({ b with pn := some 1, ctor := some .object }, false)
    else some ({ b with ctor := none }, false)
  | some .object =>
    if ok then some ({ b with functor := true, ctor := some .holder }, false)
    -- `delete ref`
    else if b.pn.isSome then some ({ b with pn := none, ctor := none }, false) else none
  | some .holder =>
    if ok then
      (retain b.pn).map fun n => ({ b with pn := n, holder := some 1, ctor := some .createThread }, false)
    else b.releaseFunctor.map fun b => ({ b with ctor := none }, false)
  | some .createThread =>
    if ok then
      -- the object is referenced by the thread and by the handle
      some ({ b with
        thread := some .begun
        object := some 2
        hThread := true
        ctor := some .reference }, false)
    else (b.releaseHolder.bind Job.releaseFunctor).map fun b => ({ b with ctor := none }, false)
  | some .reference =>
    if ok then (retain b.object).map fun o => ({ b with object := o, ctor := some .close }, true)
    else some ({ b with ctor := some .close }, false)
  | some .close =>
    if b.hThread then
      b.dereference.map fun b => ({ b with hThread := false, ctor := some .leave }, false)
    else none
  | some .leave => b.releaseFunctor.map fun b => ({ b with ctor := none }, false)
  | none => none

/-- Nothing was made yet. -/
def Job.new : Job := ⟨none, none, false, none, none, none, false, 0⟩

variable {S : Type} [DecidableEq S]

/-- There are no threads. -/
def Sys.init : Sys S := ⟨∅, fun _ => none, fun _ => .idle, fun _ => .new, 0, []⟩

/-- A `thread` comes to be. -/
def Sys.add (i : S) (p : Option ℕ) (o : Owner) (s : Sys S) : Sys S :=
  { s with
    live := insert i s.live
    thread := Function.update s.thread i p
    owner := Function.update s.owner i o }

/-- `_thread = p`. -/
def Sys.setThread (i : S) (p : Option ℕ) (s : Sys S) : Sys S :=
  { s with thread := Function.update s.thread i p }

/-- What was made by one constructor changes. -/
def Sys.setJob (j : ℕ) (b : Job) (s : Sys S) : Sys S :=
  { s with job := Function.update s.job j b }

/-- The owner of a `thread` does something else. -/
def Sys.setOwner (i : S) (o : Owner) (s : Sys S) : Sys S :=
  { s with owner := Function.update s.owner i o }

/-- `ObDereferenceObject(_thread); _thread = NULL`. -/
def Sys.drop (i : S) (j : ℕ) (s : Sys S) : Option (Sys S) :=
  (s.job j).dereference.map fun b => (s.setJob j b).setThread i none

/-- `swap`. -/
def Sys.swap (i r : S) (s : Sys S) : Sys S :=
  if i = r then s
  else
    let temp := s.thread i
    (s.setThread i (s.thread r)).setThread r temp

/-- A constructor of `thread` goes on. -/
def Sys.make (i : S) (ok : Bool) (s : Sys S) : Option (Sys S) :=
  match s.owner i with
  | .constructing j => ((s.job j).make ok).map fun x =>
    let s := s.setJob j x.1
    let s := if x.2 then s.setThread i (some j) else s
    if x.1.ctor.isNone then s.setOwner i .idle else s
  | _ => none

/-- Take one step. -/
def step (s : Sys S) : Act S → Option (Sys S)
  | .default i => some (s.add i none .idle)
  | .construct i =>
    some { (s.add i none (.constructing s.jobs)).setJob s.jobs { Job.new with ctor := some .ref } with
      jobs := s.jobs + 1 }
  | .make i ok => s.make i ok
  | .moveConstruct i r => some ((s.add i (s.thread r) .idle).setThread r none)
  | .moveAssign i r => some (s.swap r i)
  | .swap i r => some (s.swap i r)
  | .detach i =>
    match s.thread i with
    | none => some s
    | some j => if (s.job j).object.isSome then some (s.setOwner i .waiting) else none
  | .waited i =>
    match s.thread i with
    | none => none
    | some j => (s.drop i j).map fun s => { s.setOwner i .idle with joined := s.joined ++ [j] }
  | .destroy i =>
    match s.thread i with
    | none => some { s with live := s.live.erase i }
    | some j => (s.drop i j).map fun s => { s with live := s.live.erase i }
  | .thread j => (s.job j).threadProc.map fun b => s.setJob j b

/-- A `thread` exists, and its owner is in no call. -/
def Idle (s : Sys S) (i : S) : Prop := i ∈ s.live ∧ s.owner i = .idle

/-- The kernel thread has a step to take. -/
def Runs (s : Sys S) (j : ℕ) : Prop := (s.job j).thread.isSome ∧ (s.job j).thread ≠ some .terminated

instance decidableIdle (s : Sys S) (i : S) : Decidable (Idle s i) :=
  inferInstanceAs (Decidable (_ ∧ _))

instance decidableRuns (s : Sys S) (j : ℕ) : Decidable (Runs s j) :=
  inferInstanceAs (Decidable (_ ∧ _))

/-- Threads run as they like. A `thread` is constructed where there is none and is used by one
owner at a time; a wait ends once the kernel thread is over. -/
def Permitted (s : Sys S) : Act S → Prop
  | .default i | .construct i => i ∉ s.live
  | .make i _ => i ∈ s.live ∧ s.owner i ≠ .idle ∧ s.owner i ≠ .waiting
  | .moveConstruct i r => i ∉ s.live ∧ Idle s r
  | .moveAssign i r | .swap i r => Idle s i ∧ Idle s r
  | .detach i | .destroy i => Idle s i
  | .waited i => i ∈ s.live ∧ s.owner i = .waiting ∧ ¬(s.thread i).any fun j => Runs s j
  | .thread j => Runs s j

instance decidablePermitted (s : Sys S) : ∀ a, Decidable (Permitted s a)
  | .default _ | .construct _ => inferInstanceAs (Decidable (_ ∉ _))
  | .make _ _ | .waited _ => inferInstanceAs (Decidable (_ ∧ _ ∧ _))
  | .moveConstruct _ _ | .moveAssign _ _ | .swap _ _ => inferInstanceAs (Decidable (_ ∧ _))
  | .detach _ | .destroy _ => decidableIdle _ _
  | .thread _ => decidableRuns _ _

end Source

section Jobs

/-- References on the callable by `ptr`. -/
def byPtr : Option Point → ℕ
  | none | some .ref => 0
  | _ => 1

/-- References on the holder by the constructor, until there is a thread. -/
def byCtor : Option Point → ℕ
  | some .createThread => 1
  | _ => 0

/-- References on the holder by the thread. -/
def byProc : Option Pc → ℕ
  | some .begun | some .calling | some .called => 1
  | _ => 0

/-- References on the callable by the holder. -/
def byHolder (w : Option Point) (k : Option Pc) : ℕ := byCtor w + byProc k

/-- Whether the callable has been copied, and is not deleted. -/
def copied : Option Point → Option Pc → Bool
  | none, k => 0 < byProc k
  | some .ref, _ | some .object, _ => false
  | _, _ => true

/-- Whether `hThread` is open. -/
def opened : Option Point → Bool
  | some .reference | some .close => true
  | _ => false

/-- References on the object of the thread by itself. -/
def byThread : Option Pc → ℕ
  | none | some .terminated => 0
  | _ => 1

/-- How often the callable has returned. -/
def returned : Option Pc → ℕ
  | some .called | some .released | some .terminated => 1
  | _ => 0

/-- All that there is of a job with `n` references by `thread`s. -/
def Job.of (w : Option Point) (k : Option Pc) (n : ℕ) : Job where
  ctor := w
  pn := counted (byPtr w + byHolder w k)
  functor := copied w k
  holder := counted (byHolder w k)
  thread := k
  object := counted (byThread k + (opened w).toNat + n)
  hThread := opened w
  calls := returned k

/-- The thread is created after the holder, and referenced after that. -/
def Fits : Option Point → Option Pc → ℕ → Prop
  | some .reference, k, n => k.isSome ∧ n = 0
  | some .close, k, _ | some .leave, k, _ => k.isSome
  | none, k, n => 0 < n → k.isSome
  | _, k, n => k = none ∧ n = 0

variable {w : Option Point} {k : Option Pc} {n : ℕ}

/-- A job without a thread is new. -/
theorem of_new : Job.of none none 0 = Job.new := rfl

/-- The callable goes with its last reference. -/
theorem releaseFunctor_eq {b : Job} {m : ℕ} (hp : b.pn = counted (m + 1)) (hf : b.functor = true) :
    b.releaseFunctor = some { b with pn := counted m, functor := 0 < m } := by
  cases m with
  | zero => simp [Job.releaseFunctor, hp, hf]
  | succ m => simp [Job.releaseFunctor, hp, ← hf]

/-- A reference by a `thread` is dropped. -/
theorem dereference_of : (Job.of w k (n + 1)).dereference = some (Job.of w k n) := by
  simp only [Job.dereference, Job.of, ← Nat.add_assoc, release_counted, Option.map_some]

/-- Giving up a reference leaves the rest of the job. -/
theorem dereference_cases {b c : Job} (h : b.dereference = some c) :
    c.ctor = b.ctor ∧ c.thread = b.thread := by
  obtain ⟨o, -, rfl⟩ := Option.map_eq_some_iff.mp h
  exact ⟨rfl, rfl⟩

/-- What fits with one more reference fits without it. -/
theorem fits_of_succ (h : Fits w k (n + 1)) : Fits w k n := by
  cases w with
  | none => exact fun _ => h n.succ_pos
  | some p => cases p <;> simp_all [Fits]

/-- A thread with references was created. -/
theorem isSome_of_fits (h : Fits w k n) (hn : 0 < n) : k.isSome := by
  cases w with
  | none => exact h hn
  | some p => cases p <;> simp_all [Fits]

/-- One step of a constructor. -/
structure Made (p : Point) (ok : Bool) (k : Option Pc) (n : ℕ) (w' : Option Point)
    (k' : Option Pc) (b : Bool) : Prop where
  make : (Job.of (some p) k n).make ok = some (Job.of w' k' (n + b.toNat), b)
  fits : Fits w' k' (n + b.toNat)
  set : b = true ↔ p = .reference ∧ ok = true
  stay : b = true → n = 0 ∧ w' = some .close
  thread : k' = k ∧ w' ≠ some .reference ∨
    k' = some .begun ∧ w' = some .reference ∧ p = .createThread

/-- A constructor goes on or is over, and what it leaves is accounted for. -/
theorem exists_made {p : Point} (ok : Bool) (h : Fits (some p) k n) :
    ∃ w' k' b, Made p ok k n w' k' b := by
  cases p with
  | ref =>
    obtain ⟨rfl, rfl⟩ := h
    cases ok
    · exact ⟨none, none, false, rfl, by simp [Fits], by simp, by simp, .inl ⟨rfl, by simp⟩⟩
    · exact ⟨some .object, none, false, rfl, ⟨rfl, rfl⟩, by simp, by simp, .inl ⟨rfl, by simp⟩⟩
  | object =>
    obtain ⟨rfl, rfl⟩ := h
    cases ok
    · exact ⟨none, none, false, rfl, by simp [Fits], by simp, by simp, .inl ⟨rfl, by simp⟩⟩
    · exact ⟨some .holder, none, false, rfl, ⟨rfl, rfl⟩, by simp, by simp, .inl ⟨rfl, by simp⟩⟩
  | holder =>
    obtain ⟨rfl, rfl⟩ := h
    cases ok
    · exact ⟨none, none, false, rfl, by simp [Fits], by simp, by simp, .inl ⟨rfl, by simp⟩⟩
    · exact ⟨some .createThread, none, false, rfl, ⟨rfl, rfl⟩, by simp, by simp, .inl ⟨rfl, by simp⟩⟩
  | createThread =>
    obtain ⟨rfl, rfl⟩ := h
    cases ok
    · exact ⟨none, none, false, rfl, by simp [Fits], by simp, by simp, .inl ⟨rfl, by simp⟩⟩
    · exact ⟨some .reference, some .begun, false, rfl, ⟨rfl, rfl⟩, by simp, by simp, .inr ⟨rfl, rfl, rfl⟩⟩
  | reference =>
    obtain ⟨hk, rfl⟩ := h
    cases ok
    · exact ⟨some .close, k, false, rfl, hk, by simp, by simp, .inl ⟨rfl, by simp⟩⟩
    · exact ⟨some .close, k, true, rfl, hk, by simp, by simp, .inl ⟨rfl, by simp⟩⟩
  | close =>
    refine ⟨some .leave, k, false, ?_, h, by simp, by simp, .inl ⟨rfl, by simp⟩⟩
    have ho : release (counted (byThread k + 1 + n)) = some (counted (byThread k + n)) := by
      rw [Nat.add_right_comm, release_counted]
    simp only [Job.make, Job.of, Job.dereference, opened, Bool.toNat_true, ho]
    rfl
  | leave =>
    refine ⟨none, k, false, ?_, fun _ => h, by simp, by simp, .inl ⟨rfl, by simp⟩⟩
    have hb : (Job.of (some .leave) k n).releaseFunctor =
        some { Job.of (some .leave) k n with pn := counted (byProc k), functor := 0 < byProc k } :=
      releaseFunctor_eq (by simp [Job.of, byPtr, byHolder, byCtor, Nat.add_comm 1]) rfl
    simp only [Job.make, show (Job.of (some .leave) k n).ctor = some .leave from rfl, hb]
    simp [Job.of, byPtr, byHolder, byCtor, copied, opened]

/-- With a thread, the constructor is past its creation. -/
theorem past_of_fits {x : Pc} (h : Fits w (some x) n) :
    w = none ∨ w = some .reference ∨ w = some .close ∨ w = some .leave := by
  cases w with
  | none => exact .inl rfl
  | some p => cases p <;> simp_all [Fits]

/-- A thread goes on. -/
theorem threadProc_of (h : Fits w k n) (hk : k.isSome) (ht : k ≠ some .terminated) :
    ∃ k', (Job.of w k n).threadProc = some (Job.of w (some k') n) ∧ Fits w (some k') n := by
  obtain ⟨k, rfl⟩ := Option.isSome_iff_exists.mp hk
  have hw := past_of_fits h
  have hfits : ∀ k', Fits w (some k') n := fun k' => by
    rcases hw with rfl | rfl | rfl | rfl <;> first | exact fun _ => rfl | exact h
  cases k with
  | begun => exact ⟨.calling, by rcases hw with rfl | rfl | rfl | rfl <;> rfl, hfits _⟩
  | calling => exact ⟨.called, by rcases hw with rfl | rfl | rfl | rfl <;> rfl, hfits _⟩
  | called => exact ⟨.released, by rcases hw with rfl | rfl | rfl | rfl <;> rfl, hfits _⟩
  | released =>
    refine ⟨.terminated, ?_, hfits _⟩
    have ho : release (counted (1 + (opened w).toNat + n)) =
        some (counted (0 + (opened w).toNat + n)) := by
      rw [Nat.zero_add, Nat.add_assoc, Nat.add_comm 1, release_counted]
    simp only [Job.threadProc, Job.of, Job.dereference, byThread, ho]
    rcases hw with rfl | rfl | rfl | rfl <;> rfl
  | terminated => exact absurd rfl ht

end Jobs

section References

variable {S : Type} [DecidableEq S] {s : Sys S} {i r : S} {j : ℕ}

/-- How many `thread`s refer to a kernel thread. -/
def refs (s : Sys S) (j : ℕ) : ℕ := count s.live s.thread j

/-- A new object without a thread adds no reference. -/
theorem refs_add (hi : i ∉ s.live) (o : Owner) : refs (s.add i none o) j = refs s j := by
  rw [refs, Sys.add, count_insert (by simp), refs]
  exact count_congr fun x hx => Function.update_of_ne (ne_of_mem_of_not_mem hx hi) _ _

/-- An object that gets a thread adds a reference to it. -/
theorem refs_set (hi : i ∈ s.live) (hn : s.thread i = none) (j' : ℕ) :
    refs (s.setThread i (some j)) j' = refs s j' + if j' = j then 1 else 0 := by
  have hothers : ∀ x ∈ s.live, x ≠ i → (s.setThread i (some j)).thread x = s.thread x :=
    fun x _ hx => Function.update_of_ne hx _ _
  split_ifs with hj
  · subst hj
    exact count_gain hi hn (Function.update_self ..) hothers
  · exact count_of_ne (.inl hn) (.inr (Function.update_self ..)) hj hothers

/-- An object that gives its thread up takes one away. -/
theorem refs_clear (hi : i ∈ s.live) (hj : s.thread i = some j) (j' : ℕ) :
    refs s j' = refs (s.setThread i none) j' + if j' = j then 1 else 0 := by
  have h := refs_set (s := s.setThread i none) (j := j) hi (Function.update_self ..) j'
  have hs : (s.setThread i none).setThread i (some j) = s := by
    simp [Sys.setThread, ← hj]
  rwa [hs] at h

/-- A swap exchanges the threads of two objects. -/
theorem swap_eq (i r : S) (s : Sys S) :
    s.swap i r = { s with thread := fun x => s.thread (Equiv.swap i r x) } := by
  unfold Sys.swap
  split_ifs with h
  · simp [h]
  · refine congrArg (fun f => { s with thread := f }) (funext fun x => ?_)
    simp only [Sys.setThread, Function.update_apply, Equiv.swap_apply_def]
    grind

/-- It leaves the numbers of references. -/
theorem refs_swap (hi : i ∈ s.live) (hr : r ∈ s.live) : refs (s.swap i r) j = refs s j := by
  rw [swap_eq]
  exact count_exchange hi hr fun _ _ => rfl

/-- Moving out of a `thread` is swapping with an empty one. -/
theorem moveConstruct_eq (hne : i ≠ r) :
    (s.add i (s.thread r) .idle).setThread r none = (s.add i none .idle).swap i r := by
  simp only [Sys.swap, if_neg hne, Sys.setThread, Sys.add, Function.update_self,
    Function.update_of_ne hne.symm, Function.update_idem]

/-- A constructor has gone on. -/
def Sys.advance (i : S) (j : ℕ) (b : Job) (set : Bool) (n : ℕ) (s : Sys S) : Sys S :=
  { s with
    job := Function.update s.job j b
    thread := if set then Function.update s.thread i (some j) else s.thread
    owner := Function.update s.owner i (if b.ctor.isNone then .idle else .constructing j)
    jobs := n }

/-- A constructor that goes on changes its job and its own thread. -/
theorem make_eq {ok set : Bool} {b : Job} (ho : s.owner i = .constructing j)
    (hm : (s.job j).make ok = some (b, set)) : s.make i ok = some (s.advance i j b set s.jobs) := by
  rw [Sys.make, ho]
  simp only [hm, Option.map_some, Option.some.injEq]
  cases set <;> cases hn : b.ctor <;>
    simp [Sys.advance, Sys.setJob, Sys.setThread, Sys.setOwner, hn, ← ho]

end References

end KernelLib.Threads
