import KernelLib.ScopedLockers

/-!
# Lockers that wait for ever

A constructor of a locker waits for the owner of a mutex, or for the threads in
front of it in the queue of a spin lock. A set of threads in which each waits
for another one, or for itself, never gets on again, whatever the rest of the
threads do. A `mutex_fast` and a `spin_lock` that are taken twice by one
thread are such sets of one thread; a `mutex` is not, as its owner may take
it again.
-/

namespace KernelLib.LockerWaits

open Function StepRuns ScopedLockers

variable {T K : Type} [DecidableEq T] [DecidableEq K]

/-- A thread is in the constructor of a locker and has to wait for another one. -/
def WaitsFor (s : Sys T K) (t u : T) : Prop :=
  match (s.thread t).waiting with
  | none => False
  | some (.mutex k) => u ≠ t ∧ ∃ n, s.mutex k = some (u, n)
  | some (.fast k) => ∃ oldIrql, s.fast k = some (u, oldIrql)
  | some (.spin k lh) => ∃ n, [(u, n), (t, lh.number)].Sublist (s.spin k)

/-- Each thread of a set waits for a thread of the set. -/
def Stuck (s : Sys T K) (D : T → Prop) : Prop := ∀ t, D t → ∃ u, D u ∧ WaitsFor s t u

variable {s s' : Sys T K} {t u v : T} {D : T → Prop} {irql : T → ℕ}

omit [DecidableEq T] [DecidableEq K] in
theorem WaitsFor.waiting (h : WaitsFor s t u) : (s.thread t).waiting ≠ none := by
  intro hw
  simp [WaitsFor, hw] at h

/-- What is in front of the head of a queue is not there. -/
theorem not_head {α : Type} {a b : α} {q : List α} (hq : q.Nodup) (h : [a, b].Sublist q) :
    q.head? ≠ some b := by
  intro hb
  cases q with
  | nil => cases hb
  | cons c q =>
    obtain rfl : c = b := Option.some.inj hb
    have hc := (List.nodup_cons.mp hq).1
    cases h with
    | cons _ h => exact hc (h.subset (by simp))
    | cons_cons _ h => exact hc (h.subset (by simp))

/-- A queue that loses another head keeps the order. -/
theorem sublist_tail {α : Type} {a b c : α} {q : List α} (hc : q.head? = some c) (hne : c ≠ a)
    (h : [a, b].Sublist q) : [a, b].Sublist q.tail := by
  cases q with
  | nil => cases hc
  | cons d q =>
    obtain rfl : d = c := Option.some.inj hc
    cases h with
    | cons _ h => exact h
    | cons_cons _ h => exact absurd rfl hne

/-- What is in a queue and not its head is behind it. -/
theorem sublist_of_head {α : Type} {a b : α} {q : List α} (ha : q.head? = some a) (hb : b ∈ q)
    (hne : b ≠ a) : [a, b].Sublist q := by
  cases q with
  | nil => cases ha
  | cons c q =>
    obtain rfl : c = a := Option.some.inj ha
    exact (List.singleton_sublist.mpr ((List.mem_cons.mp hb).resolve_left hne)).cons_cons c

/-- A thread that has a `mutex_fast` or a `spin_lock` and locks it again waits for itself. -/
theorem stuck_twice (h : Nested irql s) {l m : Locker K} (hl : l ∈ (s.thread t).lockers)
    (hm : (s.thread t).waiting = some m) (hlock : m.lock = l.lock) (hkind : m.lock.1 ≠ .mutex) :
    Stuck s (· = t) := by
  intro u hu
  rw [hu]
  refine ⟨t, rfl, ?_⟩
  unfold WaitsFor
  rw [hm]
  cases m with
  | mutex k => exact absurd rfl hkind
  | fast k =>
    cases l with
    | mutex j | spin j lh => simp [Locker.lock] at hlock
    | fast j =>
      obtain rfl : k = j := by simpa [Locker.lock] using hlock
      -- the owner is the thread that has a locker for it
      have hpos := List.count_pos_iff.mpr hl
      rw [h.fast k] at hpos
      cases hk : s.fast k with
      | none => simp [hk, depth] at hpos
      | some e =>
        simp only [hk, Option.map_some, depth] at hpos
        split_ifs at hpos with he
        · exact ⟨e.2, he ▸ hk⟩
        · exact absurd hpos (Nat.lt_irrefl 0)
  | spin k lh =>
    cases l with
    | mutex j | fast j => simp [Locker.lock] at hlock
    | spin j lh' =>
      obtain rfl : k = j := by simpa [Locker.lock] using hlock
      -- the handles of the two lockers differ, and the first one is at the head
      have ho := h.orderly t
      have hne : lh.number ≠ lh'.number := by
        have hn := ho.numbers
        rw [numbers_cons hm] at hn
        intro he
        exact (List.nodup_cons.mp hn).1 (he ▸ List.mem_filterMap.mpr ⟨_, hl, rfl⟩)
      exact ⟨lh'.number, sublist_of_head (h.head k t lh' hl) (ho.queued k lh hm)
        fun he => hne (Prod.mk.inj he).2⟩

/-- Who waits for a thread does not get past the constructor. -/
theorem pass_eq_none (h : Nested irql s) (hw : WaitsFor s t u) : getLock t s = none := by
  unfold WaitsFor at hw
  cases hx : (s.thread t).waiting with
  | none => simp [hx] at hw
  | some l =>
    cases l with
    | mutex k =>
      simp only [hx] at hw
      obtain ⟨hne, n, hk⟩ := hw
      simp [getLock, hx, hk, lockMutex, hne]
    | fast k =>
      simp only [hx] at hw
      obtain ⟨q, hk⟩ := hw
      simp [getLock, hx, hk]
    | spin k lh =>
      simp only [hx] at hw
      obtain ⟨n, hn⟩ := hw
      simp [getLock, hx, not_head (h.queue k) hn]

/-- The thread that takes a step. -/
def actor : Act T K → T
  | .enter t _ _ | .pass t | .leave t => t

/-- What a step of one thread leaves to the others. -/
structure Spares (w : T) (s s' : Sys T K) : Prop where
  thread : ∀ t, t ≠ w → s'.thread t = s.thread t
  mutex : ∀ k u n, u ≠ w → s.mutex k = some (u, n) → s'.mutex k = some (u, n)
  fast : ∀ k u q, u ≠ w → s.fast k = some (u, q) → s'.fast k = some (u, q)
  spin : ∀ k u n e, u ≠ w → [(u, n), e].Sublist (s.spin k) → [(u, n), e].Sublist (s'.spin k)

omit [DecidableEq K] in
/-- A thread that changes only itself. -/
theorem spares_put (s : Sys T K) (w : T) (x : Thread K) : Spares w s (s.put w x) :=
  ⟨fun _ ht => update_of_ne ht _ _, fun _ _ _ _ h => h, fun _ _ _ _ h => h, fun _ _ _ _ _ h => h⟩

/-- A `KMUTEX` changes in the hands of its owner only. -/
theorem spares_mutex {k : K} {w : T} {m : Option (T × ℕ)} (x : Thread K)
    (hm : ∀ u n, u ≠ w → s.mutex k = some (u, n) → m = some (u, n)) :
    Spares w s ({ s with mutex := update s.mutex k m }.put w x) where
  thread _ ht := update_of_ne ht _ _
  mutex j u n hu hj := by
    rcases eq_or_ne j k with rfl | hjk
    · simpa using hm u n hu hj
    · simpa [hjk] using hj
  fast _ _ _ _ h := h
  spin _ _ _ _ _ h := h

theorem spares_fast {k : K} {w : T} {m : Option (T × ℕ)} (x : Thread K)
    (hm : ∀ u q, s.fast k = some (u, q) → u = w) :
    Spares w s ({ s with fast := update s.fast k m }.put w x) where
  thread _ ht := update_of_ne ht _ _
  mutex _ _ _ _ h := h
  fast j u q hu hj := by
    rcases eq_or_ne j k with rfl | hjk
    · exact absurd (hm u q hj) hu
    · simpa [hjk] using hj
  spin _ _ _ _ _ h := h

theorem spares_enter (s : Sys T K) (w : T) (kind : Kind) (k : K) : Spares w s (enter w k s kind) := by
  cases kind with
  | mutex | fast => exact spares_put s w _
  | spin =>
    refine ⟨fun _ ht => update_of_ne ht _ _, fun _ _ _ _ h => h, fun _ _ _ _ h => h, ?_⟩
    intro j u n e _ h
    rcases eq_or_ne j k with rfl | hj
    · simpa [enter] using h.trans (List.sublist_append_left ..)
    · simpa [enter, hj] using h

theorem spares_pass {w : T} (hs : getLock w s = some s') : Spares w s s' := by
  simp only [getLock] at hs
  cases hx : (s.thread w).waiting with
  | none => simp [hx] at hs
  | some l =>
    cases l with
    | mutex k =>
      simp only [hx] at hs
      obtain ⟨m, hm, rfl⟩ := Option.map_eq_some_iff.mp hs
      exact spares_mutex _ fun u n hu hk => by simp [hk, lockMutex, hu] at hm
    | fast k =>
      cases hk : s.fast k with
      | some e => simp [hx, hk] at hs
      | none =>
        simp only [hx, hk, Option.some.injEq] at hs
        exact hs ▸ spares_fast _ fun u q hq => by simp [hk] at hq
    | spin k lh =>
      simp only [hx] at hs
      split_ifs at hs
      exact Option.some.inj hs ▸ spares_put s w _

theorem spares_leave {w : T} (hs : leave w s = some s') : Spares w s s' := by
  simp only [leave] at hs
  cases hx : (s.thread w).lockers with
  | nil => simp [hx] at hs
  | cons l rest =>
    cases l with
    | mutex k =>
      simp only [hx] at hs
      obtain ⟨m, hm, rfl⟩ := Option.map_eq_some_iff.mp hs
      exact spares_mutex _ fun u n hu hk => by simp [hk, unlockMutex, hu] at hm
    | fast k =>
      cases hk : s.fast k with
      | none => simp [hx, hk] at hs
      | some e =>
        simp only [hx, hk] at hs
        split_ifs at hs with he
        refine Option.some.inj hs ▸ spares_fast _ fun u q hq => ?_
        rw [← he, Option.some.inj (hk.symm.trans hq)]
    | spin k lh =>
      simp only [hx] at hs
      split_ifs at hs with hk
      refine Option.some.inj hs ▸
        ⟨fun _ ht => update_of_ne ht _ _, fun _ _ _ _ h => h, fun _ _ _ _ h => h, ?_⟩
      intro j u n e hu h
      rcases eq_or_ne j k with rfl | hjk
      · simpa using sublist_tail hk (fun he => hu (Prod.mk.inj he).1.symm) h
      · simpa [hjk] using h

theorem spares_step {a : Act T K} (hs : step s a = some s') : Spares (actor a) s s' := by
  cases a with
  | enter t kind k => exact Option.some.inj hs ▸ spares_enter s t kind k
  | pass t => exact spares_pass hs
  | leave t => exact spares_leave hs

omit [DecidableEq T] [DecidableEq K] in
/-- So the lock that a thread waits for stays where it is until its owner does something. -/
theorem WaitsFor.spares {w : T} (hw : WaitsFor s t u) (h : Spares w s s') (ht : t ≠ w) (hu : u ≠ w) :
    WaitsFor s' t u := by
  unfold WaitsFor at hw ⊢
  rw [h.thread t ht]
  split at hw
  · exact hw
  · exact ⟨hw.1, hw.2.imp fun n => h.mutex _ u n hu⟩
  · exact hw.imp fun q => h.fast _ u q hu
  · exact hw.imp fun n => h.spin _ u n _ hu

/-- No thread of a stuck set takes a step. -/
theorem actor_not_stuck (h : Nested irql s) (hD : Stuck s D) {a : Act T K} (hp : Permitted s a)
    (hs : step s a = some s') : ¬D (actor a) := by
  intro hd
  obtain ⟨u, -, hw⟩ := hD _ hd
  cases a with
  | enter t kind k =>
    cases kind with
    | mutex | fast => exact hw.waiting hp.1
    | spin => exact hw.waiting hp
  | pass t =>
    have hn : getLock t s = none := pass_eq_none h hw
    rw [step, hn] at hs
    cases hs
  | leave t => exact hw.waiting hp.1

/-- Whatever the other threads do, a stuck set stays as it is. -/
theorem stuck_step (h : Nested irql s) (hD : Stuck s D) {a : Act T K} (hp : Permitted s a)
    (hs : step s a = some s') : Stuck s' D ∧ ∀ t, D t → s'.thread t = s.thread t := by
  have hactor := actor_not_stuck h hD hp hs
  have hspares := spares_step hs
  have hne : ∀ t, D t → t ≠ actor a := fun t ht he => hactor (he ▸ ht)
  refine ⟨fun t ht => ?_, fun t ht => hspares.thread t (hne t ht)⟩
  obtain ⟨u, hu, hw⟩ := hD t ht
  exact ⟨u, hu, hw.spares hspares (hne t ht) (hne u hu)⟩

/-- From any state that threads reach, a set of threads that wait for each other, or a thread
that waits for itself, waits for ever. -/
theorem waits_forever (irql : T → ℕ) {as bs : List (Act T K)} {s s' : Sys T K} {D : T → Prop}
    (hp : Along Permitted step (start irql) as) (hs : run step (start irql) as = some s)
    (hD : Stuck s D) (hp' : Along Permitted step s bs) (hs' : run step s bs = some s') :
    ∀ t, D t → s'.thread t = s.thread t ∧ (s'.thread t).waiting ≠ none := by
  have hI := along_invariant (I := fun r => Nested irql r ∧ Stuck r D ∧
      ∀ t, D t → r.thread t = s.thread t) ?_ ⟨nested_run hp hs, hD, fun _ _ => rfl⟩ hp' hs'
  · intro t ht
    obtain ⟨-, hstuck, hsame⟩ := hI
    obtain ⟨u, -, hw⟩ := hstuck t ht
    exact ⟨hsame t ht, hw.waiting⟩
  · rintro r a r' ⟨hn, hstuck, hsame⟩ hp hr
    obtain ⟨hstuck', hsame'⟩ := stuck_step hn hstuck hp hr
    exact ⟨nested_step hn hp hr, hstuck', fun t ht => (hsame' t ht).trans (hsame t ht)⟩

/-- A thread takes a `mutex_fast` twice, and another one comes by. -/
def twice : List (Act Bool ℕ) := [.enter true .fast 0, .pass true, .enter true .fast 0]

def comesBy : List (Act Bool ℕ) := [.enter false .mutex 0, .pass false, .enter false .fast 0]

theorem waits_forever_twice :
    ∃ s s', run step (start fun _ => 0) twice = some s ∧ run step s comesBy = some s' ∧
      (s'.thread true).waiting ≠ none := by
  refine ⟨_, _, rfl, rfl, ?_⟩
  have hp : Along Permitted step (start fun _ => 0) twice := by decide
  have hstuck := stuck_twice (t := true) (l := .fast 0) (nested_run hp rfl) (.head _) rfl rfl
    (by decide)
  exact (waits_forever (fun _ => 0) hp rfl hstuck
    (show Along Permitted step _ comesBy by decide) rfl true rfl).2

end KernelLib.LockerWaits
