import KernelLib.WorkQueueCalls
import KernelLib.WorkQueueMemory

/-!
# First in, first out, across threads

In every run of any number of threads on one `WorkQueue` no step touches a
deleted item or a null pointer. What was accepted is handed out in the order
of acceptance and at most once, and each accepted element is handed out, on
the queue, or dropped by a `clear` or an `emptyEnque`, and only one of these.
The rings of `_q` and of the local queues are well formed throughout.
-/

namespace KernelLib.WorkQueueOrder

open LinkedRing QueueRing WorkQueueThreads WorkQueueMemory WorkQueueCalls StepRuns
open WorkQueueSections (WorkQueue)

variable {T V : Type}

/-- One of three statements holds, and only one. -/
def ExactlyOne (p q r : Prop) : Prop := (p ∧ ¬q ∧ ¬r) ∨ (¬p ∧ q ∧ ¬r) ∨ (¬p ∧ ¬q ∧ r)

/-- Everything accepted is accounted for: `queue` is on `_q`, `own t` on the
local queue of a thread, and the rest was handed out or dropped. -/
structure Account (s : Sys T V) (queue : List ℕ) (own : T → List ℕ) : Prop where
  /-- The ring of `_q` is well formed, ... -/
  ring : Ring s.heap.link (.head .shared) (queue.map .item)
  /-- ... holds the elements in the order of acceptance ... -/
  sorted : queue.Pairwise (· < ·)
  /-- ... and with their values. -/
  queued : ∀ i ∈ queue, s.heap.value i = (s.accepted.map Prod.snd)[i]?
  /-- The ring of a local queue is well formed as long as there is one. -/
  rings : ∀ t, hasEpt (s.pc t) → Ring s.heap.link (.head (.ept t)) ((own t).map .item)
  gone : ∀ t, ¬hasEpt (s.pc t) → s.heap.link (.head (.ept t)) = none ∧ own t = []
  own_dropped : ∀ t, ∀ i ∈ own t, i ∈ s.dropped
  /-- `deque` hands out in the order of acceptance, each element at most once ... -/
  delivered_order : s.deliveredItems.Pairwise (· < ·)
  /-- ... and as it was accepted. -/
  delivered_value : ∀ d ∈ s.delivered, (s.accepted.map Prod.snd)[d.item]? = some d.value
  split : ∀ i < s.accepted.length,
    ExactlyOne (i ∈ s.deliveredItems) (i ∈ queue) (i ∈ s.dropped)
  accepted : ∀ i, i ∈ s.deliveredItems ∨ i ∈ queue ∨ i ∈ s.dropped → i < s.accepted.length
  /-- No item is deleted twice, ... -/
  freed_once : s.heap.freed.Nodup
  /-- ... and those deleted are the ones handed out, and the ones dropped that
  no thread still has to delete. -/
  freed : ∀ i, i ∈ s.heap.freed ↔ i ∈ s.deliveredItems ∨
    i ∈ s.dropped ∧ ∀ t, i ∉ own t ∧ deleting (s.pc t) ≠ some i
  /-- A call adds at most one element, and none when it returns false. -/
  accepted_once : (s.accepted.map Prod.fst).Nodup
  added : ∀ c ok, (c, Ret.added ok) ∈ s.returned → (ok = true ↔ c ∈ s.accepted.map Prod.fst)
  /-- `deque` returns what it handed out, and never `E_FALSE`. -/
  dequed : ∀ c rt o, (c, Ret.dequed rt o) ∈ s.returned → rt ≠ .fail ∧ (rt = .ok ↔ o.isSome) ∧
    ∀ v, o = some v ↔ ∃ d ∈ s.delivered, d.call = c ∧ d.value = v

/-- The elements on `_q`, with the event and the flag: a list queue. -/
def listed (s : Sys T V) (queue : List ℕ) : WorkQueue V :=
  ⟨queue.filterMap fun i => (s.accepted.map Prod.snd)[i]?, s.e, s.exit⟩

variable [DecidableEq T] {s : Sys T V} {place : ℕ → Place (Queue T)}

/-- What the sections under the mutex do while `queue` is on `_q`. -/
structure Sections (s : Sys T V) (queue : List ℕ) : Prop where
  /-- `enque` adds its element behind the others just when its item is allocated. -/
  enque : ∀ t c v allocated, s.pc t = .enque c v → ∃ s', step s (.go t allocated) = some s' ∧
    s'.accepted = s.accepted ++ (if allocated then [(c, v)] else []) ∧
    s'.delivered = s.delivered ∧ s'.dropped = s.dropped ∧
    s'.pc t = .enqued c queue.isEmpty allocated
  /-- `emptyEnque` drops what is on the queue, and adds its element alike. -/
  emptyEnque : ∀ t c v allocated, s.pc t = .emptyEnque c v →
    ∃ s', step s (.go t allocated) = some s' ∧
      s'.accepted = s.accepted ++ (if allocated then [(c, v)] else []) ∧
      s'.delivered = s.delivered ∧ s'.dropped = s.dropped ++ queue ∧
      s'.pc t = .emptyEnqued c allocated
  /-- `clear` drops what is on the queue. -/
  clear : ∀ t c allocated, s.pc t = .clear c → ∃ s', step s (.go t allocated) = some s' ∧
    s'.accepted = s.accepted ∧ s'.delivered = s.delivered ∧ s'.dropped = s.dropped ++ queue ∧
    s'.pc t = .cleared c
  /-- `deque` waits on the empty queue ... -/
  waits : ∀ t c allocated, s.pc t = .deque c → queue = [] →
    ∃ s', step s (.go t allocated) = some s' ∧ s'.accepted = s.accepted ∧
      s'.delivered = s.delivered ∧ s'.dropped = s.dropped ∧ s'.pc t = .wait c
  /-- ... and takes the first element of any other, ... -/
  takes : ∀ t c allocated i rest, s.pc t = .deque c → queue = i :: rest →
    ∃ s' v, step s (.go t allocated) = some s' ∧ (s.accepted.map Prod.snd)[i]? = some v ∧
      s'.accepted = s.accepted ∧ s'.delivered = s.delivered ++ [⟨c, i, v⟩] ∧
      s'.dropped = s.dropped ∧ s'.pc t = .dequed c (some v)
  /-- ... which it returns with `E_OK`. -/
  returns : ∀ t c v allocated, s.pc t = .dequed c (some v) →
    ∃ s', step s (.go t allocated) = some s' ∧
      s'.returned = s.returned ++ [(c, .dequed .ok (some v))]
  /-- On the elements the two sections answer as those of the list queue. -/
  enqueLocked : ∀ v allocated, (enqueLocked v allocated s.heap).map Prod.fst =
    some ((listed s queue).enqueLocked v allocated).2
  dequeLocked : (dequeLocked s.heap).map (fun x => x.1.map (·.map Prod.snd)) =
    some (listed s queue).dequeLocked.2.handed

instance (s : Sys T V) [DecidableEq V] (a : Act T V) : Decidable (Permitted s a) :=
  match a with
  | .call t _ => inferInstanceAs (Decidable (s.pc t = .idle))
  | .go t _ => inferInstanceAs (Decidable (s.pc t ≠ .idle))

/-- Before the first call. -/
theorem tracks_start : Tracks (Sys.start : Sys T V) fun _ => .deleted where
  heap := by
    obtain ⟨heap, hcon, -, hrep⟩ := construct_spec
      (represents_empty (V := V) fun _ => (.deleted : Place (Queue T))) (q := .shared) not_false
    obtain rfl : newHeap = heap := Option.some.inj (construct_shared.symm.trans hcon)
    have hlive : Live (Sys.start : Sys T V) = fun q => q = .shared ∨ False := by
      funext q
      cases q with
      | shared => simp [Live]
      | ept t => simp [Live, Sys.start, hasEpt]
    rw [hlive]
    exact hrep
  shared := by simp [Sys.start]
  delivered := by simp [Sys.start]
  order := List.Pairwise.nil
  ahead := by simp [Sys.start]
  dropped := by simp [Sys.start]
  once := List.nodup_nil
  filled := by simp [Sys.start]
  taken := by simp [Sys.start]
  deleting := by simp [Sys.start, WorkQueueMemory.deleting]

omit [DecidableEq T] in
theorem calls_start [DecidableEq T] : Calls (Sys.start : Sys T V) where
  lt := by simp [Sys.start, callOf]
  distinct := by simp [Sys.start, callOf]
  accepted := by simp [Sys.start]
  delivered := by simp [Sys.start]
  returned := by simp [Sys.start]
  agrees := fun _ => trivial
  once := List.nodup_nil

/-- A permitted step succeeds, and keeps the record right. -/
theorem step_spec {a : Act T V} (h : Tracks s place) (hc : Calls s) (hp : Permitted s a) :
    ∃ s' place', step s a = some s' ∧ Tracks s' place' ∧ Calls s' := by
  cases a with
  | call t op =>
    obtain ⟨s', hs, h'⟩ := tracks_call h hp op
    exact ⟨s', place, hs, h', calls_call hc hp op hs⟩
  | go t allocated =>
    obtain ⟨s', place', hs, h'⟩ := tracks_go h hp allocated
    exact ⟨s', place', hs, h', calls_next hc hs⟩

/-- So does every run. -/
theorem run_spec {as : List (Act T V)} (h : Tracks s place) (hc : Calls s)
    (hp : Along Permitted step s as) :
    ∃ s' place', run step s as = some s' ∧ Tracks s' place' ∧ Calls s' := by
  have hstep : ∀ (s : Sys T V) a, (∃ place, Tracks s place ∧ Calls s) → Permitted s a →
      ∃ s', step s a = some s' ∧ ∃ place, Tracks s' place ∧ Calls s' := by
    rintro s a ⟨place, h, hc⟩ hp
    obtain ⟨s', place', hs, h'⟩ := step_spec h hc hp
    exact ⟨s', hs, place', h'⟩
  obtain ⟨s', hs, place', h'⟩ := exists_run hstep ⟨place, h, hc⟩ hp
  exact ⟨s', place', hs, h'⟩

/-- What is dropped has its place in a local queue until it is deleted. -/
theorem freed_iff (h : Tracks s place) (i : ℕ) :
    i ∈ s.heap.freed ↔ i ∈ s.deliveredItems ∨ i ∈ s.dropped ∧
      ∀ t, i ∉ itemsOn place s.heap.created (.ept t) ∧ WorkQueueMemory.deleting (s.pc t) ≠ some i := by
  rw [h.heap.freed, h.created]
  constructor
  · rintro ⟨hi, hp⟩
    by_cases hd : i ∈ s.deliveredItems
    · exact .inl hd
    · refine .inr ⟨?_, fun t => ⟨fun hm => ?_, fun ht => ?_⟩⟩
      · by_contra hn
        have hq := (h.shared i hi).mpr ⟨hd, hn⟩
        rw [hp] at hq
        cases hq
      · have hq := (mem_itemsOn.mp hm).2
        rw [hp] at hq
        cases hq
      · have hq := (h.deleting t i ht).2
        rw [hp] at hq
        cases hq
  · rintro (hd | ⟨hd, hn⟩)
    · obtain ⟨d, hm, rfl⟩ := mem_deliveredItems.mp hd
      obtain ⟨hv, hp, -⟩ := h.delivered d hm
      exact ⟨by simpa using (List.getElem?_eq_some_iff.mp hv).1, hp⟩
    · have hi := h.dropped i hd
      refine ⟨hi, ?_⟩
      cases hp : place i with
      | queued q =>
        cases q with
        | shared => exact absurd hd ((h.shared i hi).mp hp).2
        | ept t => exact absurd (mem_itemsOn.mpr ⟨h.created ▸ hi, hp⟩) (hn t).1
      | taken q =>
        obtain ⟨t, ht⟩ := h.taken i hi q hp
        exact absurd ht (hn t).2
      | deleted => rfl

/-- The invariants give the account. -/
theorem account (h : Tracks s place) (hc : Calls s) :
    Account s (itemsOn place s.heap.created .shared)
      (fun t => itemsOn place s.heap.created (.ept t)) where
  ring := h.heap.rings .shared live_shared
  sorted := itemsOn_sorted _ _ _
  queued := by
    intro i hi
    obtain ⟨hlt, hp⟩ := mem_itemsOn.mp hi
    exact (h.heap.value_of_queued hlt (by simp [hp])).1
  rings := fun t ht => h.heap.rings (.ept t) ht
  gone := by
    intro t ht
    refine ⟨h.heap.gone (.ept t) ht, itemsOn_eq_nil.mpr fun i hi hq => ?_⟩
    exact ht (h.heap.homes i hi _ hq)
  own_dropped := by
    intro t i hi
    obtain ⟨hlt, hp⟩ := mem_itemsOn.mp hi
    rw [h.created] at hlt
    by_contra hn
    by_cases hd : i ∈ s.deliveredItems
    · obtain ⟨d, hm, rfl⟩ := mem_deliveredItems.mp hd
      rw [(h.delivered d hm).2.1] at hp
      cases hp
    · rw [(h.shared i hlt).mpr ⟨hd, hn⟩] at hp
      cases hp
  delivered_order := h.order
  delivered_value := fun d hd => (h.delivered d hd).1
  split := by
    intro i hi
    have hq : i ∈ itemsOn place s.heap.created .shared ↔ i ∉ s.deliveredItems ∧ i ∉ s.dropped := by
      rw [mem_itemsOn, h.created, h.shared i hi]
      exact and_iff_right hi
    have hdis : i ∈ s.deliveredItems → i ∉ s.dropped := by
      intro hd
      obtain ⟨d, hm, rfl⟩ := mem_deliveredItems.mp hd
      exact (h.delivered d hm).2.2
    unfold ExactlyOne
    rw [hq]
    tauto
  accepted := by
    rintro i (hd | hq | hd)
    · obtain ⟨d, hm, rfl⟩ := mem_deliveredItems.mp hd
      simpa using (List.getElem?_eq_some_iff.mp (h.delivered d hm).1).1
    · exact h.created ▸ (mem_itemsOn.mp hq).1
    · exact h.dropped i hd
  freed_once := h.heap.nodup
  freed := freed_iff h
  accepted_once := hc.once
  added := fun c ok hm => (hc.returned _ hm).2.1
  dequed := fun c rt o hm => (hc.returned _ hm).2.1

theorem listed_q (h : Tracks s place) :
    (listed s (itemsOn place s.heap.created .shared)).q =
      elements place (s.accepted.map Prod.snd) .shared := by
  rw [listed, elements, ← h.heap.created]

/-- The invariant of the memory settles what a section does. -/
theorem sections (h : Tracks s place) : Sections s (itemsOn place s.heap.created .shared) where
  enque := by
    intro t c v allocated hp
    obtain ⟨heap, place', hpush, -⟩ := tracks_push h c v allocated
    refine ⟨((s.setHeap heap).accept c v allocated).setPc t
      (.enqued c (itemsOn place s.heap.created .shared).isEmpty allocated), ?_, rfl, rfl, rfl, ?_⟩
    · simp [step, go, hp, WorkQueueThreads.enqueLocked, empty_spec h.heap live_shared, hpush]
    · simp
  emptyEnque := by
    intro t c v allocated hp
    obtain ⟨heap, hswap, h'⟩ := tracks_swap h (t := t) (p := .emptyEnqued c allocated)
      (by simp [hp, hasEpt]) (by simp [hp, filled]) trivial trivial rfl
    obtain ⟨heap', place', hpush, -⟩ := tracks_push h' c v allocated
    have hpush' : pushBack .shared v allocated heap = some (allocated, heap') := hpush
    refine ⟨((s.setHeap heap').drop.accept c v allocated).setPc t (.emptyEnqued c allocated),
      ?_, rfl, rfl, ?_, ?_⟩
    · simp [step, go, hp, emptyEnqueLocked, hswap, hpush']
    · rw [← h.waiting]
      rfl
    · simp
  clear := by
    intro t c allocated hp
    obtain ⟨heap, hswap, -⟩ := tracks_swap h (t := t) (p := .cleared c)
      (by simp [hp, hasEpt]) (by simp [hp, filled]) trivial trivial rfl
    refine ⟨(s.setHeap heap).drop.setPc t (.cleared c), ?_, rfl, rfl, ?_, ?_⟩
    · simp [step, go, hp, clearLocked, hswap]
    · rw [← h.waiting]
      rfl
    · simp
  waits := by
    intro t c allocated hp hi
    refine ⟨(s.setHeap s.heap).setPc t (.wait c), ?_, rfl, rfl, rfl, ?_⟩
    · simp [step, go, hp, WorkQueueThreads.dequeLocked, empty_spec h.heap live_shared, hi]
    · simp
  takes := by
    intro t c allocated i rest hp hi
    obtain ⟨v, heap, hpop, h'⟩ := tracks_pop h c hi
    have hv := (h'.delivered ⟨c, i, v⟩ (by simp)).1
    refine ⟨((s.setHeap heap).deliver c (some (i, v))).setPc t (.dequed c (some v)), v, ?_, hv,
      rfl, by simp, rfl, by simp⟩
    simp [step, go, hp, WorkQueueThreads.dequeLocked, empty_spec h.heap live_shared, hi, hpop]
  returns := by
    intro t c v allocated hp
    exact ⟨(s.ret c (.dequed .ok (some v))).setPc t .idle, by simp [step, go, hp], rfl⟩
  enqueLocked := by
    intro v allocated
    obtain ⟨heap, place', values', hs, -⟩ :=
      enqueLocked_refines h.heap live_shared v allocated (listed_q h)
    rw [hs]
    rfl
  dequeLocked := by
    obtain ⟨o, heap, place', hs, -, ho, -⟩ := dequeLocked_refines h.heap live_shared (listed_q h)
    rw [hs, ← ho]
    rfl

/-- Whatever the threads do, and whichever allocations fail: no step fails, and
what was accepted is handed out first in, first out, still on the queue, or
dropped. Every section of `deque` on a queue with elements hands out the first. -/
theorem first_in_first_out {as : List (Act T V)}
    (hp : Along Permitted step (Sys.start : Sys T V) as) :
    ∃ s queue own, run step (Sys.start : Sys T V) as = some s ∧ Account s queue own ∧
      Sections s queue := by
  obtain ⟨s, place, hs, h, hc⟩ := run_spec tracks_start calls_start hp
  exact ⟨s, _, _, hs, account h hc, sections h⟩

/-- Two threads: one element is handed out, one is dropped, one is refused. -/
def twoThreads : List (Act Bool ℕ) :=
  [.call true (.enque 7), .go true true, .go true true, .call true (.enque 8), .go true true,
    .call false .deque, .go false true, .go true true, .call true (.emptyEnque 9), .go true false,
    .go false true, .go true true, .go true true, .go true true, .go true true]

/-- It hands out 7, drops 8 and refuses 9. -/
theorem first_in_first_out_twoThreads :
    ∃ s queue own, run step (Sys.start : Sys Bool ℕ) twoThreads = some s ∧
      Account s queue own ∧ Sections s queue ∧
      s.accepted = [(0, 7), (1, 8)] ∧ s.delivered = [⟨2, 0, 7⟩] ∧ s.dropped = [1] ∧
      s.heap.freed = [0, 1] ∧
      s.returned = [(0, .added true), (1, .added true), (2, .dequed .ok (some 7)),
        (3, .added false)] := by
  obtain ⟨s, queue, own, hs, haccount, hsections⟩ :=
    first_in_first_out (by decide : Along Permitted step (Sys.start : Sys Bool ℕ) twoThreads)
  have hrecord : (run step (Sys.start : Sys Bool ℕ) twoThreads).map (fun s =>
      (s.accepted, s.delivered, s.dropped, s.heap.freed, s.returned)) =
      some ([(0, 7), (1, 8)], [⟨2, 0, 7⟩], [1], [0, 1],
        [(0, .added true), (1, .added true), (2, .dequed .ok (some 7)), (3, .added false)]) := by
    rfl
  rw [hs] at hrecord
  simp only [Option.map_some, Option.some.injEq, Prod.mk.injEq] at hrecord
  exact ⟨s, queue, own, hs, haccount, hsections, hrecord⟩

end KernelLib.WorkQueueOrder
