import KernelLib.WorkQueueThreads

/-!
# Where the elements of the work queue are

The record of a run of threads on one `WorkQueue` agrees with the memory.
What was neither handed out nor dropped is on the ring of `_q`; what was
dropped is on a local ring until the destructor takes it off and deletes it.
Each section under the mutex, and each step of a destructor, keeps this and
touches nothing that is deleted.
-/

namespace KernelLib.WorkQueueMemory

open LinkedRing QueueRing WorkQueueThreads Function

variable {T V : Type}

/-- Whether `ept` of the thread exists. -/
def hasEpt : Pc V → Prop
  | .emptyEnque _ _ | .emptyEnqued _ _ | .clear _ | .cleared _ | .unlink _ _ | .delete _ _ _ => True
  | _ => False

/-- Whether `ept` of the thread has had its section. -/
def filled : Pc V → Prop
  | .emptyEnqued _ _ | .cleared _ | .unlink _ _ | .delete _ _ _ => True
  | _ => False

/-- The item that the thread deletes next. -/
def deleting : Pc V → Option ℕ
  | .delete _ _ i => some i
  | _ => none

/-- The queue objects that exist. -/
def Live (s : Sys T V) : Queue T → Prop
  | .shared => True
  | .ept t => hasEpt (s.pc t)

/-- The record agrees with the memory, which has the items in these places. -/
structure Tracks [DecidableEq T] (s : Sys T V) (place : ℕ → Place (Queue T)) : Prop where
  heap : Represents s.heap place (Live s) (s.accepted.map Prod.snd)
  /-- What waits is on the queue. -/
  shared : ∀ i < s.accepted.length,
    place i = .queued .shared ↔ i ∉ s.deliveredItems ∧ i ∉ s.dropped
  /-- What was handed out is deleted. -/
  delivered : ∀ d ∈ s.delivered, (s.accepted.map Prod.snd)[d.item]? = some d.value ∧
    place d.item = .deleted ∧ d.item ∉ s.dropped
  order : s.deliveredItems.Pairwise (· < ·)
  /-- What waits came after what was handed out. -/
  ahead : ∀ d ∈ s.delivered, ∀ i < s.accepted.length, place i = .queued .shared → d.item < i
  dropped : ∀ i ∈ s.dropped, i < s.accepted.length
  once : s.dropped.Nodup
  /-- A local queue has items only after its section. -/
  filled : ∀ i < s.accepted.length, ∀ t, place i = .queued (.ept t) → filled (s.pc t)
  /-- What was taken off is deleted next. -/
  taken : ∀ i < s.accepted.length, ∀ q, place i = .taken q → ∃ t, deleting (s.pc t) = some i
  deleting : ∀ t i, deleting (s.pc t) = some i → i < s.accepted.length ∧ place i = .taken (.ept t)

section Refinement

variable [DecidableEq T] {h : Heap (Queue T) V} {place : ℕ → Place (Queue T)}
  {live : Queue T → Prop} {values : List V} {wq : WorkQueueSections.WorkQueue V}

/-- On the elements, the section of `enque` is that of the list queue. -/
theorem enqueLocked_refines (hr : Represents h place live values) (hlive : live .shared) (v : V)
    (allocated : Bool) (hq : wq.q = elements place values .shared) :
    ∃ h' place' values', enqueLocked v allocated h = some ((wq.enqueLocked v allocated).2, h') ∧
      Represents h' place' live values' ∧
      (wq.enqueLocked v allocated).1.q = elements place' values' .shared := by
  obtain ⟨h', place', values', hpush, hr', he⟩ := pushBack_refines hr hlive v allocated
  refine ⟨h', place', values', ?_, hr', ?_⟩
  · have hempty : (itemsOn place h.created .shared).isEmpty = wq.q.isEmpty := by
      rw [hq]
      exact (elements_isEmpty hr .shared).symm
    simp [enqueLocked, empty_spec hr hlive, hpush, WorkQueueSections.WorkQueue.enqueLocked,
      hempty, hq]
  · rw [he, WorkQueueSections.WorkQueue.enqueLocked, hq]

/-- So is the section of `deque`. -/
theorem dequeLocked_refines (hr : Represents h place live values) (hlive : live .shared)
    (hq : wq.q = elements place values .shared) :
    ∃ o h' place', dequeLocked h = some (o, h') ∧ Represents h' place' live values ∧
      o.map (·.map Prod.snd) = wq.dequeLocked.2.handed ∧
      wq.dequeLocked.1.q = elements place' values .shared := by
  cases hi : itemsOn place h.created .shared with
  | nil =>
    have hnil : wq.q = [] := by
      rw [hq, ← List.isEmpty_iff, elements_isEmpty hr, hi, List.isEmpty_nil]
    refine ⟨none, h, place, by simp [dequeLocked, empty_spec hr hlive, hi], hr, ?_, ?_⟩
    · rw [WorkQueueSections.dequeLocked_nil hnil]
      rfl
    · rw [WorkQueueSections.dequeLocked_nil hnil, hq]
  | cons i xs =>
    obtain ⟨o, h', place', hpop, hr', he⟩ := popFront_refines hr hlive
    have hcons : wq.q ≠ [] := by
      rw [hq, ← List.isEmpty_eq_false_iff, elements_isEmpty hr, hi, List.isEmpty_cons]
    obtain ⟨v, rest, hv⟩ := List.exists_cons_of_ne_nil hcons
    rw [← hq, hv, WorkQueueSections.popFront] at he
    obtain ⟨x, rfl, hx⟩ := Option.map_eq_some_iff.mp he.symm
    obtain ⟨rfl, hrest⟩ := Prod.mk.inj hx
    refine ⟨some (some x), h', place', by simp [dequeLocked, empty_spec hr hlive, hi, hpop], hr',
      ?_, ?_⟩
    · rw [WorkQueueSections.dequeLocked_cons hv]
      rfl
    · rw [WorkQueueSections.dequeLocked_cons hv]
      exact hrest.symm

end Refinement

section Memory

variable [DecidableEq T] {s : Sys T V} {place : ℕ → Place (Queue T)} {t : T} {c i : ℕ} {v : V}

theorem Tracks.created (h : Tracks s place) : s.heap.created = s.accepted.length := by
  rw [h.heap.created, List.length_map]

omit [DecidableEq T] in
theorem mem_deliveredItems : i ∈ s.deliveredItems ↔ ∃ d ∈ s.delivered, d.item = i := List.mem_map

/-- What waits, by the record, is what is on the queue, in this order. -/
theorem Tracks.waiting (h : Tracks s place) :
    s.waiting = itemsOn place s.heap.created .shared := by
  unfold Sys.waiting itemsOn
  rw [h.created]
  refine List.filter_congr fun i hi => ?_
  rw [decide_eq_decide, h.shared i (List.mem_range.mp hi)]

omit [DecidableEq T] in
theorem live_shared : Live s .shared := trivial

theorem live_setPc {p : Pc V} (hp : hasEpt p ↔ hasEpt (s.pc t)) : Live (s.setPc t p) = Live s := by
  funext q
  cases q with
  | shared => rfl
  | ept u =>
    by_cases hu : u = t
    · subst hu
      simp [Live, hp]
    · simp [Live, hu]

omit [DecidableEq T] in
/-- The event, the flag and what was returned have no part in it. -/
theorem Tracks.of_same [DecidableEq T] {s' : Sys T V} (h : Tracks s place)
    (hheap : s'.heap = s.heap) (hpc : s'.pc = s.pc) (haccepted : s'.accepted = s.accepted)
    (hdelivered : s'.delivered = s.delivered) (hdropped : s'.dropped = s.dropped) :
    Tracks s' place := by
  cases s'
  subst hheap hpc haccepted hdelivered hdropped
  exact ⟨h.heap, h.shared, h.delivered, h.order, h.ahead, h.dropped, h.once, h.filled, h.taken,
    h.deleting⟩

/-- A thread goes on without a change of the memory. -/
theorem tracks_setPc {p : Pc V} (h : Tracks s place) (hp : hasEpt p ↔ hasEpt (s.pc t))
    (hf : filled (s.pc t) → filled p) (hd : deleting (s.pc t) = none) (hd' : deleting p = none) :
    Tracks (s.setPc t p) place where
  heap := by
    rw [live_setPc hp]
    exact h.heap
  shared := h.shared
  delivered := h.delivered
  order := h.order
  ahead := h.ahead
  dropped := h.dropped
  once := h.once
  filled := by
    intro i hi u hu
    have hfu := h.filled i hi u hu
    by_cases hut : u = t
    · subst hut
      simpa using hf hfu
    · simpa [hut] using hfu
  taken := by
    intro i hi q hq
    obtain ⟨u, hu⟩ := h.taken i hi q hq
    have hut : u ≠ t := by
      rintro rfl
      simp [hd] at hu
    exact ⟨u, by simpa [hut] using hu⟩
  deleting := by
    intro u i hu
    by_cases hut : u = t
    · subst hut
      simp [hd'] at hu
    · exact h.deleting u i (by simpa [hut] using hu)

/-- `push_back` on the shared queue accepts an element when its item is allocated. -/
theorem tracks_push (h : Tracks s place) (c : ℕ) (v : V) (allocated : Bool) :
    ∃ heap place', pushBack .shared v allocated s.heap = some (allocated, heap) ∧
      Tracks ((s.setHeap heap).accept c v allocated) place' := by
  cases allocated with
  | false =>
    refine ⟨s.heap, place, rfl, ?_⟩
    have he : (s.setHeap s.heap).accept c v false = s := by simp [Sys.accept, Sys.setHeap]
    rw [he]
    exact h
  | true =>
    obtain ⟨heap, hpush, hc, hrep⟩ := pushBack_spec h.heap live_shared v
    rw [h.created] at hrep
    refine ⟨heap, update place s.accepted.length (.queued .shared), hpush, ?_⟩
    have hlt : ∀ i, i < (s.accepted ++ [(c, v)]).length → i ≠ s.accepted.length →
        i < s.accepted.length := by
      intro i hi hne
      rw [List.length_append, List.length_singleton] at hi
      omega
    have hnew : s.accepted.length ∉ s.deliveredItems ∧ s.accepted.length ∉ s.dropped := by
      constructor
      · intro hd
        obtain ⟨d, hd, hi⟩ := mem_deliveredItems.mp hd
        obtain ⟨hlt, -⟩ := List.getElem?_eq_some_iff.mp (h.delivered d hd).1
        simp [hi] at hlt
      · exact fun hd => lt_irrefl _ (h.dropped _ hd)
    constructor
    case heap =>
      change Represents heap _ (Live s) ((s.accepted ++ [(c, v)]).map Prod.snd)
      rw [List.map_append]
      exact hrep
    case shared =>
      intro i hi
      by_cases hin : i = s.accepted.length
      · subst hin
        rw [update_self]
        exact ⟨fun _ => hnew, fun _ => rfl⟩
      · rw [update_of_ne hin]
        exact h.shared i (hlt i hi hin)
    case delivered =>
      intro d hd
      obtain ⟨hv, hp, hn⟩ := h.delivered d hd
      have hdlt : d.item < s.accepted.length := by
        simpa using (List.getElem?_eq_some_iff.mp hv).1
      refine ⟨?_, ?_, hn⟩
      · simp only [Sys.accept_accepted, Sys.setHeap_accepted, if_true, List.map_append]
        rw [List.getElem?_append_left (by simpa using hdlt)]
        exact hv
      · rw [update_of_ne hdlt.ne]
        exact hp
    case order => exact h.order
    case ahead =>
      intro d hd i hi hp
      by_cases hin : i = s.accepted.length
      · rw [hin]
        simpa using (List.getElem?_eq_some_iff.mp (h.delivered d hd).1).1
      · rw [update_of_ne hin] at hp
        exact h.ahead d hd i (hlt i hi hin) hp
    case dropped =>
      intro i hi
      have hi' := h.dropped i hi
      simp only [Sys.accept_accepted, Sys.setHeap_accepted, List.length_append]
      omega
    case once => exact h.once
    case filled =>
      intro i hi u hp
      by_cases hin : i = s.accepted.length
      · simp [hin] at hp
      · rw [update_of_ne hin] at hp
        exact h.filled i (hlt i hi hin) u hp
    case taken =>
      intro i hi q hp
      by_cases hin : i = s.accepted.length
      · simp [hin] at hp
      · rw [update_of_ne hin] at hp
        exact h.taken i (hlt i hi hin) q hp
    case deleting =>
      intro u i hu
      obtain ⟨hi, hp⟩ := h.deleting u i hu
      refine ⟨?_, ?_⟩
      · simp only [Sys.accept_accepted, Sys.setHeap_accepted, List.length_append]
        omega
      · rw [update_of_ne hi.ne]
        exact hp

/-- `pop_front` on the shared queue hands out the element that waits longest. -/
theorem tracks_pop (h : Tracks s place) (c : ℕ) {xs : List ℕ}
    (hi : itemsOn place s.heap.created .shared = i :: xs) :
    ∃ v heap, popFront .shared s.heap = some (some (i, v), heap) ∧
      Tracks ((s.setHeap heap).deliver c (some (i, v))) (update place i .deleted) := by
  obtain ⟨v, heap, hv, hpop, hc, hrep⟩ := popFront_spec h.heap live_shared hi
  have hfront : i < s.heap.created ∧ place i = .queued .shared :=
    mem_itemsOn.mp (hi ▸ List.mem_cons_self)
  rw [h.created] at hfront
  have hwait := (h.shared i hfront.1).mp hfront.2
  have hitems :
      ((s.setHeap heap).deliver c (some (i, v))).deliveredItems = s.deliveredItems ++ [i] := by
    simp [Sys.deliveredItems]
  -- only the item that is handed out changes its place
  have hkeep : ∀ j q, update place i .deleted j = q → q ≠ .deleted → j ≠ i ∧ place j = q := by
    intro j q hj hq
    have hji : j ≠ i := by
      rintro rfl
      exact hq (hj.symm.trans (update_self ..))
    exact ⟨hji, by rwa [update_of_ne hji] at hj⟩
  have hbehind : ∀ j < s.accepted.length, j ≠ i → place j = .queued .shared → i < j := by
    intro j hj hji hp
    have hmem : j ∈ itemsOn place s.heap.created .shared := mem_itemsOn.mpr ⟨h.created ▸ hj, hp⟩
    rw [hi] at hmem
    exact front_lt hi ((List.mem_cons.mp hmem).resolve_left hji)
  refine ⟨v, heap, hpop, ?_⟩
  constructor
  case heap => exact hrep
  case shared =>
    intro j hj
    rw [hitems, List.mem_append, List.mem_singleton]
    by_cases hji : j = i
    · simp [hji]
    · rw [update_of_ne hji, h.shared j hj]
      simp [hji]
  case delivered =>
    intro d hd
    simp only [Sys.deliver_delivered, Sys.setHeap_delivered, Option.map_some, Option.toList_some,
      List.mem_append, List.mem_singleton] at hd
    rcases hd with hd | rfl
    · obtain ⟨hdv, hdp, hdn⟩ := h.delivered d hd
      refine ⟨hdv, ?_, hdn⟩
      by_cases hdi : d.item = i
      · rw [hdi, update_self]
      · rw [update_of_ne hdi]
        exact hdp
    · exact ⟨hv, update_self .., hwait.2⟩
  case order =>
    rw [hitems]
    refine List.pairwise_append.mpr ⟨h.order, List.pairwise_singleton _ _, ?_⟩
    intro j hj k hk
    obtain ⟨d, hd, rfl⟩ := mem_deliveredItems.mp hj
    rw [List.mem_singleton.mp hk]
    exact h.ahead d hd i hfront.1 hfront.2
  case ahead =>
    intro d hd j hj hp
    obtain ⟨hji, hp⟩ := hkeep j _ hp (by simp)
    simp only [Sys.deliver_delivered, Sys.setHeap_delivered, Option.map_some, Option.toList_some,
      List.mem_append, List.mem_singleton] at hd
    rcases hd with hd | rfl
    · exact h.ahead d hd j hj hp
    · exact hbehind j hj hji hp
  case dropped => exact h.dropped
  case once => exact h.once
  case filled =>
    intro j hj u hp
    exact h.filled j hj u (hkeep j _ hp (by simp)).2
  case taken =>
    intro j hj q hp
    exact h.taken j hj q (hkeep j _ hp (by simp)).2
  case deleting =>
    intro u j hu
    obtain ⟨hj, hp⟩ := h.deleting u j hu
    have hji : j ≠ i := by
      rintro rfl
      rw [hfront.2] at hp
      cases hp
    rw [update_of_ne hji]
    exact ⟨hj, hp⟩

/-- The section of `clear`, and the first half of that of `emptyEnque`: what
waits goes over to the local queue and counts as dropped. -/
theorem tracks_swap (h : Tracks s place) {p : Pc V} (he : hasEpt (s.pc t)) (hf : ¬filled (s.pc t))
    (hp : hasEpt p) (hpf : filled p) (hpd : deleting p = none) :
    ∃ heap, QueueRing.swap .shared (.ept t) s.heap = some heap ∧
      Tracks ((s.setHeap heap).drop.setPc t p) (exchange .shared (.ept t) place) := by
  have hlive : Live s (.ept t) := he
  obtain ⟨heap, hswap, hc, hrep⟩ := swap_spec h.heap live_shared hlive (by simp)
  have hold : ∀ i < s.accepted.length, place i ≠ .queued (.ept t) :=
    fun i hi hq => hf (h.filled i hi t hq)
  have hwaiting : ∀ i, i ∈ s.waiting ↔ i < s.accepted.length ∧ place i = .queued .shared := by
    intro i
    rw [h.waiting, mem_itemsOn, h.created]
  have hdrop : ((s.setHeap heap).drop.setPc t p).dropped = s.dropped ++ s.waiting := rfl
  have hdel : deleting (s.pc t) = none := by
    cases hpc : s.pc t <;> simp_all [deleting, filled]
  have hshared : ∀ i < s.accepted.length,
      exchange .shared (.ept t) place i ≠ .queued .shared := by
    intro i hi hq
    rw [exchange_eq_queued, Equiv.swap_apply_left] at hq
    exact hold i hi hq
  refine ⟨heap, hswap, ?_⟩
  constructor
  case heap =>
    rw [live_setPc (by simp [hp, he])]
    exact hrep
  case shared =>
    intro i hi
    refine ⟨fun hq => absurd hq (hshared i hi), fun hn => ?_⟩
    rw [hdrop, List.mem_append, not_or, hwaiting] at hn
    exact absurd ⟨hi, (h.shared i hi).mpr ⟨hn.1, hn.2.1⟩⟩ hn.2.2
  case delivered =>
    intro d hd
    obtain ⟨hdv, hdp, hdn⟩ := h.delivered d hd
    refine ⟨hdv, exchange_eq_deleted.mpr hdp, ?_⟩
    rw [hdrop, List.mem_append, not_or, hwaiting]
    refine ⟨hdn, fun hw => ?_⟩
    rw [hdp] at hw
    cases hw.2
  case order => exact h.order
  case ahead => exact fun d _ i hi hq => absurd hq (hshared i hi)
  case dropped =>
    intro i hi
    rw [hdrop, List.mem_append, hwaiting] at hi
    exact hi.elim (h.dropped i) fun hw => hw.1
  case once =>
    rw [hdrop, List.nodup_append]
    refine ⟨h.once, List.nodup_range.filter _, ?_⟩
    intro i hi j hj hij
    have hw := (hwaiting j).mp hj
    exact ((h.shared j hw.1).mp hw.2).2 (hij ▸ hi)
  case filled =>
    intro i hi u hq
    by_cases hu : u = t
    · rw [hu]
      simpa using hpf
    · rw [exchange_eq_queued, Equiv.swap_apply_of_ne_of_ne (by simp) (by simpa using hu)] at hq
      simpa [hu] using h.filled i hi u hq
  case taken =>
    intro i hi q hq
    obtain ⟨u, hu⟩ := h.taken i hi q (exchange_eq_taken.mp hq)
    have hut : u ≠ t := by
      rintro rfl
      simp [hdel] at hu
    exact ⟨u, by simpa [hut] using hu⟩
  case deleting =>
    intro u i hu
    by_cases hut : u = t
    · subst hut
      simp [hpd] at hu
    · obtain ⟨hi, hq⟩ := h.deleting u i (by simpa [hut] using hu)
      exact ⟨hi, exchange_eq_taken.mpr hq⟩

/-- A call begins that has a local queue. -/
theorem tracks_construct (h : Tracks s place) {p : ℕ → Pc V} (he : s.pc t = .idle)
    (hp : ∀ c, hasEpt (p c) ∧ deleting (p c) = none) :
    ∃ heap, construct (.ept t) s.heap = some heap ∧
      Tracks ((s.setHeap heap).begin t p) place := by
  obtain ⟨heap, hcon, hc, hrep⟩ := construct_spec h.heap (q := .ept t) (by simp [Live, he, hasEpt])
  have hlive : Live ((s.setHeap heap).begin t p) = fun q => q = .ept t ∨ Live s q := by
    funext q
    cases q with
    | shared => simp [Live]
    | ept u =>
      by_cases hu : u = t
      · subst hu
        simp [Live, hp]
      · simp [Live, hu]
  refine ⟨heap, hcon, ?_, h.shared, h.delivered, h.order, h.ahead, h.dropped, h.once, ?_, ?_, ?_⟩
  · rw [hlive]
    exact hrep
  · intro i hi u hq
    have hfu := h.filled i hi u hq
    have hut : u ≠ t := by
      rintro rfl
      simp [he, WorkQueueMemory.filled] at hfu
    simpa [hut] using hfu
  · intro i hi q hq
    obtain ⟨u, hu⟩ := h.taken i hi q hq
    have hut : u ≠ t := by
      rintro rfl
      simp [he, WorkQueueMemory.deleting] at hu
    exact ⟨u, by simpa [hut] using hu⟩
  · intro u i hu
    by_cases hut : u = t
    · subst hut
      simp [hp] at hu
    · exact h.deleting u i (by simpa [hut] using hu)

/-- The destructor of a local queue that is empty ends its life. -/
theorem tracks_endLife (h : Tracks s place) {p : Pc V} (hdel : deleting (s.pc t) = none)
    (hp : ¬hasEpt p ∧ deleting p = none) (hn : itemsOn place s.heap.created (.ept t) = []) :
    Tracks ((s.setHeap (endLife (.ept t) s.heap)).setPc t p) place := by
  have hlive : Live ((s.setHeap (endLife (.ept t) s.heap)).setPc t p) =
      fun q => q ≠ .ept t ∧ Live s q := by
    funext q
    cases q with
    | shared => simp [Live]
    | ept u =>
      by_cases hu : u = t
      · subst hu
        simp [Live, hp]
      · simp [Live, hu]
  refine ⟨?_, h.shared, h.delivered, h.order, h.ahead, h.dropped, h.once, ?_, ?_, ?_⟩
  · rw [hlive]
    exact endLife_spec h.heap hn
  · intro i hi u hq
    have hut : u ≠ t := by
      rintro rfl
      exact itemsOn_eq_nil.mp hn i (h.created ▸ hi) hq
    simpa [hut] using h.filled i hi u hq
  · intro i hi q hq
    obtain ⟨u, hu⟩ := h.taken i hi q hq
    have hut : u ≠ t := by
      rintro rfl
      simp [hdel] at hu
    exact ⟨u, by simpa [hut] using hu⟩
  · intro u i hu
    by_cases hut : u = t
    · subst hut
      simp [hp] at hu
    · exact h.deleting u i (by simpa [hut] using hu)

/-- An item changes its place, away from or in a local queue: what that asks
of the threads. -/
theorem tracks_move (h : Tracks s place) {heap : Heap (Queue T) V} {p : Pc V}
    {dest : Place (Queue T)} (hrep : Represents heap (update place i dest) (Live s)
      (s.accepted.map Prod.snd))
    (hi : i < s.accepted.length) (hfrom : place i ≠ .queued .shared) (hgone : place i ≠ .deleted)
    (hp : hasEpt p ∧ filled p) (hpc : hasEpt (s.pc t))
    (hto : dest ≠ .queued .shared) (hnot : ∀ u, dest ≠ .queued (.ept u))
    (hold : ∀ j, deleting (s.pc t) = some j → j = i)
    (hnew : ∀ q, dest = .taken q → q = .ept t ∧ deleting p = some i)
    (hnext : ∀ j, deleting p = some j → j = i ∧ dest = .taken (.ept t))
    (hother : ∀ u, u ≠ t → deleting (s.pc u) ≠ some i) :
    Tracks ((s.setHeap heap).setPc t p) (update place i dest) := by
  constructor
  case heap =>
    rw [live_setPc (by simp [hp, hpc])]
    exact hrep
  case shared =>
    intro j hj
    by_cases hji : j = i
    · subst hji
      rw [update_self]
      refine ⟨fun hq => absurd hq hto, fun hn => absurd ((h.shared j hj).mpr hn) hfrom⟩
    · rw [update_of_ne hji]
      exact h.shared j hj
  case delivered =>
    intro d hd
    obtain ⟨hdv, hdp, hdn⟩ := h.delivered d hd
    have hdi : d.item ≠ i := by
      rintro rfl
      exact hgone hdp
    exact ⟨hdv, by rw [update_of_ne hdi, hdp], hdn⟩
  case order => exact h.order
  case ahead =>
    intro d hd j hj hq
    by_cases hji : j = i
    · subst hji
      rw [update_self] at hq
      exact absurd hq hto
    · rw [update_of_ne hji] at hq
      exact h.ahead d hd j hj hq
  case dropped => exact h.dropped
  case once => exact h.once
  case filled =>
    intro j hj u hq
    by_cases hji : j = i
    · subst hji
      rw [update_self] at hq
      exact absurd hq (hnot u)
    · rw [update_of_ne hji] at hq
      have hfu := h.filled j hj u hq
      by_cases hut : u = t
      · subst hut
        simpa using hp.2
      · simpa [hut] using hfu
  case taken =>
    intro j hj q hq
    by_cases hji : j = i
    · subst hji
      rw [update_self] at hq
      exact ⟨t, by simpa using (hnew q hq).2⟩
    · rw [update_of_ne hji] at hq
      obtain ⟨u, hu⟩ := h.taken j hj q hq
      have hut : u ≠ t := by
        rintro rfl
        exact hji (hold j hu)
      exact ⟨u, by simpa [hut] using hu⟩
  case deleting =>
    intro u j hu
    by_cases hut : u = t
    · subst hut
      obtain ⟨rfl, hto'⟩ := hnext j (by simpa using hu)
      rw [update_self]
      exact ⟨hi, hto'⟩
    · have hu' : WorkQueueMemory.deleting (s.pc u) = some j := by simpa [hut] using hu
      have hji : j ≠ i := by
        rintro rfl
        exact hother u hut hu'
      rw [update_of_ne hji]
      exact h.deleting u j hu'

/-- The destructor takes the front off its queue, to delete it next. -/
theorem tracks_unlink (h : Tracks s place) {r : Ret V} {xs : List ℕ} (hpc : s.pc t = .unlink c r)
    (hi : itemsOn place s.heap.created (.ept t) = i :: xs) :
    ∃ heap, removeFirst (.ept t) s.heap = some (i, heap) ∧
      Tracks ((s.setHeap heap).setPc t (.delete c r i)) (update place i (.taken (.ept t))) := by
  have hlive : Live s (.ept t) := by simp [Live, hpc, hasEpt]
  obtain ⟨heap, hrem, -, hrep⟩ := removeFirst_spec h.heap hlive hi
  have hfront : i < s.heap.created ∧ place i = .queued (.ept t) :=
    mem_itemsOn.mp (hi ▸ List.mem_cons_self)
  rw [h.created] at hfront
  refine ⟨heap, hrem, tracks_move h hrep hfront.1 ?_ ?_ ⟨trivial, trivial⟩ hlive ?_ ?_ ?_ ?_ ?_ ?_⟩
  · simp [hfront.2]
  · simp [hfront.2]
  · simp
  · simp
  · simp [hpc, deleting]
  · intro q hq
    exact ⟨(Place.taken.inj hq).symm, rfl⟩
  · intro j hj
    exact ⟨(Option.some.inj hj).symm, rfl⟩
  · intro u _ hu
    have hp := (h.deleting u i hu).2
    rw [hfront.2] at hp
    cases hp

/-- The destructor deletes the item that it took off. -/
theorem tracks_delete (h : Tracks s place) {r : Ret V} (hpc : s.pc t = .delete c r i) :
    ∃ heap, deleteItem i s.heap = some heap ∧
      Tracks ((s.setHeap heap).setPc t (.unlink c r)) (update place i .deleted) := by
  obtain ⟨hi, hp⟩ := h.deleting t i (by rw [hpc]; rfl)
  obtain ⟨heap, hdel, -, hrep⟩ := deleteItem_spec h.heap (h.created ▸ hi) hp
  refine ⟨heap, hdel, tracks_move h hrep hi ?_ ?_ ⟨trivial, trivial⟩ ?_ ?_ ?_ ?_ ?_ ?_ ?_⟩
  · simp [hp]
  · simp [hp]
  · simp [hpc, hasEpt]
  · simp
  · simp
  · intro j hj
    rw [hpc] at hj
    exact (Option.some.inj hj).symm
  · simp
  · simp [deleting]
  · intro u hut hu
    have hq := (h.deleting u i hu).2
    rw [hp] at hq
    exact hut (Queue.ept.inj (Place.taken.inj hq)).symm

/-- A call begins. -/
theorem tracks_call (h : Tracks s place) (hpc : s.pc t = .idle) (op : Call V) :
    ∃ s', call t s op = some s' ∧ Tracks s' place := by
  have hbegin : ∀ p : ℕ → Pc V, ¬hasEpt (p s.calls) → deleting (p s.calls) = none →
      Tracks (s.begin t p) place := by
    intro p hp hd
    have h' := tracks_setPc (t := t) (p := p s.calls) h (by simp [hpc, hp, hasEpt.eq_def (.idle)])
      (by simp [hpc, filled.eq_def (.idle)]) (by rw [hpc]; rfl) hd
    exact h'.of_same rfl rfl rfl rfl rfl
  cases op with
  | enque v => exact ⟨_, rfl, hbegin _ not_false rfl⟩
  | emptyEnque v =>
    obtain ⟨heap, hcon, h'⟩ := tracks_construct h (p := fun c => .emptyEnque c v) hpc
      fun _ => ⟨trivial, rfl⟩
    exact ⟨_, by simp [call, hcon], h'⟩
  | clear =>
    obtain ⟨heap, hcon, h'⟩ := tracks_construct h (p := .clear) hpc fun _ => ⟨trivial, rfl⟩
    exact ⟨_, by simp [call, hcon], h'⟩
  | deque => exact ⟨_, rfl, hbegin _ not_false rfl⟩
  | goExit => exact ⟨_, rfl, hbegin _ not_false rfl⟩

/-- A thread that is in a call takes its next step, and the record stays right. -/
theorem tracks_go (h : Tracks s place) (hpc : s.pc t ≠ .idle) (allocated : Bool) :
    ∃ s' place', go t allocated s = some s' ∧ Tracks s' place' := by
  have hstay : ∀ p : Pc V, (hasEpt p ↔ hasEpt (s.pc t)) → (filled (s.pc t) → filled p) →
      deleting (s.pc t) = none → deleting p = none → Tracks (s.setPc t p) place :=
    fun p => tracks_setPc h
  unfold go
  cases hp : s.pc t with
  | idle => exact absurd hp hpc
  | enque c v =>
    obtain ⟨heap, place', hpush, h'⟩ := tracks_push h c v allocated
    have h'' := tracks_setPc (t := t)
      (p := .enqued c (itemsOn place s.heap.created .shared).isEmpty allocated) h'
      (by simp [hp, hasEpt]) (by simp [hp, filled]) (by simp [hp, deleting]) rfl
    exact ⟨_, place', by simp [enqueLocked, empty_spec h.heap live_shared, hpush], h''⟩
  | enqued c empty ok =>
    have h' := hstay .idle (by simp [hp, hasEpt]) (by simp [hp, filled])
      (by simp [hp, deleting]) rfl
    exact ⟨_, place, rfl, h'.of_same rfl rfl rfl rfl rfl⟩
  | emptyEnque c v =>
    obtain ⟨heap, hswap, h'⟩ := tracks_swap h (t := t) (p := .emptyEnqued c allocated)
      (by simp [hp, hasEpt]) (by simp [hp, filled]) trivial trivial rfl
    obtain ⟨heap', place', hpush, h''⟩ := tracks_push h' c v allocated
    have hpush' : pushBack .shared v allocated heap = some (allocated, heap') := hpush
    refine ⟨((s.setHeap heap').drop.accept c v allocated).setPc t (.emptyEnqued c allocated), place',
      by simp [emptyEnqueLocked, hswap, hpush'], h''.of_same rfl rfl rfl rfl rfl⟩
  | emptyEnqued c ok =>
    have h' := hstay (.unlink c (.added ok)) (by simp [hp, hasEpt]) (by simp [filled])
      (by simp [hp, deleting]) rfl
    exact ⟨_, place, rfl, h'.of_same rfl rfl rfl rfl rfl⟩
  | clear c =>
    obtain ⟨heap, hswap, h'⟩ := tracks_swap h (t := t) (p := .cleared c)
      (by simp [hp, hasEpt]) (by simp [hp, filled]) trivial trivial rfl
    exact ⟨_, _, by simp [clearLocked, hswap], h'⟩
  | cleared c =>
    have h' := hstay (.unlink c .cleared) (by simp [hp, hasEpt]) (by simp [filled])
      (by simp [hp, deleting]) rfl
    exact ⟨_, place, rfl, h'.of_same rfl rfl rfl rfl rfl⟩
  | unlink c r =>
    have hlive : Live s (.ept t) := by simp [Live, hp, hasEpt]
    cases hi : itemsOn place s.heap.created (.ept t) with
    | nil =>
      have h' := tracks_endLife h (t := t) (p := .idle) (by simp [hp, deleting])
        ⟨not_false, rfl⟩ hi
      exact ⟨((s.setHeap (endLife (.ept t) s.heap)).ret c r).setPc t .idle, place,
        by simp [unlinkRound, empty_spec h.heap hlive, hi], h'.of_same rfl rfl rfl rfl rfl⟩
    | cons i xs =>
      obtain ⟨heap, hrem, h'⟩ := tracks_unlink h hp hi
      exact ⟨_, _, by simp [unlinkRound, empty_spec h.heap hlive, hi, hrem], h'⟩
  | delete c r i =>
    obtain ⟨heap, hdel, h'⟩ := tracks_delete h hp
    exact ⟨_, _, by simp [hdel], h'⟩
  | deque c =>
    cases hi : itemsOn place s.heap.created .shared with
    | nil =>
      have h' := hstay (.wait c) (by simp [hp, hasEpt]) (by simp [hp, filled])
        (by simp [hp, deleting]) rfl
      exact ⟨(s.setHeap s.heap).setPc t (.wait c), place,
        by simp [dequeLocked, empty_spec h.heap live_shared, hi], h'.of_same rfl rfl rfl rfl rfl⟩
    | cons i xs =>
      obtain ⟨v, heap, hpop, h'⟩ := tracks_pop h c hi
      have h'' := tracks_setPc h' (t := t) (p := .dequed c (some v))
        (by simp [hp, hasEpt]) (by simp [hp, filled]) (by simp [hp, deleting]) rfl
      exact ⟨_, _, by simp [dequeLocked, empty_spec h.heap live_shared, hi, hpop], h''⟩
  | wait c =>
    have h' := hstay (.test c) (by simp [hp, hasEpt]) (by simp [hp, filled])
      (by simp [hp, deleting]) rfl
    exact ⟨_, place, rfl, h'.of_same rfl rfl rfl rfl rfl⟩
  | test c =>
    cases he : s.exit with
    | true =>
      have h' := hstay .idle (by simp [hp, hasEpt]) (by simp [hp, filled]) (by simp [hp, deleting])
        rfl
      exact ⟨(s.ret c (.dequed .exit none)).setPc t .idle, place, by simp,
        h'.of_same rfl rfl rfl rfl rfl⟩
    | false =>
      have h' := hstay (.deque c) (by simp [hp, hasEpt]) (by simp [hp, filled])
        (by simp [hp, deleting]) rfl
      exact ⟨_, place, by simp, h'⟩
  | dequed c o =>
    have h' := hstay .idle (by simp [hp, hasEpt]) (by simp [hp, filled])
      (by simp [hp, deleting]) rfl
    exact ⟨_, place, rfl, h'.of_same rfl rfl rfl rfl rfl⟩
  | goExit c =>
    have h' := hstay (.setExit c s.exit) (by simp [hp, hasEpt]) (by simp [hp, filled])
      (by simp [hp, deleting]) rfl
    exact ⟨_, place, rfl, h'.of_same rfl rfl rfl rfl rfl⟩
  | setExit c rt =>
    have h' := hstay .idle (by simp [hp, hasEpt]) (by simp [hp, filled])
      (by simp [hp, deleting]) rfl
    exact ⟨_, place, rfl, h'.of_same rfl rfl rfl rfl rfl⟩

end Memory

end KernelLib.WorkQueueMemory
