import Mathlib.Data.List.Chain
import Mathlib.Data.List.Nodup
import Mathlib.Logic.Function.Basic

/-!
# Circular doubly linked rings in a memory of entries

A memory gives every allocated address an entry with a forward and a
backward pointer. Reading or writing through a null pointer or through an
address without an entry fails. A ring is a head and the addresses met by
following the forward pointers until the head is met again, each of them
pointed back to by its successor. The usual inline operations on such
rings are stated as pointer programs, each with the ring it leaves and
the entries it does not touch.
-/

namespace KernelLib.LinkedRing

variable {α : Type*}

/-- The two pointers of an entry; `none` is the null pointer. -/
structure Entry (α : Type*) where
  /-- Forward pointer. -/
  flink : Option α
  /-- Backward pointer. -/
  blink : Option α
  deriving DecidableEq, Repr

/-- A memory of entries; an address without an entry is not allocated. -/
abbrev Links (α : Type*) := α → Option (Entry α)

/-- The forward pointer stored at an address. -/
def next (m : Links α) (a : α) : Option α := (m a).bind Entry.flink

/-- The backward pointer stored at an address. -/
def prev (m : Links α) (a : α) : Option α := (m a).bind Entry.blink

/-- The first address points forward to the second, which points back to it. -/
def Linked (m : Links α) (a b : α) : Prop := next m a = some b ∧ prev m b = some a

/-- The head, the given addresses in order, and the head again are linked one
to the next, and no address occurs twice. -/
structure Ring (m : Links α) (h : α) (xs : List α) : Prop where
  nodup : (h :: xs).Nodup
  chain : (h :: xs ++ [h]).IsChain (Linked m)

/-- An operation leaves alone every entry outside the listed addresses, and
allocates and frees none. -/
structure Frame (m m' : Links α) (touched : List α) : Prop where
  same : ∀ c, c ∉ touched → m' c = m c
  alloc : ∀ c, (m' c).isSome = (m c).isSome

theorem Linked.isSome_left {m : Links α} {a b : α} (h : Linked m a b) : (m a).isSome := by
  have hn := h.1
  cases he : m a with
  | none => simp [next, he] at hn
  | some e => rfl

theorem Linked.isSome_right {m : Links α} {a b : α} (h : Linked m a b) : (m b).isSome := by
  have hp := h.2
  cases he : m b with
  | none => simp [prev, he] at hp
  | some e => rfl

/-- A chain only depends on the forward pointers of all but its last address
and the backward pointers of all but its first. -/
theorem chain_congr {m m' : Links α} {xs : List α} (hn : ∀ c ∈ xs.dropLast, next m' c = next m c)
    (hp : ∀ c ∈ xs.tail, prev m' c = prev m c) (h : xs.IsChain (Linked m)) :
    xs.IsChain (Linked m') := by
  induction xs with
  | nil => exact .nil
  | cons a xs ih =>
    cases xs with
    | nil => exact .singleton a
    | cons b xs =>
      rw [List.isChain_cons_cons] at h ⊢
      refine ⟨⟨?_, ?_⟩, ih ?_ ?_ h.2⟩
      · rw [hn a (by simp)]
        exact h.1.1
      · rw [hp b (by simp)]
        exact h.1.2
      · exact fun c hc => hn c (by simp [List.dropLast_cons_cons, hc])
      · exact fun c hc => hp c (by simpa using .inr hc)

/-- A ring only depends on its own entries. -/
theorem Ring.congr {m m' : Links α} {h : α} {xs : List α} (hr : Ring m h xs)
    (hs : ∀ c ∈ h :: xs, m' c = m c) : Ring m' h xs := by
  have hmem : ∀ c ∈ h :: xs ++ [h], m' c = m c := by
    intro c hc
    refine hs c ?_
    rcases List.mem_append.mp hc with hc | hc
    · exact hc
    · rw [List.mem_singleton.mp hc]
      exact List.mem_cons_self
  refine ⟨hr.nodup, chain_congr ?_ ?_ hr.chain⟩
  · intro c hc
    simp only [next, hmem c (List.dropLast_subset _ hc)]
  · intro c hc
    simp only [prev, hmem c (List.mem_of_mem_tail hc)]

/-- Rings over untouched entries stay. -/
theorem Ring.frame {m m' : Links α} {h : α} {xs touched : List α} (hr : Ring m h xs)
    (hf : Frame m m' touched) (hd : ∀ c ∈ h :: xs, c ∉ touched) : Ring m' h xs :=
  hr.congr fun c hc => hf.same c (hd c hc)

/-- Every address of a ring is allocated. -/
theorem Ring.isSome {m : Links α} {h : α} {xs : List α} (hr : Ring m h xs) {c : α}
    (hc : c ∈ h :: xs) : (m c).isSome := by
  obtain ⟨us, vs, he⟩ := List.append_of_mem hc
  have hch := hr.chain
  rw [he, List.append_assoc, List.cons_append, List.isChain_split] at hch
  cases vs with
  | nil => exact (List.isChain_cons_cons.mp hch.2).1.isSome_left
  | cons v vs => exact (List.isChain_cons_cons.mp hch.2).1.isSome_left

/-- The last address of a ring, which its head follows. -/
theorem Ring.exists_last {m : Links α} {h : α} {xs : List α} (hr : Ring m h xs) :
    ∃ us p, h :: xs = us ++ [p] ∧ (us ++ [p]).IsChain (Linked m) ∧ Linked m p h ∧ p ∉ us := by
  obtain ⟨us, p, hus⟩ := (List.eq_nil_or_concat (h :: xs)).resolve_left (by simp)
  rw [List.concat_eq_append] at hus
  have hch := hr.chain
  rw [hus, List.append_assoc, List.singleton_append, List.isChain_split] at hch
  have hnd := hr.nodup
  rw [hus] at hnd
  exact ⟨us, p, hus, hch.1, (List.isChain_cons_cons.mp hch.2).1,
    fun hp => (List.nodup_append.mp hnd).2.2 p hp p (by simp) rfl⟩

/-- The first address of a ring, which follows its head. -/
theorem Ring.exists_first {m : Links α} {h : α} {xs : List α} (hr : Ring m h xs) :
    ∃ q vs, xs ++ [h] = q :: vs ∧ Linked m h q ∧ (q :: vs).IsChain (Linked m) ∧ q ∉ vs ∧
      q ∈ h :: xs := by
  have hch := hr.chain
  have hnd := List.nodup_cons.mp hr.nodup
  cases xs with
  | nil =>
    exact ⟨h, [], rfl, (List.isChain_cons_cons.mp hch).1, .singleton h, by simp, by simp⟩
  | cons q xs =>
    obtain ⟨hl, hc⟩ := List.isChain_cons_cons.mp hch
    refine ⟨q, xs ++ [h], rfl, hl, hc, ?_, by simp⟩
    have hq := (List.nodup_cons.mp hnd.2).1
    have hqh : q ≠ h := fun hx => hnd.1 (hx ▸ List.mem_cons_self)
    simp [hq, hqh]

/-- The neighbours of one entry differ from everything a removal keeps. -/
structure Neighbours (e p q : α) (us xs ys vs : List α) : Prop where
  p_us : p ∉ us
  p_ys : p ∉ ys
  q_xs : q ∉ xs
  q_vs : q ∉ vs
  e_p : e ≠ p
  e_q : e ≠ q

/-- A ring around one of its entries: the neighbours and the chains beyond. -/
theorem Ring.exists_neighbours {m : Links α} {h e : α} {xs ys : List α}
    (hr : Ring m h (xs ++ e :: ys)) :
    ∃ us p q vs, h :: xs = us ++ [p] ∧ ys ++ [h] = q :: vs ∧ Neighbours e p q us xs ys vs ∧
      (us ++ [p]).IsChain (Linked m) ∧ Linked m p e ∧ Linked m e q ∧
      (q :: vs).IsChain (Linked m) := by
  have hch := hr.chain
  have hnd : ((h :: xs) ++ e :: ys).Nodup := hr.nodup
  obtain ⟨hndx, hndy, hdis⟩ := List.nodup_append.mp hnd
  obtain ⟨us, p, hus⟩ := (List.eq_nil_or_concat (h :: xs)).resolve_left (by simp)
  rw [List.concat_eq_append] at hus
  obtain ⟨q, vs, hqv⟩ : ∃ q vs, ys ++ [h] = q :: vs := by
    cases ys with
    | nil => exact ⟨h, [], rfl⟩
    | cons q ys => exact ⟨q, ys ++ [h], rfl⟩
  have hp : p ∈ h :: xs := by rw [hus]; simp
  have hq : q ∈ ys ∨ q = h := by
    have hm : q ∈ ys ++ [h] := by rw [hqv]; simp
    simpa using hm
  have hyh : (ys ++ [h]).Nodup := by
    refine (List.nodup_cons.mp hndy).2.append (List.nodup_singleton h) ?_
    simpa using fun hx => hdis h List.mem_cons_self h (List.mem_cons_of_mem _ hx) rfl
  have hfull : h :: (xs ++ e :: ys) ++ [h] = us ++ p :: e :: q :: vs := by
    rw [← List.cons_append, hus, List.append_assoc, List.cons_append, hqv]
    simp
  rw [hfull, List.isChain_split] at hch
  obtain ⟨hpe, hch2⟩ := List.isChain_cons_cons.mp hch.2
  obtain ⟨heq, hch3⟩ := List.isChain_cons_cons.mp hch2
  refine ⟨us, p, q, vs, hus, hqv, ⟨?_, ?_, ?_, ?_, ?_, ?_⟩, hch.1, hpe, heq, hch3⟩
  · rw [hus] at hndx
    exact fun hx => (List.nodup_append.mp hndx).2.2 p hx p (by simp) rfl
  · exact fun hx => hdis p hp p (List.mem_cons_of_mem _ hx) rfl
  · intro hx
    rcases hq with hy | rfl
    · exact hdis q (List.mem_cons_of_mem _ hx) q (List.mem_cons_of_mem _ hy) rfl
    · exact (List.nodup_cons.mp hndx).1 hx
  · rw [hqv] at hyh
    exact (List.nodup_cons.mp hyh).1
  · exact fun hx => hdis p hp e List.mem_cons_self hx.symm
  · rintro rfl
    rcases hq with hy | rfl
    · exact (List.nodup_cons.mp hndy).1 hy
    · exact hdis e List.mem_cons_self e List.mem_cons_self rfl

/-- The pointers of an entry on a ring are not null. -/
theorem Ring.entry_linked {m : Links α} {h e : α} {entry : Entry α} {xs ys : List α}
    (hr : Ring m h (xs ++ e :: ys)) (he : m e = some entry) :
    entry.flink ≠ none ∧ entry.blink ≠ none := by
  obtain ⟨_, _, _, _, -, -, -, -, hpe, heq, -⟩ := hr.exists_neighbours
  have hnext := heq.1
  have hprev := hpe.2
  rw [next, he, Option.bind_some] at hnext
  rw [prev, he, Option.bind_some] at hprev
  simp [hnext, hprev]

/-- Only the last address of a list without repetitions is that address. -/
theorem ne_of_mem_dropLast {xs : List α} {p c : α} (hnd : xs.Nodup) (hp : xs.getLast? = some p)
    (hc : c ∈ xs.dropLast) : c ≠ p := by
  obtain ⟨us, rfl⟩ := List.getLast?_eq_some_iff.mp hp
  rw [List.dropLast_concat] at hc
  exact (List.nodup_append.mp hnd).2.2 c hc p (by simp)

/-- Only the first address of a list without repetitions is that address. -/
theorem ne_of_mem_tail {xs vs : List α} {q c : α} (hnd : xs.Nodup) (hq : xs = q :: vs)
    (hc : c ∈ xs.tail) : c ≠ q := by
  subst hq
  exact fun hx => (List.nodup_cons.mp hnd).1 (hx ▸ hc)

/-- A chain closed by a head on both sides is a ring. -/
theorem ring_of_chain {m : Links α} {h p q : α} {us vs : List α} (hnd : (h :: us).Nodup)
    (hus : us = q :: vs) (hlast : us.getLast? = some p) (hch : us.IsChain (Linked m))
    (hhq : Linked m h q) (hph : Linked m p h) : Ring m h us := by
  refine ⟨hnd, ?_⟩
  subst hus
  rw [List.cons_append, List.cons_append]
  refine List.isChain_cons_cons.mpr ⟨hhq, ?_⟩
  rw [← List.cons_append, List.isChain_append]
  refine ⟨hch, .singleton h, ?_⟩
  intro x hx y hy
  rw [hlast, Option.mem_some] at hx
  rw [List.head?_cons, Option.mem_some] at hy
  rw [← hx, ← hy]
  exact hph

/-- The inner chain of a ring, with the pointers of its head. -/
theorem Ring.inner {m : Links α} {h p q : α} {xs vs : List α} (hr : Ring m h xs)
    (hxs : xs = q :: vs) (hlast : xs.getLast? = some p) :
    xs.IsChain (Linked m) ∧ Linked m h q ∧ Linked m p h := by
  have hch := hr.chain
  subst hxs
  rw [List.cons_append, List.cons_append] at hch
  obtain ⟨hhq, hch⟩ := List.isChain_cons_cons.mp hch
  rw [← List.cons_append, List.isChain_append] at hch
  exact ⟨hch.1, hhq, hch.2.2 p hlast h rfl⟩

/-- The head of a non-empty ring points at its first and last entries. -/
theorem Ring.head_entry {m : Links α} {h : α} {xs : List α} {old : Entry α}
    (hr : Ring m h xs) (hold : m h = some old) :
    (xs ≠ [] → old.flink = xs.head?) ∧ (xs ≠ [] → old.blink = xs.getLast?) := by
  cases hxs : xs with
  | nil => simp
  | cons q vs =>
    obtain ⟨p, hp⟩ : ∃ p, xs.getLast? = some p := Option.isSome_iff_exists.mp (by simp [hxs])
    obtain ⟨-, hhq, hph⟩ := hr.inner hxs hp
    constructor
    · intro _
      simpa [next, hold] using hhq.1
    · intro _
      rw [← hxs, hp]
      simpa [prev, hold] using hph.2

/-- The inner chain of any ring. -/
theorem Ring.isChain {m : Links α} {h : α} {xs : List α} (hr : Ring m h xs) :
    xs.IsChain (Linked m) := by
  have hch := hr.chain
  rw [List.isChain_append] at hch
  exact hch.1.tail

variable [DecidableEq α]

/-- Replace the forward pointer of one entry. -/
def withFlink (m : Links α) (a : α) (q : Option α) : Links α :=
  Function.update m a ((m a).map fun e => { e with flink := q })

/-- Replace the backward pointer of one entry. -/
def withBlink (m : Links α) (a : α) (q : Option α) : Links α :=
  Function.update m a ((m a).map fun e => { e with blink := q })

/-- The assignment `p->Flink = q`. -/
def setFlink (p q : Option α) (m : Links α) : Option (Links α) :=
  p.bind fun a => if (m a).isSome then some (withFlink m a q) else none

/-- The assignment `p->Blink = q`. -/
def setBlink (p q : Option α) (m : Links α) : Option (Links α) :=
  p.bind fun a => if (m a).isSome then some (withBlink m a q) else none

section Memory

variable {m : Links α} {a c : α} {q : Option α}

@[simp] theorem isSome_withFlink : (withFlink m a q c).isSome = (m c).isSome := by
  by_cases h : c = a <;> simp [withFlink, h]

@[simp] theorem isSome_withBlink : (withBlink m a q c).isSome = (m c).isSome := by
  by_cases h : c = a <;> simp [withBlink, h]

theorem withFlink_of_ne (h : c ≠ a) : withFlink m a q c = m c := Function.update_of_ne h _ _

theorem withBlink_of_ne (h : c ≠ a) : withBlink m a q c = m c := Function.update_of_ne h _ _

@[simp] theorem setFlink_some (h : (m a).isSome) :
    setFlink (some a) q m = some (withFlink m a q) := by simp [setFlink, h]

@[simp] theorem setBlink_some (h : (m a).isSome) :
    setBlink (some a) q m = some (withBlink m a q) := by simp [setBlink, h]

/-- A forward pointer is the last one written. -/
theorem next_withFlink (h : (m a).isSome) :
    next (withFlink m a q) c = if c = a then q else next m c := by
  obtain ⟨e, he⟩ := Option.isSome_iff_exists.mp h
  by_cases hc : c = a
  · subst hc
    simp [next, withFlink, he]
  · simp [next, withFlink, hc]

@[simp] theorem next_withBlink : next (withBlink m a q) c = next m c := by
  by_cases hc : c = a
  · subst hc
    cases h : m c <;> simp [next, withBlink, h]
  · simp [next, withBlink, hc]

/-- A backward pointer is the last one written. -/
theorem prev_withBlink (h : (m a).isSome) :
    prev (withBlink m a q) c = if c = a then q else prev m c := by
  obtain ⟨e, he⟩ := Option.isSome_iff_exists.mp h
  by_cases hc : c = a
  · subst hc
    simp [prev, withBlink, he]
  · simp [prev, withBlink, hc]

@[simp] theorem prev_withFlink : prev (withFlink m a q) c = prev m c := by
  by_cases hc : c = a
  · subst hc
    cases h : m c <;> simp [prev, withFlink, h]
  · simp [prev, withFlink, hc]

end Memory

/-- `InitializeListHead`. -/
def initializeListHead (h : α) (m : Links α) : Option (Links α) :=
  (setFlink (some h) (some h) m).bind (setBlink (some h) (some h))

/-- `IsListEmpty`. -/
def isListEmpty (h : α) (m : Links α) : Option Bool :=
  (m h).map fun e => decide (e.flink = some h)

/-- `InsertTailList`. -/
def insertTailList (h e : α) (m : Links α) : Option (Links α) := do
  let head ← m h
  let prevEntry := head.blink
  let m ← setFlink (some e) (some h) m
  let m ← setBlink (some e) prevEntry m
  let m ← setFlink prevEntry (some e) m
  setBlink (some h) (some e) m

/-- `InsertHeadList`. -/
def insertHeadList (h e : α) (m : Links α) : Option (Links α) := do
  let head ← m h
  let nextEntry := head.flink
  let m ← setFlink (some e) nextEntry m
  let m ← setBlink (some e) (some h) m
  let m ← setBlink nextEntry (some e) m
  setFlink (some h) (some e) m

/-- `RemoveEntryList`. -/
def removeEntryList (e : α) (m : Links α) : Option (Links α) := do
  let entry ← m e
  let m ← setFlink entry.blink entry.flink m
  setBlink entry.flink entry.blink m

/-- `RemoveHeadList`, with the entry it returns. -/
def removeHeadList (h : α) (m : Links α) : Option (α × Links α) := do
  let head ← m h
  let entry ← head.flink
  let e ← m entry
  let m ← setFlink (some h) e.flink m
  let m ← setBlink e.flink (some h) m
  return (entry, m)

section Operations

variable {m : Links α} {h e : α} {xs ys : List α}

/-- A fresh head is an empty ring. -/
theorem initializeListHead_spec (hh : (m h).isSome) :
    ∃ m', initializeListHead h m = some m' ∧ Ring m' h [] ∧ Frame m m' [h] := by
  refine ⟨withBlink (withFlink m h (some h)) h (some h), ?_, ⟨by simp, ?_⟩, ?_, ?_⟩
  · simp [initializeListHead, hh]
  · refine List.isChain_pair.mpr ⟨?_, ?_⟩
    · simp [next_withFlink hh]
    · rw [prev_withBlink (by simpa using hh), if_pos rfl]
  · intro c hc
    have hne : c ≠ h := by simpa using hc
    rw [withBlink_of_ne hne, withFlink_of_ne hne]
  · simp

/-- The emptiness test reads the head's forward pointer. -/
theorem isListEmpty_spec (hr : Ring m h xs) : isListEmpty h m = some xs.isEmpty := by
  obtain ⟨e, he⟩ := Option.isSome_iff_exists.mp (hr.isSome List.mem_cons_self)
  have hch := hr.chain
  cases xs with
  | nil =>
    have hn := (List.isChain_pair.mp hch).1
    simp only [next, he, Option.bind_some] at hn
    simp [isListEmpty, he, hn]
  | cons x xs =>
    have hn := (List.isChain_cons_cons.mp hch).1.1
    have hne : x ≠ h := fun hx => (List.nodup_cons.mp hr.nodup).1 (hx ▸ List.mem_cons_self)
    simp only [next, he, Option.bind_some] at hn
    simp [isListEmpty, he, hn, hne]

/-- A new entry at the tail goes behind the last one. -/
theorem insertTailList_spec (hr : Ring m h xs) (he : (m e).isSome) (hn : e ∉ h :: xs) :
    ∃ m', insertTailList h e m = some m' ∧ Ring m' h (xs ++ [e]) ∧
      Frame m m' (e :: h :: xs) := by
  obtain ⟨us, p, hus, hch, hph, hpus⟩ := hr.exists_last
  obtain ⟨head, hhead⟩ := Option.isSome_iff_exists.mp (hr.isSome List.mem_cons_self)
  have hp : p ∈ h :: xs := by rw [hus]; simp
  have hpe : p ≠ e := fun hx => hn (hx ▸ hp)
  have hhe : h ≠ e := fun hx => hn (hx ▸ List.mem_cons_self)
  have hblink : head.blink = some p := by
    have hb := hph.2
    simpa [prev, hhead] using hb
  have hps := hr.isSome hp
  have hhs := hr.isSome List.mem_cons_self
  refine ⟨withBlink (withFlink (withBlink (withFlink m e (some h)) e (some p)) p (some e)) h
    (some e), ?_, ⟨?_, ?_⟩, ?_, by simp⟩
  · simp [insertTailList, hhead, hblink, he, hps]
  · rw [← List.cons_append]
    exact hr.nodup.append (List.nodup_singleton e) (by simpa using hn)
  · have hnext : ∀ c, next (withBlink (withFlink (withBlink (withFlink m e (some h)) e (some p))
        p (some e)) h (some e)) c = if c = p then some e else if c = e then some h else next m c := by
      intro c
      rw [next_withBlink, next_withFlink (by simpa using hps), next_withBlink, next_withFlink he]
    have hprev : ∀ c, prev (withBlink (withFlink (withBlink (withFlink m e (some h)) e (some p))
        p (some e)) h (some e)) c = if c = h then some e else if c = e then some p else prev m c := by
      intro c
      rw [prev_withBlink (by simpa using hhs), prev_withFlink, prev_withBlink (by simpa using he),
        prev_withFlink]
    have hsplit : h :: (xs ++ [e]) ++ [h] = us ++ p :: [e, h] := by
      rw [← List.cons_append, hus]
      simp
    rw [hsplit, List.isChain_split]
    have hnd := hr.nodup
    constructor
    · refine chain_congr ?_ ?_ hch
      · intro c hc
        rw [List.dropLast_concat] at hc
        have hcp : c ≠ p := fun hx => hpus (hx ▸ hc)
        have hce : c ≠ e := fun hx => hn (by rw [hus, ← hx]; simp [hc])
        rw [hnext, if_neg hcp, if_neg hce]
      · intro c hc
        rw [← hus, List.tail_cons] at hc
        have hch' : c ≠ h := fun hx => (List.nodup_cons.mp hnd).1 (hx ▸ hc)
        have hce : c ≠ e := fun hx => hn (hx ▸ List.mem_cons_of_mem _ hc)
        rw [hprev, if_neg hch', if_neg hce]
    · simp [Linked, hnext, hprev, Ne.symm hpe, Ne.symm hhe]
  · intro c hc
    simp only [List.mem_cons, not_or] at hc
    have hcp : c ≠ p := fun hx => by
      rcases List.mem_cons.mp hp with hq | hq
      · exact hc.2.1 (hx.trans hq)
      · exact hc.2.2 (hx ▸ hq)
    rw [withBlink_of_ne hc.2.1, withFlink_of_ne hcp, withBlink_of_ne hc.1, withFlink_of_ne hc.1]

/-- A new entry at the head goes before the first one. -/
theorem insertHeadList_spec (hr : Ring m h xs) (he : (m e).isSome) (hn : e ∉ h :: xs) :
    ∃ m', insertHeadList h e m = some m' ∧ Ring m' h (e :: xs) ∧
      Frame m m' (e :: h :: xs) := by
  obtain ⟨q, vs, hqv, hhq, hch, hqvs, hq⟩ := hr.exists_first
  obtain ⟨head, hhead⟩ := Option.isSome_iff_exists.mp (hr.isSome List.mem_cons_self)
  have hqe : q ≠ e := fun hx => hn (hx ▸ hq)
  have hhe : h ≠ e := fun hx => hn (hx ▸ List.mem_cons_self)
  have hflink : head.flink = some q := by simpa [next, hhead] using hhq.1
  have hqs := hr.isSome hq
  have hhs := hr.isSome List.mem_cons_self
  refine ⟨withFlink (withBlink (withBlink (withFlink m e (some q)) e (some h)) q (some e)) h
    (some e), ?_, ⟨?_, ?_⟩, ?_, by simp⟩
  · simp [insertHeadList, hhead, hflink, he, hqs]
  · have hnd := List.nodup_cons.mp hr.nodup
    simp only [List.mem_cons, not_or] at hn
    simp [hnd.1, hnd.2, hn.2, hhe]
  · have hnext : ∀ c, next (withFlink (withBlink (withBlink (withFlink m e (some q)) e (some h))
        q (some e)) h (some e)) c = if c = h then some e else if c = e then some q else next m c := by
      intro c
      rw [next_withFlink (by simpa using hhs), next_withBlink, next_withBlink, next_withFlink he]
    have hprev : ∀ c, prev (withFlink (withBlink (withBlink (withFlink m e (some q)) e (some h))
        q (some e)) h (some e)) c = if c = q then some e else if c = e then some h else prev m c := by
      intro c
      rw [prev_withFlink, prev_withBlink (by simpa using hqs), prev_withBlink (by simpa using he),
        prev_withFlink]
    rw [List.cons_append, List.cons_append, hqv]
    refine List.isChain_cons_cons.mpr ⟨?_, List.isChain_cons_cons.mpr ⟨?_, ?_⟩⟩
    · simp [Linked, hnext, hprev, Ne.symm hqe]
    · simp [Linked, hnext, hprev, Ne.symm hhe]
    · refine chain_congr ?_ ?_ hch
      · intro c hc
        rw [← hqv, List.dropLast_concat] at hc
        have hcp : c ≠ h := fun hx => (List.nodup_cons.mp hr.nodup).1 (hx ▸ hc)
        have hce : c ≠ e := fun hx => hn (hx ▸ List.mem_cons_of_mem _ hc)
        rw [hnext, if_neg hcp, if_neg hce]
      · intro c hc
        have hcq : c ≠ q := fun hx => hqvs (hx ▸ hc)
        have hce : c ≠ e := by
          rintro rfl
          have hm : c ∈ xs ++ [h] := by rw [hqv]; exact List.mem_cons_of_mem _ hc
          exact hn (by simpa [or_comm] using hm)
        rw [hprev, if_neg hcq, if_neg hce]
  · intro c hc
    simp only [List.mem_cons, not_or] at hc
    have hcq : c ≠ q := fun hx => by
      rcases List.mem_cons.mp hq with hp | hp
      · exact hc.2.1 (hx.trans hp)
      · exact hc.2.2 (hx ▸ hp)
    rw [withFlink_of_ne hc.2.1, withBlink_of_ne hcq, withBlink_of_ne hc.1, withFlink_of_ne hc.1]

/-- An unlinked entry keeps its own pointers; its neighbours close the ring. -/
theorem removeEntryList_spec (hr : Ring m h (xs ++ e :: ys)) :
    ∃ m', removeEntryList e m = some m' ∧ Ring m' h (xs ++ ys) ∧ m' e = m e ∧
      Frame m m' (h :: (xs ++ ys)) := by
  obtain ⟨us, p, q, vs, hus, hqv, n, hch, hpe, heq, hch3⟩ := hr.exists_neighbours
  obtain ⟨entry, hentry⟩ := Option.isSome_iff_exists.mp heq.isSome_left
  have hflink : entry.flink = some q := by simpa [next, hentry] using heq.1
  have hblink : entry.blink = some p := by simpa [prev, hentry] using hpe.2
  have hps := hpe.isSome_left
  have hqs := heq.isSome_right
  have hnext : ∀ c, next (withBlink (withFlink m p (some q)) q (some p)) c =
      if c = p then some q else next m c := by
    intro c
    rw [next_withBlink, next_withFlink hps]
  have hprev : ∀ c, prev (withBlink (withFlink m p (some q)) q (some p)) c =
      if c = q then some p else prev m c := by
    intro c
    rw [prev_withBlink (by simpa using hqs), prev_withFlink]
  refine ⟨withBlink (withFlink m p (some q)) q (some p), ?_, ⟨?_, ?_⟩, ?_, ?_, by simp⟩
  · simp [removeEntryList, hentry, hflink, hblink, hps, hqs]
  · exact hr.nodup.sublist (by simp)
  · have hsplit : h :: (xs ++ ys) ++ [h] = us ++ p :: q :: vs := by
      rw [← List.cons_append, hus, List.append_assoc, hqv]
      simp
    rw [hsplit, List.isChain_split]
    constructor
    · refine chain_congr ?_ ?_ hch
      · intro c hc
        rw [List.dropLast_concat] at hc
        rw [hnext, if_neg (fun hx : c = p => n.p_us (hx ▸ hc))]
      · intro c hc
        rw [← hus, List.tail_cons] at hc
        rw [hprev, if_neg (fun hx : c = q => n.q_xs (hx ▸ hc))]
    · refine List.isChain_cons_cons.mpr ⟨by simp [Linked, hnext, hprev], chain_congr ?_ ?_ hch3⟩
      · intro c hc
        rw [← hqv, List.dropLast_concat] at hc
        rw [hnext, if_neg (fun hx : c = p => n.p_ys (hx ▸ hc))]
      · intro c hc
        rw [hprev, if_neg (fun hx : c = q => n.q_vs (hx ▸ hc))]
  · rw [withBlink_of_ne n.e_q, withFlink_of_ne n.e_p]
  · intro c hc
    have hp : p ∈ h :: xs := by rw [hus]; simp
    have hq : q ∈ ys ++ [h] := by rw [hqv]; simp
    have hcp : c ≠ p := by
      rintro rfl
      rcases List.mem_cons.mp hp with hx | hx <;> exact hc (by simp [hx])
    have hcq : c ≠ q := by
      rintro rfl
      rcases List.mem_append.mp hq with hx | hx
      · exact hc (by simp [hx])
      · exact hc (by simp_all)
    rw [withBlink_of_ne hcq, withFlink_of_ne hcp]

/-- Removing the head's successor is unlinking it, and returns it. -/
theorem removeHeadList_spec (hr : Ring m h (e :: xs)) :
    ∃ m', removeHeadList h m = some (e, m') ∧ Ring m' h xs ∧ m' e = m e ∧
      Frame m m' (h :: xs) := by
  have hr' : Ring m h ([] ++ e :: xs) := hr
  obtain ⟨m', hm', hring, hsame, hframe⟩ := removeEntryList_spec hr'
  refine ⟨m', ?_, hring, hsame, hframe⟩
  obtain ⟨hhe, -⟩ := List.isChain_cons_cons.mp hr.chain
  obtain ⟨head, hhead⟩ := Option.isSome_iff_exists.mp hhe.isSome_left
  obtain ⟨entry, hentry⟩ := Option.isSome_iff_exists.mp hhe.isSome_right
  have hflink : head.flink = some e := by simpa [next, hhead] using hhe.1
  have hblink : entry.blink = some h := by simpa [prev, hentry] using hhe.2
  simp only [removeEntryList, hentry, hblink, Option.bind_eq_bind, Option.bind_some,
    setFlink_some hhe.isSome_left] at hm'
  simp [removeHeadList, hhead, hflink, hentry, hm']

end Operations

section Traversal

variable {m : Links α} {h c : α} {xs ys : List α} {n : ℕ} {step : α → Option α}

/-- The addresses from one on until the head is met, for at most so many of them. -/
def walk (step : α → Option α) (h : α) : ℕ → α → Option (List α)
  | 0, _ => none
  | n + 1, c => if c = h then some [] else do
      let d ← step c
      let rest ← walk step h n d
      return c :: rest

/-- The addresses met by following the forward pointers from a head. -/
def forward (m : Links α) (h : α) (n : ℕ) : Option (List α) := (next m h).bind (walk (next m) h n)

/-- The addresses met by following the backward pointers from a head. -/
def backward (m : Links α) (h : α) (n : ℕ) : Option (List α) := (prev m h).bind (walk (prev m) h n)

/-- A walk that starts on a chain goes to its end. -/
theorem walk_chain (hch : (xs ++ [h]).IsChain fun a b => step a = some b) (hn : h ∉ xs)
    (hlt : xs.length < n) (hc : xs ++ [h] = c :: ys) : walk step h n c = some xs := by
  induction xs generalizing c ys n with
  | nil =>
    obtain ⟨k, rfl⟩ := Nat.exists_eq_add_one_of_ne_zero (Nat.ne_zero_of_lt hlt)
    obtain ⟨rfl, -⟩ := List.cons.inj hc
    exact if_pos rfl
  | cons x xs ih =>
    obtain ⟨k, rfl⟩ := Nat.exists_eq_add_one_of_ne_zero (Nat.ne_zero_of_lt hlt)
    obtain ⟨rfl, -⟩ := List.cons.inj hc
    obtain ⟨d, vs, hd⟩ : ∃ d vs, xs ++ [h] = d :: vs := List.exists_cons_of_ne_nil (by simp)
    have hxh : x ≠ h := fun hx => hn (hx ▸ List.mem_cons_self)
    rw [List.cons_append, hd, List.isChain_cons_cons, ← hd] at hch
    have hrest := ih hch.2 (fun hx => hn (List.mem_cons_of_mem _ hx))
      (Nat.lt_of_succ_lt_succ hlt) hd
    simp [walk, hxh, hch.1, hrest]

/-- A walk around a head meets the addresses between. -/
theorem walk_around (hch : (h :: xs ++ [h]).IsChain fun a b => step a = some b) (hn : h ∉ xs)
    (hlt : xs.length < n) : (step h).bind (walk step h n) = some xs := by
  obtain ⟨c, ys, hc⟩ : ∃ c ys, xs ++ [h] = c :: ys := List.exists_cons_of_ne_nil (by simp)
  rw [List.cons_append, hc, List.isChain_cons_cons, ← hc] at hch
  rw [hch.1, Option.bind_some]
  exact walk_chain hch.2 hn hlt hc

theorem Ring.forward (hr : Ring m h xs) (hlt : xs.length < n) : forward m h n = some xs :=
  walk_around (hr.chain.imp fun _ _ hl => hl.1) (List.nodup_cons.mp hr.nodup).1 hlt

theorem Ring.backward (hr : Ring m h xs) (hlt : xs.length < n) :
    backward m h n = some xs.reverse := by
  refine walk_around ?_ ?_ (by simpa using hlt)
  · have hrev : h :: xs.reverse ++ [h] = (h :: xs ++ [h]).reverse := by simp
    rw [hrev, List.isChain_reverse]
    exact hr.chain.imp fun _ _ hl => hl.2
  · simpa using (List.nodup_cons.mp hr.nodup).1

end Traversal

end KernelLib.LinkedRing
