import Mathlib.Logic.Equiv.Basic
import KernelLib.ListHeads
import KernelLib.WorkQueueSections

/-!
# The queue on a ring of list entries

`skl::queue` keeps its elements in allocated items that hang on a
`LIST_ENTRY` ring. Queue objects and items share one memory; an access
through a null pointer, or to an item that was deleted, fails. Items are
numbered in the order of their allocation and deletions are recorded. A
memory is described by the place of every item: on a queue, taken off and
not yet deleted, or deleted. The items on a queue then stand in the order
of their numbers.
-/

namespace KernelLib.QueueRing

open LinkedRing ListHeads Function

/-- Where a `LIST_ENTRY` lives: in a queue object or in an item. -/
inductive Addr (Q : Type) where
  /-- The `_head` of a queue. -/
  | head (q : Q)
  /-- The `_listEntry` of an item. -/
  | item (i : ℕ)
  deriving DecidableEq

/-- `CONTAINING_RECORD` on an entry; a head has no item around it. -/
def Addr.record {Q : Type} : Addr Q → Option ℕ
  | .head _ => none
  | .item i => some i

/-- The queue objects and the items. -/
structure Heap (Q V : Type) where
  /-- The memory of entries. -/
  link : Links (Addr Q)
  /-- `_v` of an item that is not deleted. -/
  value : ℕ → Option V
  /-- How many items were ever allocated. -/
  created : ℕ
  /-- The deleted items, in the order of their deletion. -/
  freed : List ℕ

/-- Before the first queue is constructed. -/
def Heap.empty {Q V : Type} : Heap Q V := ⟨fun _ => none, fun _ => none, 0, []⟩

section Operations

variable {Q V : Type} [DecidableEq Q]

/-- `queue()`. -/
def construct (q : Q) (s : Heap Q V) : Option (Heap Q V) := do
  let m ← initializeListHead (.head q) (update s.link (.head q) (some unlinkedEntry))
  return { s with link := m }

/-- The life of a queue object ends. -/
def endLife (q : Q) (s : Heap Q V) : Heap Q V := { s with link := update s.link (.head q) none }

/-- `new(poolType) item_type(v)`. -/
def newItem (v : V) (s : Heap Q V) : Heap Q V :=
  { s with
    link := update s.link (.item s.created) (some unlinkedEntry)
    value := update s.value s.created (some v)
    created := s.created + 1 }

/-- `delete item`. -/
def deleteItem (i : ℕ) (s : Heap Q V) : Option (Heap Q V) :=
  if (s.value i).isSome then
    some { s with
      link := update s.link (.item i) none
      value := update s.value i none
      freed := s.freed ++ [i] }
  else none

/-- `empty`. -/
def empty (q : Q) (s : Heap Q V) : Option Bool := isListEmpty (.head q) s.link

/-- `swap`. -/
def swap (q r : Q) (s : Heap Q V) : Option (Heap Q V) := do
  let m ← swapHeads (.head q) (.head r) s.link
  return { s with link := m }

/-- `push_back`; the flag says whether the item could be allocated. -/
def pushBack (q : Q) (v : V) (allocated : Bool) (s : Heap Q V) : Option (Bool × Heap Q V) :=
  if allocated then do
    let m ← insertTailList (.head q) (.item s.created) (newItem v s).link
    return (true, { newItem v s with link := m })
  else some (false, s)

/-- `RemoveHeadList` and the item around the entry. -/
def removeFirst (q : Q) (s : Heap Q V) : Option (ℕ × Heap Q V) := do
  let (entry, m) ← removeHeadList (.head q) s.link
  let item ← entry.record
  return (item, { s with link := m })

/-- `pop_front`, with the item it deletes and the value it moves out. -/
def popFront (q : Q) (s : Heap Q V) : Option (Option (ℕ × V) × Heap Q V) := do
  if (← empty q s) = true then return (none, s)
  let (item, s) ← removeFirst q s
  let v ← s.value item
  let s ← deleteItem item s
  return (some (item, v), s)

end Operations

/-- Where an item is. -/
inductive Place (Q : Type) where
  /-- On a queue. -/
  | queued (q : Q)
  /-- Taken off a queue and not yet deleted. -/
  | taken (q : Q)
  /-- Deleted. -/
  | deleted
  deriving DecidableEq

section Places

variable {Q : Type} [DecidableEq Q]

/-- The items on a queue, first the front. -/
def itemsOn (place : ℕ → Place Q) (n : ℕ) (q : Q) : List ℕ :=
  (List.range n).filter fun i => place i = .queued q

/-- The places after two queues have exchanged their items. -/
def exchange (q r : Q) (place : ℕ → Place Q) (i : ℕ) : Place Q :=
  match place i with
  | .queued p => .queued (Equiv.swap q r p)
  | p => p

variable {place : ℕ → Place Q} {n i : ℕ} {q r : Q} {xs : List ℕ}

/-- The items on a queue are those that were made and stand on it. -/
theorem mem_itemsOn : i ∈ itemsOn place n q ↔ i < n ∧ place i = .queued q := by
  simp [itemsOn]

/-- They stand in the order in which they were made. -/
theorem itemsOn_sorted (place : ℕ → Place Q) (n : ℕ) (q : Q) :
    (itemsOn place n q).Pairwise (· < ·) :=
  List.Pairwise.filter _ List.pairwise_lt_range

/-- An item behind the front of a queue has a higher number. -/
theorem front_lt (h : itemsOn place n q = i :: xs) {j : ℕ} (hj : j ∈ xs) : i < j := by
  have hs := itemsOn_sorted place n q
  rw [h] at hs
  exact List.rel_of_pairwise_cons hs hj

/-- The items on a queue depend on who stands on it. -/
theorem itemsOn_congr {place' : ℕ → Place Q}
    (h : ∀ i < n, place' i = .queued q ↔ place i = .queued q) :
    itemsOn place' n q = itemsOn place n q := by
  unfold itemsOn
  refine List.filter_congr fun i hi => ?_
  rw [decide_eq_decide]
  exact h i (List.mem_range.mp hi)

/-- A queue is empty when nobody stands on it. -/
theorem itemsOn_eq_nil : itemsOn place n q = [] ↔ ∀ i < n, place i ≠ .queued q := by
  simp [itemsOn]

/-- A new item stands last. -/
theorem itemsOn_push :
    itemsOn (update place n (.queued q)) (n + 1) q = itemsOn place n q ++ [n] := by
  have hold : itemsOn (update place n (.queued q)) n q = itemsOn place n q := by
    refine itemsOn_congr fun i hi => ?_
    rw [update_of_ne hi.ne]
  rw [← hold]
  simp [itemsOn, List.range_succ, List.filter_append]

/-- A new item is on no other queue. -/
theorem itemsOn_push_of_ne (hr : r ≠ q) :
    itemsOn (update place n (.queued q)) (n + 1) r = itemsOn place n r := by
  have hold : itemsOn (update place n (.queued q)) n r = itemsOn place n r := by
    refine itemsOn_congr fun i hi => ?_
    rw [update_of_ne hi.ne]
  rw [← hold]
  simp [itemsOn, List.range_succ, List.filter_append, hr.symm]

/-- Taking the front off leaves the rest. -/
theorem itemsOn_pop {p : Place Q} (h : itemsOn place n q = i :: xs) (hp : p ≠ .queued q) :
    itemsOn (update place i p) n q = xs := by
  have hne : itemsOn (update place i p) n q = (itemsOn place n q).filter (· ≠ i) := by
    unfold itemsOn
    rw [List.filter_filter]
    refine List.filter_congr fun j _ => ?_
    by_cases hj : j = i
    · subst hj
      simp [hp]
    · simp [hj]
  rw [hne, h, List.filter_cons_of_neg (by simp)]
  refine List.filter_eq_self.mpr fun j hj => ?_
  simpa using (front_lt h hj).ne'

/-- An item that moves between other places leaves the queue. -/
theorem itemsOn_update_of_ne {p : Place Q} (hi : place i ≠ .queued r) (hp : p ≠ .queued r) :
    itemsOn (update place i p) n r = itemsOn place n r := by
  refine itemsOn_congr fun j _ => ?_
  by_cases hj : j = i
  · subst hj
    simp [hi, hp]
  · rw [update_of_ne hj]

/-- After a swap an item stands on the other queue. -/
theorem exchange_eq_queued {p : Q} :
    exchange q r place i = .queued p ↔ place i = .queued (Equiv.swap q r p) := by
  unfold exchange
  cases h : place i with
  | queued p' =>
    simp only [Place.queued.injEq]
    constructor
    · intro hp
      rw [← hp, Equiv.swap_apply_self]
    · intro hp
      rw [hp, Equiv.swap_apply_self]
  | taken p' => simp
  | deleted => simp

/-- A swap leaves what was taken. -/
theorem exchange_eq_taken {p : Q} : exchange q r place i = .taken p ↔ place i = .taken p := by
  unfold exchange
  cases place i <;> simp

/-- It leaves what was deleted. -/
theorem exchange_eq_deleted : exchange q r place i = .deleted ↔ place i = .deleted := by
  unfold exchange
  cases place i <;> simp

/-- The queues have exchanged their items. -/
theorem itemsOn_exchange (p : Q) :
    itemsOn (exchange q r place) n p = itemsOn place n (Equiv.swap q r p) :=
  List.filter_congr fun _ _ => by rw [decide_eq_decide, exchange_eq_queued]

end Places

/-- The memory holds the live queues with the items that have their place on
them, the items that were taken off, and nothing else. -/
structure Represents {Q V : Type} [DecidableEq Q] (s : Heap Q V) (place : ℕ → Place Q)
    (live : Q → Prop) (values : List V) : Prop where
  rings : ∀ q, live q → Ring s.link (.head q) ((itemsOn place s.created q).map .item)
  gone : ∀ q, ¬live q → s.link (.head q) = none
  homes : ∀ i < s.created, ∀ q, place i = .queued q → live q
  alloc : ∀ i, (s.link (.item i)).isSome = (s.value i).isSome
  value : ∀ i, s.value i = if place i = .deleted then none else values[i]?
  created : s.created = values.length
  nodup : s.freed.Nodup
  freed : ∀ i, i ∈ s.freed ↔ i < s.created ∧ place i = .deleted

section Specs

variable {Q V : Type} [DecidableEq Q] {s : Heap Q V} {place : ℕ → Place Q} {live : Q → Prop}
  {values : List V} {q r : Q} {i : ℕ} {xs : List ℕ} {v : V}

/-- No queue, no item. -/
theorem represents_empty (place : ℕ → Place Q) :
    Represents (Heap.empty : Heap Q V) place (fun _ => False) [] where
  rings := fun _ h => h.elim
  gone := fun _ _ => rfl
  homes := fun i hi => absurd hi (Nat.not_lt_zero i)
  alloc := fun _ => rfl
  value := by simp [Heap.empty]
  created := rfl
  nodup := List.nodup_nil
  freed := by simp [Heap.empty]

omit [DecidableEq Q] in
/-- An item is at an address of the ring when it is on the list. -/
theorem item_mem : Addr.item i ∈ (Addr.head q :: xs.map .item) ↔ i ∈ xs := by simp

/-- The entries of different queues are different. -/
theorem apart (place : ℕ → Place Q) (n : ℕ) (h : r ≠ q) {c : Addr Q}
    (hc : c ∈ .head r :: (itemsOn place n r).map .item) :
    c ∉ .head q :: (itemsOn place n q).map .item := by
  intro hx
  cases c with
  | head p =>
    simp only [List.mem_cons, Addr.head.injEq, List.mem_map, reduceCtorEq, and_false, exists_false,
      or_false] at hc hx
    exact h (hc.symm.trans hx)
  | item i =>
    simp only [List.mem_cons, reduceCtorEq, List.mem_map, Addr.item.injEq, exists_eq_right,
      false_or, mem_itemsOn] at hc hx
    have hp := hc.2.symm.trans hx.2
    exact h (Place.queued.inj hp)

/-- An item on a live queue has its value. -/
theorem Represents.value_of_queued (h : Represents s place live values) (hi : i < s.created)
    (hp : place i ≠ .deleted) : s.value i = values[i]? ∧ (s.value i).isSome := by
  have hv : s.value i = values[i]? := by rw [h.value, if_neg hp]
  rw [h.created] at hi
  exact ⟨hv, by simp [hv, hi]⟩

/-- An operation that relinks entries, and deletes nothing. -/
theorem Represents.relink (h : Represents s place live values) {m : Links (Addr Q)}
    {place' : ℕ → Place Q} {live' : Q → Prop}
    (hrings : ∀ q, live' q → Ring m (.head q) ((itemsOn place' s.created q).map .item))
    (hgone : ∀ q, ¬live' q → m (.head q) = none)
    (hhomes : ∀ i < s.created, ∀ q, place' i = .queued q → live' q)
    (hitem : ∀ i, (m (.item i)).isSome = (s.link (.item i)).isSome)
    (hdeleted : ∀ i, place' i = .deleted ↔ place i = .deleted) :
    Represents { s with link := m } place' live' values where
  rings := hrings
  gone := hgone
  homes := hhomes
  alloc := fun i => (hitem i).trans (h.alloc i)
  value := by
    intro i
    rw [h.value, if_congr (hdeleted i) rfl rfl]
  created := h.created
  nodup := h.nodup
  freed := by
    intro i
    rw [hdeleted]
    exact h.freed i

/-- A frame keeps the heads that there are not. -/
theorem Represents.gone_of_frame (h : Represents s place live values) {m : Links (Addr Q)}
    {touched : List (Addr Q)} (hframe : Frame s.link m touched) (hq : ¬live q) :
    m (.head q) = none := by
  have hm := hframe.alloc (.head q)
  rw [h.gone q hq] at hm
  simpa using hm

/-- A new queue is empty. -/
theorem construct_spec (h : Represents s place live values) (hq : ¬live q) :
    ∃ s', construct q s = some s' ∧ s'.created = s.created ∧
      Represents s' place (fun p => p = q ∨ live p) values := by
  obtain ⟨m, hm, hring, hframe⟩ := initializeListHead_spec
    (m := update s.link (.head q) (some unlinkedEntry)) (h := Addr.head q) (by simp)
  have hsame : ∀ c, c ≠ .head q → m c = s.link c := by
    intro c hc
    rw [hframe.same c (by simpa using hc), update_of_ne hc]
  have hnil : itemsOn place s.created q = [] := by
    rw [itemsOn_eq_nil]
    exact fun i hi hp => hq (h.homes i hi q hp)
  refine ⟨{ s with link := m }, by simp [construct, hm], rfl,
    h.relink ?_ ?_ ?_ ?_ fun _ => Iff.rfl⟩
  · intro p hp
    by_cases hpq : p = q
    · subst hpq
      rw [hnil]
      exact hring
    · refine (h.rings p (hp.resolve_left hpq)).congr fun c hc => hsame c ?_
      rintro rfl
      exact apart place s.created hpq hc List.mem_cons_self
  · intro p hp
    rw [not_or] at hp
    rw [hsame (.head p) (by simpa using hp.1)]
    exact h.gone p hp.2
  · exact fun i hi p hp => .inr (h.homes i hi p hp)
  · intro i
    rw [hsame (.item i) (by simp)]

/-- An empty queue can go. -/
theorem endLife_spec (h : Represents s place live values) (hn : itemsOn place s.created q = []) :
    Represents (endLife q s) place (fun p => p ≠ q ∧ live p) values where
  rings := by
    intro p hp
    refine (h.rings p hp.2).congr fun c hc => update_of_ne ?_ _ _
    rintro rfl
    exact apart place s.created hp.1 hc List.mem_cons_self
  gone := by
    intro p hp
    by_cases hpq : p = q
    · simp [endLife, hpq]
    · have hl : ¬live p := fun hl => hp ⟨hpq, hl⟩
      simpa [endLife, hpq] using h.gone p hl
  homes := by
    intro i hi p hp
    refine ⟨?_, h.homes i hi p hp⟩
    rintro rfl
    exact itemsOn_eq_nil.mp hn i hi hp
  alloc := fun i => by simpa [endLife] using h.alloc i
  value := h.value
  created := h.created
  nodup := h.nodup
  freed := h.freed

/-- `empty` tells whether an item has its place on the queue. -/
theorem empty_spec (h : Represents s place live values) (hq : live q) :
    empty q s = some (itemsOn place s.created q).isEmpty := by
  rw [empty, isListEmpty_spec (h.rings q hq), List.isEmpty_map]

/-- `swap` exchanges the items of two queues. -/
theorem swap_spec (h : Represents s place live values) (hq : live q) (hr : live r) (hne : q ≠ r) :
    ∃ s', swap q r s = some s' ∧ s'.created = s.created ∧
      Represents s' (exchange q r place) live values := by
  obtain ⟨m, hm, hringq, hringr, hframe⟩ := swapHeads_spec (h.rings q hq) (h.rings r hr)
    fun c hc => apart place s.created hne hc
  refine ⟨{ s with link := m }, by simp [swap, hm], rfl,
    h.relink ?_ (fun p hp => h.gone_of_frame hframe hp) ?_ (fun i => hframe.alloc _)
      fun _ => exchange_eq_deleted⟩
  · intro p hp
    rw [itemsOn_exchange]
    by_cases hpq : p = q
    · subst hpq
      rw [Equiv.swap_apply_left]
      exact hringq
    · by_cases hpr : p = r
      · subst hpr
        rw [Equiv.swap_apply_right]
        exact hringr
      · rw [Equiv.swap_apply_of_ne_of_ne hpq hpr]
        refine (h.rings p hp).frame hframe fun c hc hx => ?_
        have h₁ := apart place s.created hpq hc
        have h₂ := apart place s.created hpr hc
        simp only [List.mem_cons, List.mem_append, not_or] at hx h₁ h₂
        rcases hx with hx | hx | hx | hx
        · exact h₁.1 hx
        · exact h₂.1 hx
        · exact h₁.2 hx
        · exact h₂.2 hx
  · intro i hi p hp
    have hl := h.homes i hi _ (exchange_eq_queued.mp hp)
    by_cases hpq : p = q
    · rw [hpq]
      exact hq
    · by_cases hpr : p = r
      · rw [hpr]
        exact hr
      · rwa [Equiv.swap_apply_of_ne_of_ne hpq hpr] at hl

/-- An item that was allocated comes to stand last on the queue. -/
theorem pushBack_spec (h : Represents s place live values) (hq : live q) (v : V) :
    ∃ s', pushBack q v true s = some (true, s') ∧ s'.created = s.created + 1 ∧
      Represents s' (update place s.created (.queued q)) live (values ++ [v]) := by
  have hnew : ∀ p, Addr.item s.created ∉ Addr.head p :: (itemsOn place s.created p).map .item := by
    intro p hx
    rw [item_mem, mem_itemsOn] at hx
    exact hx.1.ne rfl
  have hrings : ∀ p, live p →
      Ring (newItem v s).link (.head p) ((itemsOn place s.created p).map .item) := by
    intro p hp
    refine (h.rings p hp).congr fun c hc => update_of_ne ?_ _ _
    rintro rfl
    exact hnew p hc
  obtain ⟨m, hm, hring, hframe⟩ := insertTailList_spec (hrings q hq)
    (by simp [newItem]) (hnew q)
  have hvalue : (newItem v s).value = update s.value s.created (some v) := rfl
  refine ⟨{ newItem v s with link := m }, by simp [pushBack, hm], rfl, ?_⟩
  constructor
  case rings =>
    intro p hp
    change Ring m _ ((itemsOn _ (s.created + 1) p).map .item)
    by_cases hpq : p = q
    · subst hpq
      rw [itemsOn_push, List.map_append]
      exact hring
    · rw [itemsOn_push_of_ne hpq]
      refine (hrings p hp).frame hframe fun c hc hx => ?_
      rcases List.mem_cons.mp hx with rfl | hx
      · exact hnew p hc
      · exact apart place s.created hpq hc hx
  case gone =>
    intro p hp
    have hm' := hframe.alloc (.head p)
    have hl : (newItem v s).link (.head p) = none := by simpa [newItem] using h.gone p hp
    rw [hl] at hm'
    simpa using hm'
  case homes =>
    intro i hi p hp
    by_cases hic : i = s.created
    · subst hic
      rw [update_self] at hp
      rw [← Place.queued.inj hp]
      exact hq
    · rw [update_of_ne hic] at hp
      have hlt : i < s.created + 1 := hi
      exact h.homes i (by omega) p hp
  case alloc =>
    intro i
    have hm' := hframe.alloc (.item i)
    rw [hm']
    by_cases hic : i = s.created
    · simp [newItem, hic]
    · simpa [newItem, hic] using h.alloc i
  case value =>
    intro i
    simp only [hvalue]
    by_cases hic : i = s.created
    · subst hic
      simp [h.created]
    · rw [update_of_ne hic, update_of_ne hic, h.value]
      have hlen : i ≠ values.length := h.created ▸ hic
      congr 1
      rcases Nat.lt_or_ge i values.length with hlt | hge
      · rw [List.getElem?_append_left hlt]
      · rw [List.getElem?_eq_none hge, List.getElem?_eq_none (by simp; omega)]
  case created => simp [newItem, h.created]
  case nodup => exact h.nodup
  case freed =>
    intro i
    change i ∈ s.freed ↔ i < s.created + 1 ∧ _
    rw [h.freed]
    by_cases hic : i = s.created
    · simp [hic]
    · rw [update_of_ne hic]
      exact and_congr_left' (by omega)

/-- Taking the front off a queue. -/
theorem removeFirst_spec (h : Represents s place live values) (hq : live q)
    (hi : itemsOn place s.created q = i :: xs) :
    ∃ s', removeFirst q s = some (i, s') ∧ s'.created = s.created ∧
      Represents s' (update place i (.taken q)) live values := by
  have hring := h.rings q hq
  rw [hi, List.map_cons] at hring
  obtain ⟨m, hm, hring', -, hframe⟩ := removeHeadList_spec hring
  have hplace : i < s.created ∧ place i = .queued q := mem_itemsOn.mp (hi ▸ List.mem_cons_self)
  refine ⟨{ s with link := m }, by simp [removeFirst, hm, Addr.record], rfl,
    h.relink ?_ (fun p hp => h.gone_of_frame hframe hp) ?_ (fun i => hframe.alloc _) ?_⟩
  · intro p hp
    by_cases hpq : p = q
    · subst hpq
      rw [itemsOn_pop hi (by simp)]
      exact hring'
    · rw [itemsOn_update_of_ne (by simp [hplace.2, Ne.symm hpq]) (by simp)]
      refine (h.rings p hp).frame hframe fun c hc hx => apart place s.created hpq hc ?_
      rw [hi, List.map_cons]
      rcases List.mem_cons.mp hx with rfl | hx
      · exact List.mem_cons_self
      · exact List.mem_cons_of_mem _ (List.mem_cons_of_mem _ hx)
  · intro j hj p hp
    by_cases hji : j = i
    · simp [hji] at hp
    · rw [update_of_ne hji] at hp
      exact h.homes j hj p hp
  · intro j
    by_cases hji : j = i
    · simp [hji, hplace.2]
    · rw [update_of_ne hji]

/-- Deleting an item that was taken off its queue. -/
theorem deleteItem_spec (h : Represents s place live values) (hi : i < s.created)
    (hp : place i = .taken q) :
    ∃ s', deleteItem i s = some s' ∧ s'.created = s.created ∧
      Represents s' (update place i .deleted) live values := by
  have hv := (h.value_of_queued hi (by simp [hp])).2
  have hitems : ∀ p, itemsOn (update place i .deleted) s.created p = itemsOn place s.created p :=
    fun p => itemsOn_update_of_ne (by simp [hp]) (by simp)
  refine ⟨_, if_pos hv, rfl, ?_⟩
  constructor
  case rings =>
    intro p hl
    change Ring (update s.link (.item i) none) _ ((itemsOn _ s.created p).map .item)
    rw [hitems]
    refine (h.rings p hl).congr fun c hc => update_of_ne ?_ _ _
    rintro rfl
    rw [item_mem, mem_itemsOn, hp] at hc
    cases hc.2
  case gone =>
    intro p hl
    simpa using h.gone p hl
  case homes =>
    intro j hj p hpj
    by_cases hji : j = i
    · simp [hji] at hpj
    · rw [update_of_ne hji] at hpj
      exact h.homes j hj p hpj
  case alloc =>
    intro j
    by_cases hji : j = i
    · simp [hji]
    · simpa [hji] using h.alloc j
  case value =>
    intro j
    by_cases hji : j = i
    · simp [hji]
    · simpa [hji] using h.value j
  case created => exact h.created
  case nodup =>
    refine List.nodup_append.mpr ⟨h.nodup, List.nodup_singleton i, ?_⟩
    intro a ha b hb hab
    rw [List.mem_singleton] at hb
    rw [h.freed, hab, hb, hp] at ha
    cases ha.2
  case freed =>
    intro j
    change j ∈ s.freed ++ [i] ↔ j < s.created ∧ _
    rw [List.mem_append, List.mem_singleton, h.freed]
    by_cases hji : j = i
    · simp [hji, hi]
    · simp [hji]

/-- `pop_front` deletes the front and hands its value out. -/
theorem popFront_spec (h : Represents s place live values) (hq : live q)
    (hi : itemsOn place s.created q = i :: xs) :
    ∃ v s', values[i]? = some v ∧ popFront q s = some (some (i, v), s') ∧ s'.created = s.created ∧
      Represents s' (update place i .deleted) live values := by
  have hplace : i < s.created ∧ place i = .queued q := mem_itemsOn.mp (hi ▸ List.mem_cons_self)
  obtain ⟨s₁, hs₁, hc₁, h₁⟩ := removeFirst_spec h hq hi
  obtain ⟨v, hv⟩ := Option.isSome_iff_exists.mp
    (h₁.value_of_queued (i := i) (hc₁ ▸ hplace.1) (by simp)).2
  obtain ⟨s₂, hs₂, hc₂, h₂⟩ := deleteItem_spec h₁ (i := i) (q := q) (hc₁ ▸ hplace.1) (by simp)
  rw [update_idem] at h₂
  refine ⟨v, s₂, ?_, ?_, hc₂.trans hc₁, h₂⟩
  · rw [← hv]
    exact ((h₁.value_of_queued (i := i) (hc₁ ▸ hplace.1) (by simp)).1).symm
  · simp [popFront, empty_spec h hq, hi, hs₁, hv, hs₂]

/-- `pop_front` on an empty queue does nothing. -/
theorem popFront_nil (h : Represents s place live values) (hq : live q)
    (hn : itemsOn place s.created q = []) : popFront q s = some (none, s) := by
  simp [popFront, empty_spec h hq, hn]

/-- The elements of a queue, first the front. -/
def elements (place : ℕ → Place Q) (values : List V) (q : Q) : List V :=
  (itemsOn place values.length q).filterMap (values[·]?)

/-- A new element stands behind the others. -/
theorem elements_push (place : ℕ → Place Q) (values : List V) (q : Q) (v : V) :
    elements (update place values.length (.queued q)) (values ++ [v]) q =
      elements place values q ++ [v] := by
  unfold elements
  rw [List.length_append, List.length_singleton, itemsOn_push, List.filterMap_append]
  congr 1
  · refine List.filterMap_congr fun i hi => ?_
    rw [List.getElem?_append_left (mem_itemsOn.mp hi).1]
  · simp

/-- The first element leaves the others as they are. -/
theorem elements_pop {p : Place Q} (hi : itemsOn place values.length q = i :: xs)
    (hv : values[i]? = some v) (hp : p ≠ .queued q) :
    elements place values q = v :: elements (update place i p) values q := by
  unfold elements
  rw [itemsOn_pop hi hp, hi, List.filterMap_cons_some hv]

/-- A queue has elements when it has items. -/
theorem elements_isEmpty (h : Represents s place live values) (q : Q) :
    (elements place values q).isEmpty = (itemsOn place s.created q).isEmpty := by
  have hv : ∀ i ∈ itemsOn place s.created q, (values[i]?).isSome := by
    intro i hi
    have hlt := (mem_itemsOn.mp hi).1
    rw [h.created] at hlt
    simp [hlt]
  rw [elements, ← h.created]
  cases hi : itemsOn place s.created q with
  | nil => rfl
  | cons i xs =>
    obtain ⟨v, hv⟩ := Option.isSome_iff_exists.mp (hv i (hi ▸ List.mem_cons_self))
    rw [List.filterMap_cons_some hv]
    rfl

/-- On the elements, `push_back` is that of a list. -/
theorem pushBack_refines (h : Represents s place live values) (hq : live q) (v : V)
    (allocated : Bool) :
    ∃ s' place' values',
      pushBack q v allocated s =
        some ((WorkQueueSections.pushBack (elements place values q) v allocated).1, s') ∧
      Represents s' place' live values' ∧
      elements place' values' q =
        (WorkQueueSections.pushBack (elements place values q) v allocated).2 := by
  cases allocated with
  | false => exact ⟨s, place, values, rfl, h, rfl⟩
  | true =>
    obtain ⟨s', hs', -, h'⟩ := pushBack_spec h hq v
    refine ⟨s', _, _, hs', h', ?_⟩
    rw [h.created]
    exact elements_push place values q v

/-- On the elements, `pop_front` is that of a list. -/
theorem popFront_refines (h : Represents s place live values) (hq : live q) :
    ∃ o s' place',
      popFront q s = some (o, s') ∧ Represents s' place' live values ∧
      WorkQueueSections.popFront (elements place values q) =
        o.map fun x => (x.2, elements place' values q) := by
  cases hi : itemsOn place s.created q with
  | nil =>
    refine ⟨none, s, place, popFront_nil h hq hi, h, ?_⟩
    rw [h.created] at hi
    simp [elements, hi, WorkQueueSections.popFront]
  | cons i xs =>
    obtain ⟨v, s', hv, hs', -, h'⟩ := popFront_spec h hq hi
    refine ⟨some (i, v), s', _, hs', h', ?_⟩
    rw [h.created] at hi
    rw [elements_pop hi hv (p := .deleted) (by simp)]
    rfl

end Specs

end KernelLib.QueueRing
