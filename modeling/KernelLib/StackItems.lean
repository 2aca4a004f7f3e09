import KernelLib.AnsweredRuns
import KernelLib.LinkedChains
import Mathlib.Data.List.Perm.Subperm

/-!
# Stacks of allocated items

`skl::stack` keeps its elements in items that are allocated by `push` and
deleted by `pop`, `clear` and the destructor, each with a pointer to the one
below. Items are numbered as they are allocated; no call has a result that
reads or deletes an item which is gone. The class does not forbid the copy
of its head, which is safe for an empty stack only.
-/

namespace KernelLib.StackItems

open LinkedChains AnsweredRuns Function

/-- All stacks and their items. -/
structure State (S T : Type) where
  /-- `_head.Next` of the stacks that are constructed. -/
  head : S → Option (Option ℕ)
  /-- `_listEntry.Next` of an item. -/
  next : ℕ → Option ℕ
  /-- `_v` of an item that is allocated and not deleted. -/
  value : ℕ → Option T
  /-- How many items were allocated. -/
  created : ℕ
  /-- The items that were deleted, in order. -/
  freed : List ℕ

/-- No stack yet. -/
def State.start {S T : Type} : State S T := ⟨fun _ => none, fun _ => none, fun _ => none, 0, []⟩

/-- A call. -/
inductive Call (S T : Type) where
  /-- `stack()`. -/
  | construct (x : S)
  /-- `stack(const stack&)`, which the compiler makes. -/
  | copy (x y : S)
  /-- `push`; the flag says whether there is memory for an item. -/
  | push (x : S) (v : T) (allocated : Bool)
  /-- `pop`. -/
  | pop (x : S)
  /-- `empty`. -/
  | empty (x : S)
  /-- `clear`. -/
  | clear (x : S)
  /-- A loop from `begin()` to `end()`. -/
  | iterate (x : S)
  /-- `~stack()`. -/
  | destroy (x : S)
  deriving DecidableEq

/-- What it returns. -/
inductive Ret (T : Type) where
  /-- Nothing. -/
  | done
  /-- Whether it succeeded, or whether there is nothing. -/
  | bool (b : Bool)
  /-- The element that was taken, if there was one. -/
  | popped (v : Option T)
  /-- The elements that a loop reads. -/
  | elements (vs : List T)
  deriving DecidableEq

section Source

variable {S T : Type} [DecidableEq S]

/-- Write `_head.Next`, or begin or end a stack. -/
def State.setHead (x : S) (h : Option (Option ℕ)) (s : State S T) : State S T :=
  { s with head := update s.head x h }

/-- `PopEntryList`. -/
def popEntryList (x : S) (s : State S T) : Option (State S T × Option ℕ) := do
  let first ← s.head x
  match first with
  | none => return (s, none)
  | some i =>
    let _ ← s.value i
    return (s.setHead x (some (s.next i)), some i)

/-- `delete item`. -/
def State.deleteItem (i : ℕ) (s : State S T) : Option (State S T) :=
  if (s.value i).isSome then
    some { s with value := update s.value i none, freed := s.freed ++ [i] }
  else none

/-- `push`. -/
def push (x : S) (v : T) (allocated : Bool) (s : State S T) : Option (State S T × Bool) := do
  let first ← s.head x
  if allocated then
    let item := s.created
    -- `PushEntryList`
    let s := { s with
      next := update s.next item first
      value := update s.value item (some v)
      created := item + 1 }
    return (s.setHead x (some (some item)), true)
  else return (s, false)

/-- `pop`. -/
def pop (x : S) (s : State S T) : Option (State S T × Option T) := do
  let (s, entry) ← popEntryList x s
  match entry with
  | none => return (s, none)
  | some item =>
    let v ← s.value item
    let s ← s.deleteItem item
    return (s, some v)

/-- The loop of `clear`, for so many rounds at most. -/
def clearLoop (x : S) : ℕ → State S T → Option (State S T)
  | 0, _ => none
  | rounds + 1, s => do
    let (s, entry) ← popEntryList x s
    match entry with
    | none => return s
    | some item =>
      let s ← s.deleteItem item
      clearLoop x rounds s

/-- `clear`; a stack has no more items than there are. -/
def clear (x : S) (s : State S T) : Option (State S T) := clearLoop x (s.created + 1) s

/-- A loop from an entry to `end()`, for so many rounds at most. -/
def iterateLoop (s : State S T) : ℕ → Option ℕ → Option (List T)
  | 0, _ => none
  | _ + 1, none => some []
  | rounds + 1, some i => do
    let v ← s.value i
    let vs ← iterateLoop s rounds (s.next i)
    return v :: vs

/-- A loop over a stack. -/
def iterate (x : S) (s : State S T) : Option (List T) := do
  let first ← s.head x
  iterateLoop s (s.created + 1) first

/-- Make a call. -/
def step (s : State S T) : Call S T → Option (State S T × Ret T)
  | .construct x => some (s.setHead x (some none), .done)
  | .copy x y => (s.head y).map fun h => (s.setHead x (some h), .done)
  | .push x v allocated => (push x v allocated s).map fun r => (r.1, .bool r.2)
  | .pop x => (pop x s).map fun r => (r.1, .popped r.2)
  | .empty x => (s.head x).map fun h => (s, .bool h.isNone)
  | .clear x => (clear x s).map fun s => (s, .done)
  | .iterate x => (iterate x s).map fun vs => (s, .elements vs)
  | .destroy x => (clear x s).map fun s => (s.setHead x none, .done)

/-- The stacks as lists, first the element that was pushed last. -/
abbrev Lists (S T : Type) := S → Option (List T)

/-- What calls do to lists, and answer. -/
def lists : Model (Lists S T) (Call S T) (Ret T) where
  after m
    | .construct x => update m x (some [])
    | .copy x y => update m x (m y)
    | .push x v allocated => if allocated then update m x ((m x).map (v :: ·)) else m
    | .pop x => update m x ((m x).map List.tail)
    | .empty _ | .iterate _ => m
    | .clear x => update m x (some [])
    | .destroy x => update m x none
  answer m
    | .construct _ | .copy _ _ | .clear _ | .destroy _ => .done
    | .push _ _ allocated => .bool allocated
    | .pop x => .popped ((m x).bind List.head?)
    | .empty x => .bool ((m x).any List.isEmpty)
    | .iterate x => .elements ((m x).getD [])
  Permits m
    | .construct x => m x = none
    | .copy x y => m x = none ∧ m y = some []
    | .push x _ _ | .pop x | .empty x | .clear x | .iterate x | .destroy x => (m x).isSome

end Source

section Proofs

variable {S T : Type} {s t : State S T} {items : S → List ℕ} {m : Lists S T} {x y : S}
variable {vs ws : List T} {v : T} {xs : List ℕ} {i : ℕ}

/-- The items of the stacks are their elements, each is on one stack, and all others were
deleted once. -/
structure Represents (s : State S T) (items : S → List ℕ) (m : Lists S T) : Prop where
  /-- The same stacks are constructed. -/
  same : ∀ x, (s.head x).isSome = (m x).isSome
  chain : ∀ x first, s.head x = some first → Chain s.next first (items x)
  vacant : ∀ x, s.head x = none → items x = []
  values : ∀ x vs, m x = some vs → (items x).map s.value = vs.map some
  /-- No item is on two stacks. -/
  apart : ∀ x y i, i ∈ items x → i ∈ items y → x = y
  live : ∀ i, (s.value i).isSome → ∃ x, i ∈ items x
  created : ∀ i, i < s.created ↔ (s.value i).isSome ∨ i ∈ s.freed
  gone : ∀ i ∈ s.freed, s.value i = none
  once : s.freed.Nodup

theorem represents_start : Represents (State.start : State S T) (fun _ => []) fun _ => none where
  same _ := rfl
  chain _ _ h := nomatch h
  vacant _ _ := rfl
  values _ _ h := nomatch h
  apart _ _ _ h := nomatch h
  live _ h := nomatch h
  created i := by simp [State.start]
  gone i h := nomatch h
  once := List.nodup_nil

theorem exists_head (h : Represents s items m) (hx : (m x).isSome) :
    ∃ first, s.head x = some first :=
  Option.isSome_iff_exists.mp ((h.same x).trans hx)

/-- Items on a stack are live. -/
theorem Represents.on_stack (h : Represents s items m) (hi : i ∈ items x) :
    (s.value i).isSome ∧ i < s.created := by
  have hval : (s.value i).isSome := by
    cases hx : m x with
    | none =>
      have hhead : s.head x = none := by
        rw [← Option.isNone_iff_eq_none, ← Option.not_isSome, h.same, hx]
        rfl
      rw [h.vacant x hhead] at hi
      exact nomatch hi
    | some vs =>
      have hmem := List.mem_map_of_mem (f := s.value) hi
      rw [h.values x vs hx] at hmem
      obtain ⟨v, -, hv⟩ := List.mem_map.mp hmem
      rw [← hv]
      rfl
  exact ⟨hval, (h.created i).mpr (.inl hval)⟩

/-- There are no more items on a stack than were allocated. -/
theorem Represents.length_le (h : Represents s items m) (hx : m x = some vs) :
    vs.length ≤ s.created := by
  obtain ⟨first, hfirst⟩ := exists_head h (x := x) (by rw [hx]; rfl)
  have hlen := congrArg List.length (h.values x vs hx)
  rw [List.length_map, List.length_map] at hlen
  have hsub : items x ⊆ List.range s.created := fun i hi => List.mem_range.mpr (h.on_stack hi).2
  have hle := (List.Nodup.subperm (h.chain x first hfirst).nodup hsub).length_le
  rw [List.length_range] at hle
  omega

/-- An empty stack has no item. -/
theorem Represents.nil (h : Represents s items m) (hx : m x = some []) :
    items x = [] ∧ s.head x = some none := by
  have hitems : items x = [] := List.map_eq_nil_iff.mp (h.values x [] hx)
  obtain ⟨first, hfirst⟩ := exists_head h (x := x) (by rw [hx]; rfl)
  have hchain := h.chain x first hfirst
  rw [hitems] at hchain
  exact ⟨hitems, by rw [hfirst, show first = none from hchain]⟩

/-- Another stack begins with an item on top. -/
theorem Represents.cons (h : Represents s items m) (hx : m x = some (v :: ws)) :
    ∃ i is, items x = i :: is ∧ s.head x = some (some i) ∧ s.value i = some v ∧
      is.map s.value = ws.map some ∧ Chain s.next (s.next i) is := by
  have hvals := h.values x _ hx
  obtain ⟨first, hfirst⟩ := exists_head h (x := x) (by rw [hx]; rfl)
  have hchain := h.chain x first hfirst
  cases hitems : items x with
  | nil =>
    rw [hitems] at hvals
    exact nomatch hvals
  | cons i is =>
    rw [hitems, List.map_cons, List.map_cons, List.cons.injEq] at hvals
    rw [hitems] at hchain
    obtain ⟨rfl, hrest⟩ := hchain
    exact ⟨i, is, rfl, hfirst, hvals.1, hvals.2, hrest⟩

/-- A loop reads what is in the items of a chain. -/
theorem iterateLoop_eq {rounds : ℕ} {p : Option ℕ} (hc : Chain s.next p xs)
    (hv : xs.map s.value = vs.map some) (hr : xs.length < rounds) :
    iterateLoop s rounds p = some vs := by
  induction xs generalizing p vs rounds with
  | nil =>
    obtain ⟨k, rfl⟩ := Nat.exists_eq_succ_of_ne_zero (Nat.ne_of_gt hr)
    obtain rfl : vs = [] := List.map_eq_nil_iff.mp hv.symm
    obtain rfl : p = none := hc
    rfl
  | cons i is ih =>
    obtain ⟨k, rfl⟩ := Nat.exists_eq_succ_of_ne_zero (Nat.ne_of_gt (Nat.zero_lt_of_lt hr))
    obtain ⟨rfl, hrest⟩ := hc
    cases vs with
    | nil => exact nomatch hv
    | cons v ws =>
      rw [List.map_cons, List.map_cons, List.cons.injEq] at hv
      simp [iterateLoop, hv.1, ih hrest hv.2 (Nat.lt_of_succ_lt_succ hr)]

theorem iterate_eq (h : Represents s items m) (hx : m x = some vs) : iterate x s = some vs := by
  obtain ⟨first, hfirst⟩ := exists_head h (x := x) (by rw [hx]; rfl)
  have hlen := congrArg List.length (h.values x vs hx)
  rw [List.length_map, List.length_map] at hlen
  have hle := h.length_le hx
  simp [iterate, hfirst, iterateLoop_eq (h.chain x first hfirst) (h.values x vs hx)
    (show (items x).length < s.created + 1 by omega)]

theorem represents_vacant (h : Represents s items m) (hx : m x = none) : items x = [] := by
  refine h.vacant x ?_
  rw [← Option.not_isSome_iff_eq_none, h.same x, hx]
  exact Bool.false_ne_true

variable [DecidableEq S]

theorem setHead_head (s : State S T) (x : S) (h : Option (Option ℕ)) :
    (s.setHead x h).head = update s.head x h := rfl

/-- A stack without items begins or ends. -/
theorem Represents.setHead (h : Represents s items m) (hx : items x = []) {o : Option (Option ℕ)}
    {w : Option (List T)} (how : (o = none ∧ w = none) ∨ (o = some none ∧ w = some [])) :
    Represents (s.setHead x o) items (update m x w) := by
  refine ⟨fun y => ?_, fun y first hy => ?_, fun y hy => ?_, fun y vs hy => ?_, h.apart, h.live,
    h.created, h.gone, h.once⟩
  · rw [setHead_head]
    rcases eq_or_ne y x with rfl | hyx
    · obtain ⟨rfl, rfl⟩ | ⟨rfl, rfl⟩ := how <;> simp
    · rw [update_of_ne hyx, update_of_ne hyx]
      exact h.same y
  · rw [setHead_head] at hy
    rcases eq_or_ne y x with rfl | hyx
    · rw [update_self] at hy
      rw [hx]
      obtain ⟨rfl, -⟩ | ⟨rfl, -⟩ := how
      · exact nomatch hy
      · exact (Option.some.inj hy).symm
    · rw [update_of_ne hyx] at hy
      exact h.chain y first hy
  · rcases eq_or_ne y x with rfl | hyx
    · exact hx
    · rw [setHead_head, update_of_ne hyx] at hy
      exact h.vacant y hy
  · rcases eq_or_ne y x with rfl | hyx
    · rw [update_self] at hy
      obtain ⟨-, rfl⟩ | ⟨-, rfl⟩ := how
      · exact nomatch hy
      · obtain rfl := Option.some.inj hy
        rw [hx]
        rfl
    · rw [update_of_ne hyx] at hy
      exact h.values y vs hy

/-- A new item is put on top. -/
theorem push_spec (h : Represents s items m) (hx : m x = some vs) (v : T) :
    ∃ s', push x v true s = some (s', true) ∧
      Represents s' (update items x (s.created :: items x)) (update m x (some (v :: vs))) := by
  obtain ⟨first, hfirst⟩ := exists_head h (x := x) (by rw [hx]; rfl)
  have hfresh : ∀ y, s.created ∉ items y := fun y hy => Nat.lt_irrefl _ (h.on_stack hy).2
  have hnew : s.value s.created = none := by
    rw [← Option.not_isSome_iff_eq_none]
    exact fun hv => Nat.lt_irrefl _ ((h.created _).mpr (.inl hv))
  have hfreed : s.created ∉ s.freed := fun hf =>
    Nat.lt_irrefl _ ((h.created _).mpr (.inr hf))
  have hold : ∀ y, (items y).map (update s.value s.created (some v)) = (items y).map s.value :=
    fun y => List.map_congr_left fun i hi => update_of_ne (ne_of_mem_of_not_mem hi (hfresh y)) ..
  refine ⟨_, by simp [push, hfirst]; rfl, ?_⟩
  refine ⟨fun y => ?_, fun y f hy => ?_, fun y hy => ?_, fun y us hy => ?_, fun y z i hy hz => ?_,
    fun i hi => ?_, fun i => ?_, fun i hi => ?_, h.once⟩
  · rcases eq_or_ne y x with rfl | hyx
    · simp [State.setHead]
    · simpa [State.setHead, hyx] using h.same y
  · rcases eq_or_ne y x with rfl | hyx
    · rw [setHead_head, update_self] at hy
      obtain rfl := Option.some.inj hy
      rw [update_self]
      exact (h.chain y first hfirst).push (hfresh y)
    · rw [setHead_head, update_of_ne hyx] at hy
      rw [update_of_ne hyx]
      exact (h.chain y f hy).congr fun i hi =>
        update_of_ne (ne_of_mem_of_not_mem hi (hfresh y)) ..
  · rcases eq_or_ne y x with rfl | hyx
    · simp [State.setHead] at hy
    · rw [setHead_head, update_of_ne hyx] at hy
      rw [update_of_ne hyx]
      exact h.vacant y hy
  · rcases eq_or_ne y x with rfl | hyx
    · rw [update_self] at hy
      obtain rfl := Option.some.inj hy
      rw [update_self, List.map_cons, List.map_cons]
      exact congrArg₂ _ (update_self ..) ((hold y).trans (h.values y vs hx))
    · rw [update_of_ne hyx] at hy
      rw [update_of_ne hyx]
      exact (hold y).trans (h.values y us hy)
  · -- the new item is on no other stack
    have hcases : ∀ {y}, i ∈ update items x (s.created :: items x) y →
        (y = x ∧ i = s.created) ∨ i ∈ items y := by
      intro y hi
      rcases eq_or_ne y x with rfl | hyx
      · rw [update_self] at hi
        exact (List.mem_cons.mp hi).imp (fun he => ⟨rfl, he⟩) id
      · rw [update_of_ne hyx] at hi
        exact .inr hi
    obtain ⟨hyx, hi⟩ | hy' := hcases hy
    · obtain ⟨hzx, -⟩ | hz' := hcases hz
      · rw [hyx, hzx]
      · exact absurd (hi ▸ hz') (hfresh z)
    · obtain ⟨-, hi⟩ | hz' := hcases hz
      · exact absurd (hi ▸ hy') (hfresh y)
      · exact h.apart y z i hy' hz'
  · rcases eq_or_ne i s.created with rfl | hne
    · exact ⟨x, by rw [update_self]; exact List.mem_cons_self⟩
    · obtain ⟨y, hy⟩ := h.live i (by simpa [State.setHead, hne] using hi)
      refine ⟨y, ?_⟩
      rcases eq_or_ne y x with rfl | hyx
      · rw [update_self]
        exact List.mem_cons_of_mem _ hy
      · rwa [update_of_ne hyx]
  · rcases eq_or_ne i s.created with rfl | hne
    · simp [State.setHead]
    · simp only [State.setHead, update_of_ne hne, ← h.created i]
      omega
  · have hne : i ≠ s.created := ne_of_mem_of_not_mem hi hfreed
    simpa [State.setHead, hne] using h.gone i hi

/-- The item on top is taken off and deleted. -/
theorem take_spec (h : Represents s items m) (hx : m x = some (v :: ws)) :
    ∃ u i s' is, popEntryList x s = some (u, some i) ∧ u.value i = some v ∧
      u.deleteItem i = some s' ∧ s'.created = s.created ∧
      Represents s' (update items x is) (update m x (some ws)) := by
  obtain ⟨i, is, hitems, hhead, hv, hvals, hchain⟩ := h.cons hx
  have hnodup : (i :: is).Nodup := by
    rw [← hitems]
    exact (h.chain x (some i) hhead).nodup
  have hnot : i ∉ is := (List.nodup_cons.mp hnodup).1
  have hon : i ∈ items x := by
    rw [hitems]
    exact List.mem_cons_self
  have hfreed : i ∉ s.freed := fun hf => by simp [h.gone i hf] at hv
  -- only items that were on the stack are left on it
  have hsub : ∀ y j, j ∈ update items x is y → j ∈ items y ∧ j ≠ i := by
    intro y j hj
    rcases eq_or_ne y x with rfl | hyx
    · rw [update_self] at hj
      rw [hitems]
      exact ⟨List.mem_cons_of_mem _ hj, ne_of_mem_of_not_mem hj hnot⟩
    · rw [update_of_ne hyx] at hj
      exact ⟨hj, fun hji => hyx (h.apart y x i (hji ▸ hj) hon)⟩
  have hold : ∀ y, (update items x is y).map (update s.value i none) =
      (update items x is y).map s.value := fun y =>
    List.map_congr_left fun j hj => update_of_ne (hsub y j hj).2 ..
  refine ⟨s.setHead x (some (s.next i)), i,
    { s.setHead x (some (s.next i)) with value := update s.value i none, freed := s.freed ++ [i] },
    is, by simp [popEntryList, hhead, hv], hv, ?_, rfl, ?_⟩
  · have hlive : ((s.setHead x (some (s.next i))).value i).isSome := by
      rw [State.setHead, hv]
      rfl
    rw [State.deleteItem, if_pos hlive]
    rfl
  refine ⟨fun y => ?_, fun y f hy => ?_, fun y hy => ?_, fun y us hy => ?_, fun y z j hy hz => ?_,
    fun j hj => ?_, fun j => ?_, fun j hj => ?_, ?_⟩
  · rcases eq_or_ne y x with rfl | hyx
    · simp [State.setHead]
    · simpa [State.setHead, hyx] using h.same y
  · rcases eq_or_ne y x with rfl | hyx
    · rw [setHead_head, update_self] at hy
      obtain rfl := Option.some.inj hy
      rwa [update_self]
    · rw [setHead_head, update_of_ne hyx] at hy
      rw [update_of_ne hyx]
      exact h.chain y f hy
  · rcases eq_or_ne y x with rfl | hyx
    · simp [State.setHead] at hy
    · rw [setHead_head, update_of_ne hyx] at hy
      rw [update_of_ne hyx]
      exact h.vacant y hy
  · refine (hold y).trans ?_
    rcases eq_or_ne y x with rfl | hyx
    · rw [update_self] at hy
      obtain rfl := Option.some.inj hy
      rwa [update_self]
    · rw [update_of_ne hyx] at hy
      rw [update_of_ne hyx]
      exact h.values y us hy
  · exact h.apart y z j (hsub y j hy).1 (hsub z j hz).1
  · have hne : j ≠ i := by
      rintro rfl
      simp at hj
    obtain ⟨y, hy⟩ := h.live j (by simpa [hne, State.setHead] using hj)
    refine ⟨y, ?_⟩
    rcases eq_or_ne y x with rfl | hyx
    · rw [hitems] at hy
      rw [update_self]
      exact (List.mem_cons.mp hy).resolve_left hne
    · rwa [update_of_ne hyx]
  · refine (h.created j).trans ?_
    rcases eq_or_ne j i with rfl | hne
    · simp [hv]
    · simp [hne]
  · rcases List.mem_append.mp hj with hj | hj
    · exact (update_of_ne (ne_of_mem_of_not_mem hj hfreed) ..).trans (h.gone j hj)
    · obtain rfl := List.mem_singleton.mp hj
      exact update_self ..
  · refine h.once.append (List.nodup_singleton i) ?_
    simpa using hfreed

theorem popEntryList_nil (h : Represents s items m) (hx : m x = some []) :
    popEntryList x s = some (s, none) := by
  simp [popEntryList, (h.nil hx).2]

/-- `clear` deletes one item after the other. -/
theorem clearLoop_spec {rounds : ℕ} (h : Represents s items m) (hx : m x = some vs)
    (hr : vs.length < rounds) :
    ∃ s' items', clearLoop x rounds s = some s' ∧
      Represents s' items' (update m x (some [])) := by
  induction vs generalizing s items m rounds with
  | nil =>
    obtain ⟨k, rfl⟩ := Nat.exists_eq_succ_of_ne_zero (Nat.ne_of_gt hr)
    refine ⟨s, items, by simp [clearLoop, popEntryList_nil h hx], ?_⟩
    rwa [← hx, update_eq_self]
  | cons v ws ih =>
    obtain ⟨k, rfl⟩ := Nat.exists_eq_succ_of_ne_zero (Nat.ne_of_gt (Nat.zero_lt_of_lt hr))
    obtain ⟨u, i, s', is, hpop, -, hdel, -, hrep⟩ := take_spec h hx
    obtain ⟨t, items', ht, hrep'⟩ := ih hrep (update_self ..) (Nat.lt_of_succ_lt_succ hr)
    refine ⟨t, items', by simp [clearLoop, hpop, hdel, ht], ?_⟩
    rwa [update_idem] at hrep'

theorem clear_spec (h : Represents s items m) (hx : m x = some vs) :
    ∃ s' items', clear x s = some s' ∧ Represents s' items' (update m x (some [])) :=
  clearLoop_spec h hx (Nat.lt_succ_of_le (h.length_le hx))

/-- A permitted call does to the stacks what it does to the lists, and answers like them. -/
theorem step_spec (h : ∃ items, Represents s items m) (c : Call S T) (hp : lists.Permits m c) :
    ∃ t, step s c = some (t, lists.answer m c) ∧ ∃ items, Represents t items (lists.after m c) := by
  obtain ⟨items, h⟩ := h
  have hlist : ∀ {x}, (m x).isSome → ∃ vs, m x = some vs := Option.isSome_iff_exists.mp
  cases c with
  | construct x =>
    exact ⟨_, rfl, items, h.setHead (represents_vacant h hp) (.inr ⟨rfl, rfl⟩)⟩
  | copy x y =>
    obtain ⟨hx, hy⟩ := hp
    refine ⟨s.setHead x (some none), by simp [step, (h.nil hy).2, lists], items, ?_⟩
    have hafter : lists.after m (.copy x y) = update m x (some []) := congrArg (update m x) hy
    rw [hafter]
    exact h.setHead (represents_vacant h hx) (.inr ⟨rfl, rfl⟩)
  | push x v allocated =>
    obtain ⟨vs, hx⟩ := hlist hp
    cases allocated with
    | false =>
      obtain ⟨first, hfirst⟩ := exists_head h hp
      exact ⟨s, by simp [step, push, hfirst, lists], items, h⟩
    | true =>
      obtain ⟨t, ht, hrep⟩ := push_spec h hx v
      refine ⟨t, by simp [step, ht, lists], update items x (s.created :: items x), ?_⟩
      have hafter : lists.after m (.push x v true) = update m x (some (v :: vs)) := by
        simp [lists, hx]
      rwa [hafter]
  | pop x =>
    obtain ⟨vs, hx⟩ := hlist hp
    cases vs with
    | nil =>
      refine ⟨s, by simp [step, pop, popEntryList_nil h hx, lists, hx], items, ?_⟩
      have hafter : lists.after m (.pop x) = m := by
        change update m x ((m x).map List.tail) = m
        rw [hx, Option.map_some, List.tail_nil, ← hx, update_eq_self]
      rwa [hafter]
    | cons v ws =>
      obtain ⟨u, i, t, is, hpop, hv, hdel, -, hrep⟩ := take_spec h hx
      refine ⟨t, by simp [step, pop, hpop, hv, hdel, lists, hx], update items x is, ?_⟩
      have hafter : lists.after m (.pop x) = update m x (some ws) := by simp [lists, hx]
      rwa [hafter]
  | empty x =>
    obtain ⟨vs, hx⟩ := hlist hp
    refine ⟨s, ?_, items, h⟩
    cases vs with
    | nil => simp [step, (h.nil hx).2, lists, hx]
    | cons v ws =>
      obtain ⟨i, is, -, hhead, -⟩ := h.cons hx
      simp [step, hhead, lists, hx]
  | clear x =>
    obtain ⟨vs, hx⟩ := hlist hp
    obtain ⟨t, items', ht, hrep⟩ := clear_spec h hx
    exact ⟨t, by simp [step, ht, lists], items', hrep⟩
  | iterate x =>
    obtain ⟨vs, hx⟩ := hlist hp
    exact ⟨s, by simp [step, iterate_eq h hx, lists, hx], items, h⟩
  | destroy x =>
    obtain ⟨vs, hx⟩ := hlist hp
    obtain ⟨t, items', ht, hrep⟩ := clear_spec h hx
    have hend := hrep.setHead (hrep.nil (update_self ..)).1 (.inl ⟨rfl, rfl⟩)
    rw [update_idem] at hend
    exact ⟨t.setHead x none, by simp [step, ht, lists], items', hend⟩

/-- In every run over stacks that are copied only when they are empty, calls answer as on lists
of their elements, last in first out, each item is on one stack until it is deleted, and it is
deleted once. -/
theorem stacks_are_lists {cs : List (Call S T)} (h : lists.PermitsAll (fun _ => none) cs) :
    ∃ t, calls step State.start cs = some (t, lists.answers (fun _ => none) cs) ∧
      ∃ items, Represents t items (lists.final (fun _ => none) cs) :=
  Model.calls_answer (fun _ _ c hR hP => step_spec hR c hP) ⟨_, represents_start⟩ h

end Proofs

instance decidablePermits {S T : Type} [DecidableEq S] [DecidableEq T] (m : Lists S T) :
    ∀ c : Call S T, Decidable (lists.Permits m c)
  | .construct x => inferInstanceAs (Decidable (m x = none))
  | .copy x y => inferInstanceAs (Decidable (m x = none ∧ m y = some []))
  | .push x _ _ | .pop x | .empty x | .clear x | .iterate x | .destroy x =>
    inferInstanceAs (Decidable (m x).isSome)

/-- One stack is filled, read and emptied, and another copied before it is filled. -/
def filled : List (Call Bool ℕ) :=
  [.construct true, .copy false true, .push true 10 true, .push true 12 true, .push true 13 false,
    .push true 14 true, .iterate true, .pop true, .push false 7 true, .empty true, .destroy true,
    .pop false, .pop false, .empty false]

theorem stacks_are_lists_filled :
    ∃ t, calls step State.start filled =
        some (t, [.done, .done, .bool true, .bool true, .bool false, .bool true,
          .elements [14, 12, 10], .popped (some 14), .bool true, .bool false, .done,
          .popped (some 7), .popped none, .bool true]) ∧
      ∃ items, Represents t items (lists.final (fun _ => none) filled) :=
  stacks_are_lists (by decide : lists.PermitsAll (fun _ => none) filled)

/-- The items of a stack that was copied are deleted with the one, and again with the other. -/
example : calls step (State.start : State Bool ℕ) [.construct true, .push true 1 true,
    .copy false true, .destroy true, .destroy false] = none := rfl

end KernelLib.StackItems
