import Mathlib.Data.List.Count
import KernelLib.CountedObjects

/-!
# Holders of reference-counted items

`ref_holder` variables live in numbered slots; a slot is destroyed or holds
a possibly null pointer to an item. The special members retain and release
exactly as written: construction from a pointer retains, a copy assignment
releases its own item before it retains the other one, moves leave the
source null. Operations that may delete an item say which one.
-/

namespace KernelLib.RefHolder

open CountedObjects

/-- The items and the holder variables. A slot is `none` once its holder is
destroyed; a live holder has the pointer `_ptr`, null or to an item. -/
structure Store (V : Type) where
  /-- The items with their counters. -/
  objs : Objects V
  /-- One slot for every holder ever constructed. -/
  holders : List (Option (Option ℕ))

variable {V : Type}

/-- `if (_ptr) _ptr->retain()`. -/
def retainPtr (p : Option ℕ) (o : Objects V) : Option (Objects V) :=
  match p with
  | none => some o
  | some i => o.retain i

/-- `if (_ptr) _ptr->release()`, with the item this deletes. -/
def releasePtr (p : Option ℕ) (o : Objects V) : Option (Objects V × Option ℕ) :=
  match p with
  | none => some (o, none)
  | some i => (o.release i).map fun r => (r.1, if r.2 then some i else none)

/-- The pointer of a live holder. -/
def Store.ptr (h : ℕ) (st : Store V) : Option (Option ℕ) := (st.holders[h]?).join

/-- Overwrite a slot. -/
def Store.setSlot (h : ℕ) (x : Option (Option ℕ)) (st : Store V) : Store V :=
  { st with holders := st.holders.set h x }

/-- Write a live holder's pointer. -/
def Store.setPtr (h : ℕ) (p : Option ℕ) (st : Store V) : Store V := st.setSlot h (some p)

/-- A new holder variable with this pointer. -/
def Store.newSlot (p : Option ℕ) (st : Store V) : Store V :=
  { st with holders := st.holders ++ [some p] }

/-- `ref_holder(RefClass* ptr)`. -/
def Store.construct (p : Option ℕ) (st : Store V) : Option (Store V) := do
  let o ← retainPtr p st.objs
  return { st with objs := o }.newSlot p

/-- `ref_holder(const ref_holder& r)`. -/
def Store.copyConstruct (r : ℕ) (st : Store V) : Option (Store V) := do
  let p ← st.ptr r
  st.construct p

/-- `ref_holder(ref_holder&& r)`. -/
def Store.moveConstruct (r : ℕ) (st : Store V) : Option (Store V) := do
  let p ← st.ptr r
  return (st.newSlot p).setPtr r none

/-- `operator=(const ref_holder& r)`. -/
def Store.copyAssign (h r : ℕ) (st : Store V) : Option (Store V × Option ℕ) := do
  let own ← st.ptr h
  let p ← st.ptr r
  if h = r then return (st, none)
  let (o, d) ← releasePtr own st.objs
  let o ← retainPtr p o
  return ({ st with objs := o }.setPtr h p, d)

/-- `operator=(ref_holder&& r)`. -/
def Store.moveAssign (h r : ℕ) (st : Store V) : Option (Store V × Option ℕ) := do
  let own ← st.ptr h
  let p ← st.ptr r
  if h = r then return (st, none)
  let (o, d) ← releasePtr own st.objs
  return (({ st with objs := o }.setPtr h p).setPtr r none, d)

/-- `~ref_holder()`. -/
def Store.destroy (h : ℕ) (st : Store V) : Option (Store V × Option ℕ) := do
  let p ← st.ptr h
  let (o, d) ← releasePtr p st.objs
  return ({ st with objs := o }.setSlot h none, d)

/-- How often a pointer points at an item. -/
def points (p : Option ℕ) (i : ℕ) : ℕ := if p = some i then 1 else 0

/-- How many live holders point at an item. -/
def held (holders : List (Option (Option ℕ))) (i : ℕ) : ℕ := holders.count (some (some i))

/-- Counts are exact: an item has the given references and one for each
holder that points at it. -/
def Owned (st : Store V) (refs : ℕ → ℕ) : Prop :=
  Exact st.objs fun i => refs i + held st.holders i

/-- The item that loses its last reference with this pointer, by the references
it keeps. -/
def lastOf (p : Option ℕ) (refs : ℕ → ℕ) : Option ℕ := p.filter fun i => refs i = 0

theorem lastOf_eq_some {p : Option ℕ} {refs : ℕ → ℕ} {i : ℕ} :
    lastOf p refs = some i ↔ p = some i ∧ refs i = 0 := by
  simp [lastOf, Option.filter_eq_some_iff]

/-- Objects after a step that may have deleted one of them: all others are
live as before, with their payloads. -/
structure Evolves (o o' : Objects V) (d : Option ℕ) : Prop where
  keeps : Keeps o o'
  created : o'.created = o.created
  live : ∀ j, (o'.cell j).isSome = ((o.cell j).isSome && decide (d ≠ some j))

theorem Evolves.refl (o : Objects V) : Evolves o o none :=
  ⟨Keeps.refl o, rfl, by simp⟩

/-- A step that deletes nothing can come after one that may. -/
theorem Evolves.trans_none {o o' o'' : Objects V} {d : Option ℕ} (h : Evolves o o' d)
    (h' : Evolves o' o'' none) : Evolves o o'' d where
  keeps := h.keeps.trans h'.keeps
  created := h'.created.trans h.created
  live := fun j => by simpa [h.live j] using h'.live j

@[simp] theorem points_none (i : ℕ) : points none i = 0 := by simp [points]

@[simp] theorem points_self (i : ℕ) : points (some i) i = 1 := by simp [points]

theorem points_some (i j : ℕ) : points (some i) j = single i j := by
  simp [points, single, eq_comm]

@[simp] theorem held_append (hs : List (Option (Option ℕ))) (p : Option ℕ) (i : ℕ) :
    held (hs ++ [some p]) i = held hs i + points p i := by
  simp [held, points, List.count_append, List.count_singleton]

/-- A new holder leaves the others as they are. -/
theorem join_append {hs : List (Option (Option ℕ))} {h : ℕ} {p : Option ℕ}
    (hp : (hs[h]?).join = some p) (q : Option ℕ) : ((hs ++ [some q])[h]?).join = some p := by
  have hx : hs[h]? = some (some p) := Option.join_eq_some_iff.mp hp
  rw [List.getElem?_append_left (List.getElem?_eq_some_iff.mp hx).1, hp]

/-- Replacing a slot trades its old pointer for the new one. -/
theorem held_set {hs : List (Option (Option ℕ))} {h : ℕ} {x : Option (Option ℕ)}
    (hx : hs[h]? = some x) (y : Option (Option ℕ)) (i : ℕ) :
    held (hs.set h y) i + points (x.getD none) i = held hs i + points (y.getD none) i := by
  obtain ⟨hlt, he⟩ := List.getElem?_eq_some_iff.mp hx
  have hpos : hs[h] = some (some i) → 0 < hs.count (some (some i)) := by
    intro h1
    exact List.count_pos_iff.mpr (h1 ▸ List.getElem_mem hlt)
  rw [held, List.count_set hlt, held, he]
  rw [he] at hpos
  have hp : ∀ z : Option (Option ℕ),
      points (z.getD none) i = if z == some (some i) then 1 else 0 := by
    intro z
    cases z <;> simp [points]
  rw [hp, hp]
  by_cases h1 : x = some (some i)
  · have hp' := hpos h1
    simp only [h1, beq_self_eq_true, if_true]
    omega
  · simp [h1]

section Specs

variable {st : Store V} {refs refs' : ℕ → ℕ} {p own : Option ℕ} {h r : ℕ}

/-- A live holder's slot. -/
theorem ptr_eq_some : st.ptr h = some p ↔ st.holders[h]? = some (some p) := by
  simp [Store.ptr, Option.join_eq_some_iff]

theorem ptr_lt (hp : st.ptr h = some p) : h < st.holders.length :=
  (List.getElem?_eq_some_iff.mp (ptr_eq_some.mp hp)).1

/-- The item a live holder points at is held. -/
theorem held_pos {i : ℕ} (hp : st.ptr h = some (some i)) : 0 < held st.holders i :=
  List.count_pos_iff.mpr (List.mem_of_getElem? (ptr_eq_some.mp hp))

theorem Owned.congr (ho : Owned st refs) (he : ∀ j, refs' j = refs j) : Owned st refs' := by
  obtain rfl : refs' = refs := funext he
  exact ho

/-- Retaining through a pointer leaves one more loose reference. -/
theorem retainPtr_spec (ho : Owned st refs)
    (hp : ∀ i, p = some i → 0 < refs i + held st.holders i) :
    ∃ o, retainPtr p st.objs = some o ∧ Evolves st.objs o none ∧
      Owned { st with objs := o } fun j => refs j + points p j := by
  cases p with
  | none => exact ⟨st.objs, rfl, Evolves.refl _, ho.congr (by simp)⟩
  | some i =>
    obtain ⟨o, hr, hex, hk, hcr, hlive⟩ := Exact.retain ho (hp i rfl)
    refine ⟨o, hr, ⟨hk, hcr, by simpa using hlive⟩, hex.congr fun j => ?_⟩
    simp only [points_some]
    ring

/-- Releasing through a pointer drops one loose reference. -/
theorem releasePtr_spec (ho : Owned st fun j => refs j + points p j)
    (hm : ∀ i, p = some i → refs i + held st.holders i ≤ maxCount) :
    ∃ o, releasePtr p st.objs = some (o, lastOf p fun i => refs i + held st.holders i) ∧
      Evolves st.objs o (lastOf p fun i => refs i + held st.holders i) ∧
      Owned { st with objs := o } refs := by
  cases p with
  | none => exact ⟨st.objs, rfl, Evolves.refl _, ho.congr (by simp)⟩
  | some i =>
    obtain ⟨o, hr, hex, hk, hcr, hlive⟩ := Exact.release (i := i) ho
      (fun j => refs j + held st.holders j) (fun j => by simp only [points_some]; ring) (hm i rfl)
    refine ⟨o, ?_, ⟨hk, hcr, fun j => ?_⟩, hex⟩
    · simp [releasePtr, hr, lastOf, Option.filter_some]
    · rw [hlive j]
      by_cases hj : j = i
      · simp [hj, lastOf_eq_some]
      · simp [hj, Ne.symm hj, lastOf_eq_some]

/-- A loose reference becomes a new holder. -/
theorem Owned.newSlot (ho : Owned st fun j => refs j + points p j) : Owned (st.newSlot p) refs :=
  Exact.congr ho fun j => by
    simp only [Store.newSlot, held_append]
    ring

/-- Overwriting a slot makes its old reference loose and takes up a loose one. -/
theorem Owned.setSlot {x : Option (Option ℕ)} (y : Option (Option ℕ))
    (ho : Owned st fun j => refs j + points (y.getD none) j) (hx : st.holders[h]? = some x) :
    Owned (st.setSlot h y) fun j => refs j + points (x.getD none) j := by
  refine Exact.congr ho fun j => ?_
  have hs := held_set hx y j
  simp only [Store.setSlot]
  omega

/-- A holder that gives up its pointer leaves a loose reference. -/
theorem Owned.clearSlot {y : Option (Option ℕ)} (ho : Owned st refs) (hp : st.ptr h = some p)
    (hy : y.getD none = none) : Owned (st.setSlot h y) fun j => refs j + points p j :=
  Owned.setSlot y (ho.congr (by simp [hy])) (ptr_eq_some.mp hp)

/-- A holder constructed from a pointer to a referenced item. -/
theorem construct_spec (ho : Owned st refs)
    (hp : ∀ i, p = some i → 0 < refs i + held st.holders i) :
    ∃ o, st.construct p = some ⟨o, st.holders ++ [some p]⟩ ∧ Evolves st.objs o none ∧
      Owned ⟨o, st.holders ++ [some p]⟩ refs := by
  obtain ⟨o, hr, hev, how⟩ := retainPtr_spec ho hp
  exact ⟨o, by simp [Store.construct, hr, Store.newSlot], hev, how.newSlot⟩

/-- A copied holder. -/
theorem copyConstruct_spec (ho : Owned st refs) (hr : st.ptr r = some p) :
    ∃ o, st.copyConstruct r = some ⟨o, st.holders ++ [some p]⟩ ∧ Evolves st.objs o none ∧
      Owned ⟨o, st.holders ++ [some p]⟩ refs := by
  obtain ⟨o, hc, hev, how⟩ := construct_spec ho (p := p) (by
    rintro i rfl
    have := held_pos hr
    omega)
  exact ⟨o, by simp [Store.copyConstruct, hr, hc], hev, how⟩

/-- A moved holder leaves its source null. -/
theorem moveConstruct_spec (ho : Owned st refs) (hr : st.ptr r = some p) :
    st.moveConstruct r = some ⟨st.objs, (st.holders ++ [some p]).set r (some none)⟩ ∧
      Owned ⟨st.objs, (st.holders ++ [some p]).set r (some none)⟩ refs := by
  refine ⟨by simp [Store.moveConstruct, hr, Store.setPtr, Store.setSlot, Store.newSlot], ?_⟩
  rw [List.set_append_left _ _ (ptr_lt hr)]
  exact (ho.clearSlot (y := some none) hr rfl).newSlot

/-- A destroyed holder releases its item. -/
theorem destroy_spec (ho : Owned st refs) (hp : st.ptr h = some p)
    (hm : ∀ i, refs i + held (st.holders.set h none) i ≤ maxCount) :
    ∃ o d, st.destroy h = some (⟨o, st.holders.set h none⟩, d) ∧ Evolves st.objs o d ∧
      Owned ⟨o, st.holders.set h none⟩ refs := by
  obtain ⟨o, hr, hev, how⟩ := releasePtr_spec (ho.clearSlot (y := none) hp rfl) fun i _ => hm i
  have hr' : releasePtr p st.objs = some (o, _) := hr
  exact ⟨o, _, by simp [Store.destroy, hp, hr', Store.setSlot], hev, how⟩

/-- An assignment between two holders releases the item of the first and
retains that of the second, which the second keeps alive. -/
theorem copyAssign_spec (ho : Owned st refs) (hh : st.ptr h = some own) (hr : st.ptr r = some p)
    (hne : h ≠ r) (hm : ∀ i, refs i + held (st.holders.set h (some p)) i ≤ maxCount) :
    ∃ o d, st.copyAssign h r = some (⟨o, st.holders.set h (some p)⟩, d) ∧ Evolves st.objs o d ∧
      Owned ⟨o, st.holders.set h (some p)⟩ refs := by
  have hempty : (st.holders.set h none)[h]? = some none := by
    rw [List.getElem?_set_self (ptr_lt hh)]
  have hsum : ∀ i, held (st.holders.set h none) i ≤ held (st.holders.set h (some p)) i := fun i => by
    have := held_set hempty (some p) i
    rw [List.set_set] at this
    simp only [Option.getD_none, points_none] at this
    omega
  obtain ⟨o₁, hrel, hev₁, how₁⟩ := releasePtr_spec (ho.clearSlot (y := none) hh rfl) fun i _ =>
    (Nat.add_le_add_left (hsum i) _).trans (hm i)
  have hkept : ∀ i, p = some i → 0 < refs i + held (st.holders.set h none) i := by
    rintro i rfl
    have hr' : (st.holders.set h none)[r]? = some (some (some i)) := by
      rw [List.getElem?_set_ne hne]
      exact ptr_eq_some.mp hr
    have : 0 < held (st.holders.set h none) i := List.count_pos_iff.mpr (List.mem_of_getElem? hr')
    omega
  obtain ⟨o₂, hret, hev₂, how₂⟩ := retainPtr_spec how₁ hkept
  have how : Owned ⟨o₂, st.holders.set h (some p)⟩ refs := by
    have := how₂.setSlot (some p) hempty
    simpa [Store.setSlot] using this
  have hrel' : releasePtr own st.objs = some (o₁, _) := hrel
  have hret' : retainPtr p o₁ = some o₂ := hret
  refine ⟨o₂, _, ?_, hev₁.trans_none hev₂, how⟩
  simp [Store.copyAssign, hh, hr, hne, hrel', hret', Store.setPtr, Store.setSlot]

/-- A move assignment between two holders releases the item of the first and
hands it that of the second, which is left null. -/
theorem moveAssign_spec (ho : Owned st refs) (hh : st.ptr h = some own) (hr : st.ptr r = some p)
    (hne : h ≠ r)
    (hm : ∀ i, refs i + held ((st.holders.set h (some p)).set r (some none)) i ≤ maxCount) :
    ∃ o d, st.moveAssign h r = some (⟨o, (st.holders.set h (some p)).set r (some none)⟩, d) ∧
      Evolves st.objs o d ∧ Owned ⟨o, (st.holders.set h (some p)).set r (some none)⟩ refs := by
  have hnull : (st.setSlot r (some none)).ptr h = some own := by
    rw [ptr_eq_some, Store.setSlot, List.getElem?_set_ne (Ne.symm hne)]
    exact ptr_eq_some.mp hh
  have hfree : Owned ((st.setSlot r (some none)).setSlot h (some p)) fun j => refs j + points own j :=
    (ho.clearSlot (y := some none) hr rfl).setSlot (some p) (ptr_eq_some.mp hnull)
  simp only [Store.setSlot, List.set_comm _ _ (Ne.symm hne)] at hfree
  obtain ⟨o, hrel, hev, how⟩ := releasePtr_spec hfree fun i _ => hm i
  have hrel' : releasePtr own st.objs = some (o, _) := hrel
  refine ⟨o, _, ?_, hev, how⟩
  simp [Store.moveAssign, hh, hr, hne, hrel', Store.setPtr, Store.setSlot]

end Specs

end KernelLib.RefHolder
