import Mathlib.Data.List.Nodup
import Mathlib.Logic.Function.Basic
import Mathlib.Tactic.Ring

/-!
# Objects with 32-bit reference counters

Objects are created with a count, retained and released. A release that
leaves less than one reference deletes the object. Counters are signed
32-bit numbers and wrap. Counts are exact for a function that says how
many references there are when every live object carries that number, as
far as 32 bits go, and every object without references is gone. Each
operation carries exactness over to the function after it, as long as no
release leaves more references than a counter can tell.
-/

namespace KernelLib.CountedObjects

/-- The value a signed 32-bit counter keeps. -/
def wrap32 (n : ℤ) : ℤ := n.bmod (2 ^ 32)

/-- The largest value of a signed 32-bit counter. -/
def maxCount : ℕ := 2 ^ 31 - 1

theorem wrap32_of_mem {n : ℤ} (h0 : 0 ≤ n) (h1 : n ≤ maxCount) : wrap32 n = n := by
  simp only [maxCount, Nat.reducePow, Nat.reduceSub, Nat.cast_ofNat] at h1
  simp only [wrap32, Int.bmod_def, Nat.reducePow, Nat.cast_ofNat]
  omega

theorem wrap32_one : wrap32 1 = 1 := by decide

/-- Counters count modulo their width. -/
theorem wrap32_wrap32_add (n k : ℤ) : wrap32 (wrap32 n + k) = wrap32 (n + k) :=
  Int.bmod_add_bmod

/-- One past the maximum is the least negative value. -/
theorem wrap32_maxCount_succ : wrap32 (maxCount + 1) = -2 ^ 31 := by decide

/-- A live object: its counter and its payload. -/
structure Cell (V : Type) where
  /-- The reference counter. -/
  pn : ℤ
  /-- What the object holds. -/
  value : V
  deriving DecidableEq, Repr

/-- All objects ever created, named in the order of their creation. -/
structure Objects (V : Type) where
  /-- The live objects. -/
  cell : ℕ → Option (Cell V)
  /-- How many were created. -/
  created : ℕ
  /-- Deletions, in order. -/
  deleted : List ℕ

variable {V : Type}

/-- Nothing has been created. -/
def Objects.empty : Objects V := ⟨fun _ => none, 0, []⟩

/-- Overwrite the cell of one object. -/
def Objects.set (i : ℕ) (c : Option (Cell V)) (o : Objects V) : Objects V :=
  { o with cell := Function.update o.cell i c }

/-- Delete an object. -/
def Objects.delete (i : ℕ) (o : Objects V) : Objects V :=
  { o.set i none with deleted := o.deleted ++ [i] }

/-- Create an object with one reference; its name is the number of those before it. -/
def Objects.create (v : V) (o : Objects V) : Objects V :=
  { o.set o.created (some ⟨1, v⟩) with created := o.created + 1 }

/-- Take a reference on a live object. -/
def Objects.retain (i : ℕ) (o : Objects V) : Option (Objects V) :=
  (o.cell i).map fun c => o.set i (some { c with pn := wrap32 (c.pn + 1) })

/-- Drop a reference on a live object; the flag says that this deleted it. -/
def Objects.release (i : ℕ) (o : Objects V) : Option (Objects V × Bool) :=
  (o.cell i).map fun c =>
    let r := wrap32 (c.pn - 1)
    if r < 1 then (o.delete i, true) else (o.set i (some { c with pn := r }), false)

/-- One reference on one object. -/
def single (i : ℕ) : ℕ → ℕ := fun j => if j = i then 1 else 0

@[simp] theorem single_self (i : ℕ) : single i i = 1 := if_pos rfl

theorem single_of_ne {i j : ℕ} (h : j ≠ i) : single i j = 0 := if_neg h

/-- Every live object carries its number of references up to the width of its
counter, an object without references is gone, and each object that is gone
was deleted once. -/
structure Exact (o : Objects V) (refs : ℕ → ℕ) : Prop where
  live : ∀ i c, o.cell i = some c → c.pn = wrap32 (refs i) ∧ 0 < refs i
  dead : ∀ i, o.cell i = none → refs i = 0
  fresh : ∀ i, o.created ≤ i → o.cell i = none
  deleted_nodup : o.deleted.Nodup
  mem_deleted : ∀ i, i ∈ o.deleted ↔ i < o.created ∧ o.cell i = none

/-- The objects that are still live keep their payloads. -/
def Keeps (o o' : Objects V) : Prop :=
  ∀ i c', o'.cell i = some c' → ∃ c, o.cell i = some c ∧ c'.value = c.value

theorem Keeps.refl (o : Objects V) : Keeps o o := fun _ c h => ⟨c, h, rfl⟩

theorem Keeps.trans {o o' o'' : Objects V} (h : Keeps o o') (h' : Keeps o' o'') : Keeps o o'' := by
  intro i c'' hc''
  obtain ⟨c', hc', hv'⟩ := h' i c'' hc''
  obtain ⟨c, hc, hv⟩ := h i c' hc'
  exact ⟨c, hc, hv'.trans hv⟩

section Exactness

variable {o : Objects V} {refs refs' : ℕ → ℕ} {i : ℕ}

theorem exact_empty : Exact (Objects.empty : Objects V) fun _ => 0 where
  live := by simp [Objects.empty]
  dead := by simp
  fresh := by simp [Objects.empty]
  deleted_nodup := List.nodup_nil
  mem_deleted := by simp [Objects.empty]

/-- Exactness only depends on the values of the reference function. -/
theorem Exact.congr (h : Exact o refs) (he : ∀ j, refs' j = refs j) : Exact o refs' := by
  obtain rfl : refs' = refs := funext he
  exact h

/-- An object with a reference is live. -/
theorem Exact.exists_cell (h : Exact o refs) (hi : 0 < refs i) :
    ∃ c, o.cell i = some c ∧ c.pn = wrap32 (refs i) := by
  cases hc : o.cell i with
  | none =>
    have hz := h.dead i hc
    omega
  | some c => exact ⟨c, rfl, (h.live i c hc).1⟩

/-- A counter within its range is the number of references. -/
theorem Exact.pn_eq {c : Cell V} (h : Exact o refs) (hc : o.cell i = some c)
    (hm : refs i ≤ maxCount) : c.pn = refs i := by
  rw [(h.live i c hc).1, wrap32_of_mem (by omega) (by omega)]

/-- An object that was never created has no references. -/
theorem Exact.refs_created (h : Exact o refs) : refs o.created = 0 :=
  h.dead _ (h.fresh _ le_rfl)

@[simp] theorem set_cell (o : Objects V) (i : ℕ) (c : Option (Cell V)) (j : ℕ) :
    (o.set i c).cell j = if j = i then c else o.cell j := by
  simp only [Objects.set, Function.update_apply]

@[simp] theorem delete_cell (o : Objects V) (i j : ℕ) :
    (o.delete i).cell j = if j = i then none else o.cell j := set_cell o i none j

@[simp] theorem create_cell (v : V) (o : Objects V) (j : ℕ) :
    (o.create v).cell j = if j = o.created then some ⟨1, v⟩ else o.cell j :=
  set_cell o o.created _ j

/-- A created object starts with its one reference. -/
theorem Exact.create (h : Exact o refs) (v : V) :
    Exact (o.create v) fun j => refs j + single o.created j := by
  have hz := h.refs_created
  constructor
  · intro j c hc
    rw [create_cell] at hc
    split at hc
    · next hj =>
      subst hj
      rw [← Option.some.inj hc]
      simpa [hz] using wrap32_one.symm
    · next hj => simpa [single_of_ne hj] using h.live j c hc
  · intro j hc
    rw [create_cell] at hc
    split at hc
    · cases hc
    · next hj => simpa [single_of_ne hj] using h.dead j hc
  · intro j hj
    have hlt : o.created + 1 ≤ j := hj
    rw [create_cell, if_neg (by omega)]
    exact h.fresh j (by omega)
  · exact h.deleted_nodup
  · intro j
    change j ∈ o.deleted ↔ j < o.created + 1 ∧ _
    rw [h.mem_deleted, create_cell]
    split
    · next hj => simp [hj]
    · next hj => exact ⟨fun hd => ⟨by omega, hd.2⟩, fun hd => ⟨by omega, hd.2⟩⟩

/-- A live object whose counter is set to its new number of references. -/
theorem Exact.setCount {c : Cell V} (h : Exact o refs) (refs' : ℕ → ℕ)
    (hc : o.cell i = some c) (hne : ∀ j, j ≠ i → refs' j = refs j) (hi : 0 < refs' i) :
    Exact (o.set i (some { c with pn := wrap32 (refs' i) })) refs' ∧
      Keeps o (o.set i (some { c with pn := wrap32 (refs' i) })) := by
  refine ⟨⟨?_, ?_, ?_, h.deleted_nodup, ?_⟩, ?_⟩
  · intro j c' hc'
    rw [set_cell] at hc'
    split at hc'
    · next hj =>
      subst hj
      exact ⟨by rw [← Option.some.inj hc'], hi⟩
    · next hj =>
      rw [hne j hj]
      exact h.live j c' hc'
  · intro j hc'
    rw [set_cell] at hc'
    split at hc'
    · cases hc'
    · next hj =>
      rw [hne j hj]
      exact h.dead j hc'
  · intro j hj
    have hn := h.fresh j hj
    rw [set_cell, if_neg (by rintro rfl; simp [hc] at hn)]
    exact hn
  · intro j
    rw [set_cell]
    change j ∈ o.deleted ↔ j < o.created ∧ _
    rw [h.mem_deleted]
    split
    · next hj => simp [hj, hc]
    · rfl
  · intro j c' hc'
    rw [set_cell] at hc'
    split at hc'
    · next hj => exact ⟨c, hj ▸ hc, by rw [← Option.some.inj hc']⟩
    · exact ⟨c', hc', rfl⟩

/-- A live object that is deleted with its last reference. -/
theorem Exact.delete {c : Cell V} (h : Exact o refs) (hc : o.cell i = some c)
    (hne : ∀ j, j ≠ i → refs' j = refs j) (hi : refs' i = 0) :
    Exact (o.delete i) refs' ∧ Keeps o (o.delete i) := by
  have hlt : i < o.created := by
    by_contra hn
    have hf := h.fresh i (by omega)
    simp [hc] at hf
  have hdel : i ∉ o.deleted := by simp [h.mem_deleted, hc]
  refine ⟨⟨?_, ?_, ?_, ?_, ?_⟩, ?_⟩
  · intro j c' hc'
    rw [delete_cell] at hc'
    split at hc'
    · cases hc'
    · next hj =>
      rw [hne j hj]
      exact h.live j c' hc'
  · intro j hc'
    rw [delete_cell] at hc'
    split at hc'
    · next hj => rw [hj, hi]
    · next hj =>
      rw [hne j hj]
      exact h.dead j hc'
  · intro j hj
    have hle : o.created ≤ j := hj
    rw [delete_cell, if_neg (by omega)]
    exact h.fresh j hle
  · exact h.deleted_nodup.append (List.nodup_singleton i) (by simpa using hdel)
  · intro j
    change j ∈ o.deleted ++ [i] ↔ j < o.created ∧ _
    rw [List.mem_append, h.mem_deleted, List.mem_singleton, delete_cell]
    split
    · next hj => simp [hj, hlt]
    · next hj => simp [hj]
  · intro j c' hc'
    rw [delete_cell] at hc'
    split at hc'
    · cases hc'
    · exact ⟨c', hc', rfl⟩

/-- Retaining a live object adds one reference. -/
theorem Exact.retain (h : Exact o refs) (hi : 0 < refs i) :
    ∃ o', o.retain i = some o' ∧ Exact o' (fun j => refs j + single i j) ∧ Keeps o o' ∧
      o'.created = o.created ∧ ∀ j, (o'.cell j).isSome = (o.cell j).isSome := by
  obtain ⟨c, hc, hpn⟩ := h.exists_cell hi
  have hw : wrap32 (c.pn + 1) = wrap32 (refs i + single i i : ℕ) := by
    rw [hpn, wrap32_wrap32_add, single_self]
    push_cast
    rfl
  have hset := h.setCount (fun j => refs j + single i j) hc
    (fun j hj => by simp [single_of_ne hj]) (by simp)
  rw [← hw] at hset
  refine ⟨_, by simp only [Objects.retain, hc, Option.map_some], hset.1, hset.2, rfl, ?_⟩
  intro j
  by_cases hj : j = i <;> simp [hj, hc]

/-- Releasing a live object drops one reference, and deletes it when that was
the last one. -/
theorem Exact.release (h : Exact o refs) (refs' : ℕ → ℕ)
    (he : ∀ j, refs j = refs' j + single i j) (hm : refs' i ≤ maxCount) :
    ∃ o', o.release i = some (o', decide (refs' i = 0)) ∧ Exact o' refs' ∧ Keeps o o' ∧
      o'.created = o.created ∧
      ∀ j, (o'.cell j).isSome = ((o.cell j).isSome && !decide (j = i ∧ refs' i = 0)) := by
  have hi : refs i = refs' i + 1 := by simpa using he i
  obtain ⟨c, hc, hpn⟩ := h.exists_cell (i := i) (by omega)
  have hmod : wrap32 (c.pn - 1) = wrap32 (refs' i) := by
    rw [hpn, hi, sub_eq_add_neg, wrap32_wrap32_add]
    push_cast
    ring_nf
  have hw : wrap32 (c.pn - 1) = refs' i := hmod.trans (wrap32_of_mem (by omega) (by omega))
  have hne : ∀ j, j ≠ i → refs' j = refs j := fun j hj => by
    simpa [single_of_ne hj] using (he j).symm
  by_cases hz : refs' i = 0
  · have hdel := h.delete hc hne hz
    refine ⟨o.delete i, by simp [Objects.release, hc, hw, hz], hdel.1, hdel.2, rfl, ?_⟩
    intro j
    by_cases hj : j = i <;> simp [hj, hz]
  · have hset := h.setCount refs' hc hne (by omega)
    rw [← hmod, hw] at hset
    refine ⟨o.set i (some { c with pn := refs' i }), ?_, hset.1, hset.2, rfl, ?_⟩
    · simp [Objects.release, hc, hw, hz]
    · intro j
      by_cases hj : j = i <;> simp [hj, hc, hz]

end Exactness

end KernelLib.CountedObjects
