import KernelLib.VectorItems
import Mathlib.Data.List.Perm.Basic

/-!
# Vectors as lists

What a vector is for: a list of elements with room for more. Each operation
is one on lists; an element that is moved keeps its number and one that is
constructed gets the next. On this level it is seen that every element that
was constructed is in one list or was destroyed, and never twice.

A vector in the pool matches a list when its buffer holds the elements from
slot zero on and has the bytes for its capacity.
-/

namespace KernelLib.VectorModel

open PoolBlocks VectorItems Word32

variable {V : Type}

/-- What a vector holds. -/
structure Contents (V : Type) where
  /-- The elements, each with its number and value. -/
  elems : List (ℕ × V)
  /-- For how many elements there is room. -/
  capacity : ℕ

/-- Elements with the values of a list, numbered from `c` on. -/
def numbered (c : ℕ) (xs : List V) : List (ℕ × V) := (List.range' c xs.length).zip xs

/-- The capacity after a full buffer grew, exactly. -/
def grown (c : ℕ) : ℕ := if 0 < c then (if 1024 < c then c + 1024 else c * 2) else defReserve

namespace Contents

/-- The list an iteration meets. -/
def values (m : Contents V) : List V := m.elems.map Prod.snd

/-- The numbers of the elements. -/
def ids (m : Contents V) : List ℕ := m.elems.map Prod.fst

/-- The numbers of the elements of a vector that may be gone. -/
def idsOf (o : Option (Contents V)) : List ℕ := o.elim [] ids

/-- A vector without a buffer. -/
def empty : Contents V := ⟨[], 0⟩

/-- The capacity for one more element, if there is one. -/
def roomForOne (ok : Bool) (m : Contents V) : Option ℕ :=
  if m.elems.length < m.capacity then some m.capacity
  else if ok then some (grown m.capacity) else none

/-- The capacity for `n` elements in all, if there is one. -/
def roomFor (ok : Bool) (n : ℕ) (m : Contents V) : Option ℕ :=
  if n ≤ m.capacity then some m.capacity else if ok then some n else none

/-- The capacity for a range of `n` elements, which always goes to a new buffer. -/
def roomForRange (ok : Bool) (n : ℕ) (m : Contents V) : Option ℕ :=
  if n = 0 then none
  else if ok then some (max (m.elems.length + n) (grown m.capacity)) else none

end Contents

/-- The vectors; a destroyed one leaves a gap. -/
structure Model (V : Type) where
  /-- What each holds. -/
  vectors : List (Option (Contents V))
  /-- How many elements were constructed. -/
  constructed : ℕ
  /-- The elements that were destroyed. -/
  destroyed : List ℕ

namespace Model

/-- No vectors. -/
def empty : Model V := ⟨[], 0, []⟩

/-- A live vector. -/
def vec (v : ℕ) (a : Model V) : Option (Contents V) := (a.vectors[v]?).join

/-- The elements in vectors. -/
def present (a : Model V) : List ℕ := a.vectors.flatMap Contents.idsOf

/-- A vector holds something else after some elements were made and some ended. -/
def put (v : ℕ) (m : Contents V) (made : ℕ) (ended : List ℕ) (a : Model V) : Model V :=
  ⟨a.vectors.set v (some m), a.constructed + made, a.destroyed ++ ended⟩

/-- A new vector. -/
def add (m : Contents V) (made : ℕ) (a : Model V) : Model V :=
  { a with vectors := a.vectors ++ [some m], constructed := a.constructed + made }

/-- Change a live vector. -/
def change (v : ℕ) (f : Contents V → Model V) (a : Model V) : Model V := (a.vec v).elim a f

/-- Insert values at a position, if there is a capacity for them. -/
def insertAt (v pos : ℕ) (xs : List V) (m : Contents V) (cap : Option ℕ) (a : Model V) : Model V :=
  cap.elim a fun c =>
    a.put v ⟨m.elems.take pos ++ numbered a.constructed xs ++ m.elems.drop pos, c⟩ xs.length []

/-- Erase a position. -/
def eraseAt (v pos : ℕ) (m : Contents V) (a : Model V) : Model V :=
  a.put v { m with elems := m.elems.eraseIdx pos } 0 m.ids[pos]?.toList

/-- A copy of a vector, if there is a buffer for it, and how many elements it has. -/
def copyOf (ok : Bool) (m : Contents V) (a : Model V) : Contents V × ℕ :=
  if ok then (⟨numbered a.constructed m.values, m.capacity⟩, m.elems.length) else (Contents.empty, 0)

/-- The model after an operation. -/
def step (a : Model V) : Op V → Model V
  | .construct n ok => a.add ⟨[], if ok then n else 0⟩ 0
  | .constructList xs ok =>
    ((Contents.empty : Contents V).roomForRange ok xs.length).elim (a.add Contents.empty 0) fun c =>
      a.add ⟨numbered a.constructed xs, c⟩ xs.length
  | .copyConstruct r ok => a.change r fun m => a.add (a.copyOf ok m).1 (a.copyOf ok m).2
  | .moveConstruct r => a.change r fun m =>
    { a with vectors := (a.vectors ++ [some m]).set r (some Contents.empty) }
  | .destroy v => a.change v fun m =>
    { a with vectors := a.vectors.set v none, destroyed := a.destroyed ++ m.ids.reverse }
  | .copyAssign v r ok => a.change v fun old => a.change r fun m =>
    a.put v (a.copyOf ok m).1 (a.copyOf ok m).2 old.ids.reverse
  | .swap v r => a.change v fun m => a.change r fun m' =>
    if v = r then a else { a with vectors := (a.vectors.set v (some m')).set r (some m) }
  | .pushBack v x ok => a.change v fun m => a.insertAt v m.elems.length [x] m (m.roomForOne ok)
  | .popBack v => a.change v fun m => a.eraseAt v (m.elems.length - 1) m
  | .insert v pos x ok => a.change v fun m => a.insertAt v pos [x] m (m.roomForOne ok)
  | .insertRange v pos xs ok =>
    a.change v fun m => a.insertAt v pos xs m (m.roomForRange ok xs.length)
  | .append v r ok => a.change v fun m => a.change r fun m' =>
    a.insertAt v m.elems.length m'.values m (m.roomFor ok (m.elems.length + m'.elems.length))
  | .erase v pos => a.change v fun m => a.eraseAt v pos m
  | .reserve v n ok => a.change v fun m =>
    a.put v { m with capacity := (m.roomFor ok n).getD m.capacity } 0 []
  | .clear v => a.change v fun m => a.put v { m with elems := [] } 0 m.ids.reverse
  | .iterate _ => a

/-- What an operation returns about a live vector. -/
def resultOf (a : Model V) (m : Contents V) : Op V → Ret V
  -- a new element in the old buffer is not reported
  | .pushBack _ _ ok | .insert _ _ _ ok => .bool (decide (m.capacity ≤ m.elems.length) && ok)
  | .popBack _ => .bool false
  | .insertRange _ _ xs ok => .bool (m.roomForRange ok xs.length).isSome
  | .append _ r ok =>
    .bool (m.roomFor ok (m.elems.length + ((a.vec r).elim 0 fun m' => m'.elems.length))).isSome
  | .erase _ pos => .bool (decide (pos < m.elems.length))
  | .reserve _ n ok => .bool (m.roomFor ok n).isSome
  | .iterate _ => .items m.values
  | _ => .void

/-- What an operation returns. -/
def result (a : Model V) (op : Op V) : Ret V :=
  match op with
  | .pushBack v _ _ | .insert v _ _ _ | .popBack v | .insertRange v _ _ _ | .append v _ _
  | .erase v _ | .reserve v _ _ | .iterate v => (a.vec v).elim .void fun m => a.resultOf m op
  | _ => .void

/-- The vectors an operation names are live, a position is at most the size,
numbers are `unsigned`, and no vector is appended to itself. -/
def Ready (a : Model V) : Op V → Prop
  | .construct n _ => n < 2 ^ 32
  | .constructList _ _ => True
  | .insert v pos _ _ | .insertRange v pos _ _ => ∃ m, a.vec v = some m ∧ pos ≤ m.elems.length
  | .erase v pos => (a.vec v).isSome ∧ pos < 2 ^ 32
  | .reserve v n _ => (a.vec v).isSome ∧ n < 2 ^ 32
  | .append v r _ => (a.vec v).isSome ∧ (a.vec r).isSome ∧ v ≠ r
  | .swap v r | .copyAssign v r _ => (a.vec v).isSome ∧ (a.vec r).isSome
  | .copyConstruct v _ | .moveConstruct v | .destroy v | .pushBack v _ _ | .popBack v | .clear v
  | .iterate v => (a.vec v).isSome

/-- The capacity an operation needs a new buffer for, exactly. -/
def asked (a : Model V) : Op V → ℕ
  | .construct n _ => n
  | .constructList xs _ => max xs.length defReserve
  | .pushBack v _ _ | .insert v _ _ _ => (a.vec v).elim 0 fun m =>
    if m.elems.length < m.capacity then 0 else grown m.capacity
  | .insertRange v _ xs _ => (a.vec v).elim 0 fun m =>
    max (m.elems.length + xs.length) (grown m.capacity)
  | .append v r _ => (a.vec v).elim 0 fun m => (a.vec r).elim 0 fun m' =>
    m.elems.length + m'.elems.length
  | .reserve _ n _ => n
  | _ => 0

/-- The bytes of the capacity an operation asks for can be counted in 32 bits. -/
def Fits (w : ℕ) (a : Model V) (op : Op V) : Prop := a.asked op * w < 2 ^ 32

instance (a : Model V) (op : Op V) : Decidable (a.Ready op) :=
  match op with
  | .construct n _ => inferInstanceAs (Decidable (n < 2 ^ 32))
  | .constructList _ _ => isTrue trivial
  | .insert v pos _ _ | .insertRange v pos _ _ =>
    decidable_of_iff ((a.vec v).any fun m => decide (pos ≤ m.elems.length)) (by
      simp [Option.any_eq_true, Model.Ready])
  | .erase v pos => inferInstanceAs (Decidable ((a.vec v).isSome ∧ pos < 2 ^ 32))
  | .reserve v n _ => inferInstanceAs (Decidable ((a.vec v).isSome ∧ n < 2 ^ 32))
  | .append v r _ => inferInstanceAs (Decidable ((a.vec v).isSome ∧ (a.vec r).isSome ∧ v ≠ r))
  | .swap v r | .copyAssign v r _ =>
    inferInstanceAs (Decidable ((a.vec v).isSome ∧ (a.vec r).isSome))
  | .copyConstruct v _ | .moveConstruct v | .destroy v | .pushBack v _ _ | .popBack v | .clear v
  | .iterate v => inferInstanceAs (Decidable ((a.vec v).isSome = true))

instance (w : ℕ) (a : Model V) (op : Op V) : Decidable (a.Fits w op) :=
  inferInstanceAs (Decidable (_ < _))

/-- The operation has to grow a buffer and the pool refuses. -/
def Refused (a : Model V) : Op V → Prop
  | .pushBack v _ ok | .insert v _ _ ok =>
    ok = false ∧ ∃ m, a.vec v = some m ∧ m.capacity ≤ m.elems.length
  | .insertRange _ _ _ ok => ok = false
  | .append v r ok => ok = false ∧ ∃ m m', a.vec v = some m ∧ a.vec r = some m' ∧
    m.capacity < m.elems.length + m'.elems.length
  | .reserve v n ok => ok = false ∧ ∃ m, a.vec v = some m ∧ m.capacity < n
  | _ => False

end Model

section Lists

variable {a : Model V} {m m' : Contents V} {v r : ℕ} {op : Op V}

/-- Numbering keeps the length. -/
@[simp] theorem numbered_length (c : ℕ) (xs : List V) : (numbered c xs).length = xs.length := by
  simp [numbered]

/-- Numbering keeps the elements. -/
@[simp] theorem map_snd_numbered (c : ℕ) (xs : List V) : (numbered c xs).map Prod.snd = xs := by
  rw [numbered, List.map_snd_zip (by simp)]

/-- The numbers are consecutive. -/
@[simp] theorem map_fst_numbered (c : ℕ) (xs : List V) :
    (numbered c xs).map Prod.fst = List.range' c xs.length := by
  rw [numbered, List.map_fst_zip (by simp)]

@[simp] theorem numbered_nil (c : ℕ) : numbered c ([] : List V) = [] := rfl

/-- The first element gets the first number. -/
theorem numbered_cons (c : ℕ) (x : V) (xs : List V) :
    numbered c (x :: xs) = (c, x) :: numbered (c + 1) xs := by
  simp [numbered, List.range'_succ]

/-- A grown capacity is larger. -/
theorem lt_grown (c : ℕ) : c < grown c := by
  unfold grown defReserve
  split_ifs <;> omega

/-- The growth rule is exact as long as its result is in range. -/
theorem growth_eq {c : ℕ} (h : grown c < 2 ^ 32) : growth c = grown c := by
  unfold grown at h
  unfold growth grown
  by_cases h₀ : 0 < c
  · rw [if_pos h₀] at h ⊢
    rw [if_pos h₀]
    split_ifs at h ⊢ <;> exact u32_of_lt h
  · rw [if_neg h₀, if_neg h₀]

/-- A live entry stands in the list of all. -/
theorem getElem?_of_vec (h : a.vec v = some m) : a.vectors[v]? = some (some m) := by
  simpa [Model.vec, Option.join_eq_some_iff] using h

/-- Putting back what is there changes nothing. -/
theorem put_self (h : a.vec v = some m) : a.put v m 0 [] = a := by
  obtain ⟨hlt, he⟩ := List.getElem?_eq_some_iff.mp (getElem?_of_vec h)
  have hset : a.vectors.set v (some m) = a.vectors := by rw [← he, List.set_getElem_self]
  simp [Model.put, hset]

/-- A refused growth changes nothing. -/
theorem step_of_refused (h : a.Refused op) : a.step op = a := by
  cases op with
  | pushBack v x ok | insert v pos x ok =>
    obtain ⟨rfl, m, hm, hle⟩ := h
    simp [Model.step, Model.change, hm, Contents.roomForOne, hle.not_gt, Model.insertAt]
  | insertRange v pos xs ok =>
    obtain rfl : ok = false := h
    cases hm : a.vec v <;> simp [Model.step, Model.change, hm, Contents.roomForRange, Model.insertAt]
  | append v r ok =>
    obtain ⟨rfl, m, m', hm, hm', hlt⟩ := h
    simp [Model.step, Model.change, hm, hm', Contents.roomFor, hlt.not_ge, Model.insertAt]
  | reserve v n ok =>
    obtain ⟨rfl, m, hm, hlt⟩ := h
    simpa [Model.step, Model.change, hm, Contents.roomFor, hlt.not_ge] using put_self hm
  | _ => exact h.elim

end Lists

section Accounting

variable {a : Model V} {m m' : Contents V} {v r i made : ℕ} {ended : List ℕ} {op : Op V}

@[simp] theorem idsOf_some (m : Contents V) : Contents.idsOf (some m) = m.ids := rfl

@[simp] theorem idsOf_none : Contents.idsOf (none : Option (Contents V)) = [] := rfl

/-- Every element constructed is in one vector or was destroyed, and never twice. -/
def Accounted (a : Model V) : Prop :=
  (a.present ++ a.destroyed).Perm (List.range a.constructed)

/-- Every element is in a vector or destroyed, that is, each number is counted once. -/
theorem accounted_iff :
    Accounted a ↔ ∀ i, a.present.count i + a.destroyed.count i =
      (List.range a.constructed).count i := by
  simp [Accounted, List.perm_iff_count]

/-- What is in a list of vectors after one of them changed. -/
theorem count_flatMap_set {β : Type*} {f : β → List ℕ} {xs : List β} {x : β} (y : β)
    (h : xs[v]? = some x) (i : ℕ) :
    ((xs.set v y).flatMap f).count i + (f x).count i = (xs.flatMap f).count i + (f y).count i := by
  induction xs generalizing v with
  | nil => simp at h
  | cons z xs ih =>
    cases v with
    | zero =>
      obtain rfl : z = x := by simpa using h
      simp only [List.set_cons_zero, List.flatMap_cons, List.count_append]
      omega
    | succ v =>
      have hrest := ih (v := v) (by simpa using h)
      simp only [List.set_cons_succ, List.flatMap_cons, List.count_append]
      omega

/-- More numbers are added behind the others. -/
theorem count_range_add (c n i : ℕ) :
    (List.range (c + n)).count i = (List.range c).count i + (List.range' c n).count i := by
  have happ : List.range' 0 c ++ List.range' c n = List.range' 0 (c + n) := by
    simpa using List.range'_append_1 (s := 0) (m := c) (n := n)
  rw [List.range_eq_range', List.range_eq_range', ← List.count_append, happ]

/-- A vector changes by the elements made and ended. -/
theorem Accounted.put (h : Accounted a) (hm : a.vec v = some m)
    (hp : ∀ i, m'.ids.count i + ended.count i =
      m.ids.count i + (List.range' a.constructed made).count i) :
    Accounted (a.put v m' made ended) := by
  rw [accounted_iff] at h ⊢
  intro i
  have hset := count_flatMap_set (f := Contents.idsOf) (some m') (getElem?_of_vec hm) i
  have hi := h i
  have hpi := hp i
  rw [idsOf_some, idsOf_some] at hset
  simp only [Model.put, Model.present, List.count_append, count_range_add] at hi ⊢
  omega

/-- A vector gives up its elements. -/
theorem Accounted.drop (h : Accounted a) (hm : a.vec v = some m)
    (hp : ∀ i, ended.count i = m.ids.count i) :
    Accounted ⟨a.vectors.set v none, a.constructed, a.destroyed ++ ended⟩ := by
  rw [accounted_iff] at h ⊢
  intro i
  have hset := count_flatMap_set (f := Contents.idsOf) none (getElem?_of_vec hm) i
  rw [idsOf_some, idsOf_none, List.count_nil] at hset
  have hi := h i
  have hpi := hp i
  simp only [Model.present, List.count_append] at hi ⊢
  omega

/-- A new vector has new elements. -/
theorem Accounted.add (h : Accounted a) (hp : m.ids = List.range' a.constructed made) :
    Accounted (a.add m made) := by
  rw [accounted_iff] at h ⊢
  intro i
  have hi := h i
  simp only [Model.add, Model.present, List.flatMap_append, List.flatMap_singleton, idsOf_some, hp,
    List.count_append, count_range_add] at hi ⊢
  omega

/-- Vectors change places. -/
theorem Accounted.move {xs : List (Option (Contents V))} (h : Accounted a)
    (hp : ∀ i, (xs.flatMap Contents.idsOf).count i = a.present.count i) :
    Accounted { a with vectors := xs } := by
  rw [accounted_iff] at h ⊢
  intro i
  rw [← h i, ← hp i]
  rfl

/-- A new vector that takes the elements of another one has them instead of it. -/
theorem count_present_taken (hm : a.vec r = some m) (i : ℕ) :
    ((a.vectors.set r (some Contents.empty) ++ [some m]).flatMap Contents.idsOf).count i =
      a.present.count i := by
  have hset := count_flatMap_set (f := Contents.idsOf) (some Contents.empty) (getElem?_of_vec hm) i
  have hempty : (Contents.empty : Contents V).ids.count i = 0 := rfl
  simp only [idsOf_some] at hset
  simp only [List.flatMap_append, List.flatMap_singleton, idsOf_some, List.count_append,
    Model.present]
  omega

/-- Two vectors that exchange their elements have the same ones together. -/
theorem count_present_swapped (hm : a.vec v = some m) (hm' : a.vec r = some m') (hne : v ≠ r)
    (i : ℕ) :
    (((a.vectors.set v (some m')).set r (some m)).flatMap Contents.idsOf).count i =
      a.present.count i := by
  have hget : (a.vectors.set v (some m'))[r]? = some (some m') := by
    rw [List.getElem?_set_ne hne, getElem?_of_vec hm']
  have h₁ := count_flatMap_set (f := Contents.idsOf) (some m') (getElem?_of_vec hm) i
  have h₂ := count_flatMap_set (f := Contents.idsOf) (some m) hget i
  simp only [idsOf_some] at h₁ h₂
  simp only [Model.present]
  omega

/-- An insertion numbers its elements anew. -/
theorem Accounted.insertAt {pos : ℕ} {xs : List V} {cap : Option ℕ} (h : Accounted a)
    (hm : a.vec v = some m) : Accounted (a.insertAt v pos xs m cap) := by
  cases cap with
  | none => exact h
  | some c =>
    refine h.put hm fun i => ?_
    have hsplit := congrArg (List.count i) (List.take_append_drop pos m.ids)
    simp only [Contents.ids, List.map_append, map_fst_numbered, List.map_take, List.map_drop,
      List.count_append, List.count_nil] at hsplit ⊢
    omega

/-- An element that is taken out is one less. -/
theorem count_eraseIdx (xs : List ℕ) (k i : ℕ) :
    (xs.eraseIdx k).count i + xs[k]?.toList.count i = xs.count i := by
  induction xs generalizing k with
  | nil => simp
  | cons x xs ih =>
    cases k with
    | zero =>
      simp only [List.eraseIdx_cons_zero, List.getElem?_cons_zero, Option.toList_some,
        List.count_cons, List.count_nil]
      omega
    | succ k =>
      have hrest := ih k
      simp only [List.eraseIdx_cons_succ, List.getElem?_cons_succ, List.count_cons]
      omega

/-- Erasing an element destroys it. -/
theorem Accounted.eraseAt {pos : ℕ} (h : Accounted a) (hm : a.vec v = some m) :
    Accounted (a.eraseAt v pos m) := by
  refine h.put hm fun i => ?_
  simp only [Contents.ids, List.range'_zero, List.count_nil, Nat.add_zero, ← List.eraseIdx_map]
  exact count_eraseIdx _ pos i

/-- The elements of a copy have new numbers. -/
theorem ids_copyOf (ok : Bool) (m : Contents V) (a : Model V) :
    (a.copyOf ok m).1.ids = List.range' a.constructed (a.copyOf ok m).2 := by
  unfold Model.copyOf
  split
  · simp [Contents.ids, Contents.values]
  · rfl

/-- Before the first call there are no elements. -/
theorem accounted_empty : Accounted (Model.empty : Model V) := List.Perm.refl _

/-- Every operation accounts for the elements. -/
theorem step_accounted (h : Accounted a) (op : Op V) : Accounted (a.step op) := by
  have hlive : ∀ v (f : Contents V → Model V), (∀ m, a.vec v = some m → Accounted (f m)) →
      Accounted (a.change v f) := by
    intro v f hf
    cases hm : a.vec v with
    | none => simpa [Model.change, hm] using h
    | some m => simpa [Model.change, hm] using hf m hm
  cases op with
  | construct n ok => exact h.add rfl
  | constructList xs ok =>
    rw [Model.step]
    cases (Contents.empty : Contents V).roomForRange ok xs.length with
    | none => exact h.add rfl
    | some c => exact h.add (by simp [Contents.ids])
  | copyConstruct r ok => exact hlive r _ fun m _ => h.add (ids_copyOf ok m a)
  | moveConstruct r =>
    refine hlive r _ fun m hm => h.move fun i => ?_
    have hlt := (List.getElem?_eq_some_iff.mp (getElem?_of_vec hm)).1
    rw [List.set_append_left _ _ hlt]
    exact count_present_taken hm i
  | destroy v => exact hlive v _ fun m hm => h.drop hm fun i => List.count_reverse
  | copyAssign v r ok =>
    refine hlive v _ fun old hold => hlive r _ fun m _ => h.put hold fun i => ?_
    rw [ids_copyOf, List.count_reverse]
    omega
  | swap v r =>
    refine hlive v _ fun m hm => hlive r _ fun m' hm' => ?_
    split
    · exact h
    · next hne => exact h.move (count_present_swapped hm hm' hne)
  | pushBack v x ok => exact hlive v _ fun m hm => h.insertAt hm
  | popBack v => exact hlive v _ fun m hm => h.eraseAt hm
  | insert v pos x ok => exact hlive v _ fun m hm => h.insertAt hm
  | insertRange v pos xs ok => exact hlive v _ fun m hm => h.insertAt hm
  | append v r ok => exact hlive v _ fun m hm => hlive r _ fun m' _ => h.insertAt hm
  | erase v pos => exact hlive v _ fun m hm => h.eraseAt hm
  | reserve v n ok => exact hlive v _ fun m hm => h.put hm fun i => rfl
  | clear v =>
    refine hlive v _ fun m hm => h.put hm fun i => ?_
    simp [Contents.ids]
  | iterate v => exact h

end Accounting

section Representation

variable {w v i : ℕ} {s : State V} {a : Model V} {h h' : Heap V} {t t' : Pool (ℕ × V)}
  {x x' : Vec} {m m' : Contents V} {made : ℕ} {ended : List ℕ}

/-- The buffer of a vector holds the elements and has room for its capacity. -/
structure Stores (w : ℕ) (t : Pool (ℕ × V)) (x : Vec) (m : Contents V) : Prop where
  size : x.size = m.elems.length
  capacity : x.capacity = m.capacity
  le : m.elems.length ≤ m.capacity
  bytes : m.capacity * w < 2 ^ 32
  buffer : x.data = none ∧ m.capacity = 0 ∨ ∃ p b, x.data = some p ∧ t.block p = some b ∧
    b.bytes = m.capacity * w ∧ b.Holds 0 m.elems

/-- A vector stores what its model holds; a destroyed one has no model. -/
def Matches (w : ℕ) (t : Pool (ℕ × V)) : Option Vec → Option (Contents V) → Prop
  | some x, some m => Stores w t x m
  | none, none => True
  | _, _ => False

/-- The buffers of the vectors. -/
def buffers (xs : List (Option Vec)) : List (Option ℕ) := xs.map fun o => o.bind Vec.data

/-- All vectors match their models and own the blocks of the pool. -/
structure Represents (w : ℕ) (s : State V) (a : Model V) : Prop where
  length : s.vectors.length = a.vectors.length
  stores : ∀ i, Matches w s.heap.pool (s.vec i) (a.vec i)
  owned : Owned s.heap.pool (buffers s.vectors)
  constructed : s.heap.constructed = a.constructed
  destroyed : s.heap.destroyed = a.destroyed

/-- An operation on one vector: what it stores afterwards, the elements made
and ended, and that no other block than its buffer changed. -/
structure Performs (w : ℕ) (h h' : Heap V) (x x' : Vec) (m' : Contents V) (made : ℕ)
    (ended : List ℕ) : Prop where
  stores : Stores w h'.pool x' m'
  replaces : Replaces h.pool h'.pool x.data x'.data
  constructed : h'.constructed = h.constructed + made
  destroyed : h'.destroyed = h.destroyed ++ ended

/-- Only the block of its buffer matters to a vector. -/
theorem Stores.congr (hs : Stores w t x m) (hb : ∀ p, x.data = some p → t'.block p = t.block p) :
    Stores w t' x m := by
  refine ⟨hs.size, hs.capacity, hs.le, hs.bytes, ?_⟩
  rcases hs.buffer with hn | ⟨p, b, hp, hbl, hrest⟩
  · exact .inl hn
  · exact .inr ⟨p, b, hp, (hb p hp).trans hbl, hrest⟩

/-- The buffer of a vector is allocated. -/
theorem Stores.live (hs : Stores w t x m) : ∀ p, x.data = some p → (t.block p).isSome := by
  rintro p hp
  rcases hs.buffer with ⟨hn, -⟩ | ⟨q, b, hq, hb, -⟩
  · simp [hp] at hn
  · obtain rfl : q = p := Option.some.inj (hq.symm.trans hp)
    simp [hb]

/-- A vector without a buffer is empty. -/
theorem stores_empty : Stores w t ⟨none, 0, 0⟩ (Contents.empty : Contents V) :=
  ⟨rfl, rfl, le_rfl, by simp [Contents.empty], .inl ⟨rfl, rfl⟩⟩

/-- The vector under a number. -/
theorem vectors_of_vec (hx : s.vec v = some x) : s.vectors[v]? = some (some x) := by
  simpa [State.vec, Option.join_eq_some_iff] using hx

/-- A vector that exists has a place in the list. -/
theorem lt_of_vec (hx : s.vec v = some x) : v < s.vectors.length :=
  (List.getElem?_eq_some_iff.mp (vectors_of_vec hx)).1

/-- Setting a vector to what it is changes nothing. -/
theorem state_put_self (hx : s.vec v = some x) :
    (⟨s.heap, s.vectors.set v (some x)⟩ : State V) = s := by
  obtain ⟨hlt, he⟩ := List.getElem?_eq_some_iff.mp (vectors_of_vec hx)
  rw [← he, List.set_getElem_self]

/-- The buffer of a vector is at its place in the list. -/
theorem getElem?_buffers (hx : s.vec v = some x) : (buffers s.vectors)[v]? = some x.data := by
  simp [buffers, vectors_of_vec hx]

/-- A vector of the model is one of the state. -/
theorem Represents.exists_vec (hr : Represents w s a) (hm : a.vec v = some m) :
    ∃ x, s.vec v = some x ∧ Stores w s.heap.pool x m := by
  have hst := hr.stores v
  rw [hm] at hst
  cases hx : s.vec v with
  | none => simp [hx, Matches] at hst
  | some x => exact ⟨x, rfl, by simpa [hx, Matches] using hst⟩

/-- The entries after one was replaced. -/
theorem join_set {β : Type*} {xs : List (Option β)} (hv : v < xs.length) (o : Option β) (i : ℕ) :
    ((xs.set v o)[i]?).join = if i = v then o else (xs[i]?).join := by
  rw [List.getElem?_set]
  by_cases hi : v = i
  · simp [hi, hi ▸ hv]
  · simp [hi, Ne.symm hi]

/-- The entries after one was added. -/
theorem join_append {β : Type*} (xs : List (Option β)) (o : Option β) (i : ℕ) :
    ((xs ++ [o])[i]?).join = if i = xs.length then o else (xs[i]?).join := by
  rcases Nat.lt_trichotomy i xs.length with hlt | rfl | hgt
  · rw [List.getElem?_append_left hlt, if_neg hlt.ne]
  · simp
  · rw [List.getElem?_append_right hgt.le, if_neg hgt.ne', List.getElem?_eq_none hgt.le,
      List.getElem?_eq_none (by simp only [List.length_singleton]; omega)]

/-- The entries after one was taken over behind the last. -/
theorem join_taken {β : Type*} {xs : List (Option β)} (hv : v < xs.length) (o e : Option β) (i : ℕ) :
    (((xs ++ [o]).set v e)[i]?).join =
      if i = v then e else if i = xs.length then o else (xs[i]?).join := by
  rw [join_set (by rw [List.length_append]; omega), join_append]

/-- The entries after two were replaced. -/
theorem join_set_set {β : Type*} {xs : List (Option β)} {r : ℕ} (hv : v < xs.length)
    (hr : r < xs.length) (o e : Option β) (i : ℕ) :
    (((xs.set v o).set r e)[i]?).join =
      if i = r then e else if i = v then o else (xs[i]?).join := by
  rw [join_set (by rwa [List.length_set]), join_set hv]

/-- A buffer that is taken over is counted under another number. -/
theorem count_buffers_taken (hx : s.vec v = some x) (p : ℕ) :
    (buffers ((s.vectors ++ [some x]).set v (some ⟨none, 0, 0⟩))).count (some p) =
      (buffers s.vectors).count (some p) := by
  have hget : (buffers s.vectors ++ [x.data])[v]? = some x.data := by
    rw [List.getElem?_append_left (by simpa [buffers] using lt_of_vec hx), getElem?_buffers hx]
  have hset := count_set hget none p
  have hb : buffers ((s.vectors ++ [some x]).set v (some ⟨none, 0, 0⟩)) =
      (buffers s.vectors ++ [x.data]).set v none := by
    simp [buffers, List.map_set]
  rw [hb]
  simp only [List.count_append, List.count_singleton, beq_iff_eq, reduceCtorEq, if_false] at hset
  omega

/-- So are two buffers that are exchanged. -/
theorem count_buffers_swapped {r : ℕ} {y : Vec} (hx : s.vec v = some x) (hy : s.vec r = some y)
    (hne : v ≠ r) (p : ℕ) :
    (buffers ((s.vectors.set v (some y)).set r (some x))).count (some p) =
      (buffers s.vectors).count (some p) := by
  have hget : ((buffers s.vectors).set v y.data)[r]? = some y.data := by
    rw [List.getElem?_set_ne hne, getElem?_buffers hy]
  have h₁ := count_set (getElem?_buffers hx) y.data p
  have h₂ := count_set hget x.data p
  have hb : buffers ((s.vectors.set v (some y)).set r (some x)) =
      ((buffers s.vectors).set v y.data).set r x.data := by
    simp [buffers, List.map_set]
  rw [hb]
  omega

/-- A vector matches in a pool that has its block. -/
theorem Matches.congr {o : Option Vec} {om : Option (Contents V)} (hs : Matches w t o om)
    (hb : ∀ p, o.bind Vec.data = some p → t'.block p = t.block p) : Matches w t' o om := by
  cases o with
  | none => cases om <;> exact hs
  | some x =>
    cases om with
    | none => exact hs
    | some m => exact Stores.congr hs hb

/-- A buffer in the list belongs to the vector at its place. -/
theorem buffers_of_join {p : ℕ} (hi : (s.vec i).bind Vec.data = some p) :
    (buffers s.vectors)[i]? = some (some p) := by
  obtain ⟨x, hx, hp⟩ := Option.bind_eq_some_iff.mp hi
  rw [getElem?_buffers hx, hp]

/-- One entry changes together with its block. -/
theorem Represents.set (hr : Represents w s a) (o : Option Vec) (om : Option (Contents V))
    (hx : s.vec v = some x) (ht : Replaces s.heap.pool h'.pool x.data (o.bind Vec.data))
    (hmatch : Matches w h'.pool o om) :
    Represents w ⟨h', s.vectors.set v o⟩ ⟨a.vectors.set v om, h'.constructed, h'.destroyed⟩ := by
  have hv := lt_of_vec hx
  refine ⟨by simp [hr.length], fun i => ?_, ?_, rfl, rfl⟩
  · rw [State.vec, Model.vec, join_set hv, join_set (hr.length ▸ hv)]
    split
    · exact hmatch
    · rename_i hne
      exact (hr.stores i).congr fun p hp =>
        hr.owned.frame (getElem?_buffers hx) ht (buffers_of_join hp) hne
  · have hb : buffers (s.vectors.set v o) = (buffers s.vectors).set v (o.bind Vec.data) :=
      List.map_set
    rw [hb]
    exact hr.owned.set (getElem?_buffers hx) ht

/-- A vector that performs what its model does represents it. -/
theorem Represents.put (hr : Represents w s a) (hx : s.vec v = some x)
    (hp : Performs w s.heap h' x x' m' made ended) :
    Represents w ⟨h', s.vectors.set v (some x')⟩ (a.put v m' made ended) := by
  have hset := hr.set (some x') (some m') hx hp.replaces hp.stores
  rwa [hp.constructed, hp.destroyed, hr.constructed, hr.destroyed] at hset

/-- A new vector. -/
theorem Represents.add (hr : Represents w s a)
    (hp : Performs w s.heap h' ⟨none, 0, 0⟩ x' m' made []) :
    Represents w ⟨h', s.vectors ++ [some x']⟩ (a.add m' made) := by
  refine ⟨by simp [Model.add, hr.length], fun i => ?_, ?_, ?_, ?_⟩
  · rw [State.vec, Model.vec, Model.add, join_append, join_append, hr.length]
    split
    · exact hp.stores
    · exact (hr.stores i).congr fun p hq => hr.owned.frame_new hp.replaces (buffers_of_join hq)
  · have hb : buffers (s.vectors ++ [some x']) = buffers s.vectors ++ [x'.data] := by
      simp [buffers]
    rw [hb]
    exact hr.owned.snoc hp.replaces
  · rw [hp.constructed, hr.constructed, Model.add]
  · rw [hp.destroyed, hr.destroyed, List.append_nil, Model.add]

/-- Vectors change places and nothing else. -/
theorem Represents.move {xs : List (Option Vec)} {ms : List (Option (Contents V))}
    (hr : Represents w s a) (hlen : xs.length = ms.length)
    (hst : ∀ i : ℕ, Matches w s.heap.pool (xs[i]?).join (ms[i]?).join)
    (hb : ∀ p, (buffers xs).count (some p) = (buffers s.vectors).count (some p)) :
    Represents w ⟨s.heap, xs⟩ { a with vectors := ms } :=
  ⟨hlen, hst, hr.owned.congr hb, hr.constructed, hr.destroyed⟩

/-- Before the first call. -/
theorem represents_empty : Represents w (State.empty : State V) Model.empty :=
  ⟨rfl, fun _ => trivial, owned_empty, rfl, rfl⟩

end Representation

end KernelLib.VectorModel
