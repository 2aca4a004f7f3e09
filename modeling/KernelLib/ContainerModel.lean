import KernelLib.AvlContainer
import KernelLib.OrderedEntries

/-!
# Containers as finite maps

What a map is for: entries sorted by key, each naming its item, with
lookups, insertions that overwrite nothing and removals as on a finite map.
A concrete state represents a model when the nodes of its table point, in
order, at the items of the entries and the counters are exact. Loose
references are those an operation has taken and not yet handed on.
-/

namespace KernelLib.ContainerModel

open AvlRoutines CountedObjects RefHolder AvlContainer OrderedEntries

variable {A : Routines} {K V : Type}

/-- An entry: its item and the key and value in it. -/
abbrev Entry (K V : Type) := ℕ × K × V

/-- The key of an entry. -/
def keyOf (e : Entry K V) : K := e.2.1

/-- A finite map with the holders on its items. -/
structure Model (K V : Type) where
  /-- The entries in order. -/
  entries : List (Entry K V)
  /-- How many items were created. -/
  created : ℕ
  /-- The pointer of each holder; a destroyed holder has none. -/
  holders : List (Option (Option ℕ))

namespace Model

/-- No entries and no holders. -/
def empty : Model K V := ⟨[], 0, []⟩

/-- The items in the table. -/
def present (a : Model K V) : List ℕ := a.entries.map Prod.fst

/-- The references on an item: the table and its holders. -/
def refs (a : Model K V) (i : ℕ) : ℕ := a.present.count i + held a.holders i

/-- The pointer of a live holder. -/
def ptr (a : Model K V) (h : ℕ) : Option (Option ℕ) := (a.holders[h]?).join

/-- A new holder. -/
def newHolder (p : Option ℕ) (a : Model K V) : Model K V :=
  { a with holders := a.holders ++ [some p] }

/-- The entry with a key. -/
def lookup (O : KeyOps K) (k : K) (a : Model K V) : Option (Entry K V) :=
  find O.lt keyOf k a.entries

/-- A new entry for a copy of the key. -/
def add (O : KeyOps K) (k : K) (v : V) (a : Model K V) : Model K V :=
  { a with
    entries := place O.lt keyOf (a.created, O.copy k, v) a.entries
    created := a.created + 1 }

/-- The model after an operation. -/
def step (O : KeyOps K) (a : Model K V) : Op K V → Model K V
  | .insert k v =>
    match a.lookup O k with
    | some e => a.newHolder (some e.1)
    | none => (a.add O k v).newHolder (some a.created)
  | .find k => a.newHolder ((a.lookup O k).map Prod.fst)
  | .remove k =>
    { a with entries := without O.lt keyOf k a.entries }.newHolder ((a.lookup O k).map Prod.fst)
  | .count | .empty => a
  | .iterate keep =>
    { a with holders := a.holders ++ (a.present.filter keep).map fun i => some (some i) }
  | .copyHolder r => a.newHolder ((a.ptr r).getD none)
  | .moveHolder r =>
    { a with holders := (a.holders ++ [some ((a.ptr r).getD none)]).set r (some none) }
  | .assignCopy h r =>
    if h = r then a else { a with holders := a.holders.set h (some ((a.ptr r).getD none)) }
  | .assignMove h r =>
    if h = r then a
    else { a with holders := (a.holders.set h (some ((a.ptr r).getD none))).set r (some none) }
  | .destroyHolder h => { a with holders := a.holders.set h none }

/-- What a lookup finds after an operation on a finite map in which insertion
never overwrites. -/
def lookupAfter (O : KeyOps K) (a : Model K V) (op : Op K V) (k' : K) : Option (Entry K V) :=
  match op with
  | .insert k v =>
    if equiv O.lt k k' then (a.lookup O k').or (some (a.created, O.copy k, v)) else a.lookup O k'
  | .remove k => if equiv O.lt k k' then none else a.lookup O k'
  | _ => a.lookup O k'

/-- What the operation returns. -/
def result (flag : Bool) (O : KeyOps K) (a : Model K V) : Op K V → Ret
  | .insert k _ =>
    match a.lookup O k with
    | some e => .pair (some e.1) false
    | none => .pair (some a.created) true
  | .find k => .pair ((a.lookup O k).map Prod.fst) flag
  | .remove k => .pair ((a.lookup O k).map Prod.fst) (a.lookup O k).isSome
  | .count => .count a.entries.length
  | .empty => .bool (a.entries.length == 0)
  | .iterate _ => .items a.present
  | _ => .void

/-- The holders an operation names exist. -/
def Ready (a : Model K V) : Op K V → Prop
  | .copyHolder r | .moveHolder r | .destroyHolder r => (a.ptr r).isSome
  | .assignCopy h r | .assignMove h r => (a.ptr h).isSome ∧ (a.ptr r).isSome
  | _ => True

/-- No item has more references than a counter can tell. -/
def Within (a : Model K V) : Prop := ∀ i, a.refs i ≤ maxCount

/-- No item gets more references than a counter can tell, that of an iterator
on its way over the entries included. -/
def Fits (O : KeyOps K) (a : Model K V) (op : Op K V) : Prop :=
  (a.step O op).Within ∧
    match op with
    | .iterate _ => ∀ i ∈ a.present, (a.step O op).refs i < maxCount
    | _ => True

end Model

/-- What is asked of a key type. -/
structure KeyLaws (O : KeyOps K) : Prop where
  order : StrictWeak O.lt
  assign_equiv : ∀ k, equiv O.lt (O.assign k) k
  copy_equiv : ∀ k, equiv O.lt (O.copy k) k
  valid : ∀ k, O.valid k

/-- What is asked of a key type some of whose copies are not valid. -/
structure KeyOrder (O : KeyOps K) : Prop where
  order : StrictWeak O.lt
  assign_equiv : ∀ k, equiv O.lt (O.assign k) k
  copy_equiv : ∀ k, equiv O.lt (O.copy k) k

theorem KeyLaws.keyOrder {O : KeyOps K} (h : KeyLaws O) : KeyOrder O :=
  ⟨h.order, h.assign_equiv, h.copy_equiv⟩

/-- The copies that an operation makes of its key are valid. -/
def Accepts (O : KeyOps K) : Op K V → Prop
  | .insert k _ => O.valid (O.assign k) ∧ O.valid (O.copy k)
  | .find k | .remove k => O.valid (O.assign k)
  | _ => True

/-- The copy that an operation looks for is not valid. -/
def Refuses (O : KeyOps K) : Op K V → Prop
  | .insert k _ | .find k | .remove k => ¬O.valid (O.assign k)
  | _ => False

theorem KeyLaws.accepts {O : KeyOps K} (h : KeyLaws O) (op : Op K V) : Accepts O op := by
  cases op with
  | insert k v => exact ⟨h.valid _, h.valid _⟩
  | find k | remove k => exact h.valid _
  | _ => trivial

/-- The operations are those of a finite map. -/
theorem lookup_step {O : KeyOps K} {a : Model K V} (hK : KeyOrder O)
    (hs : Sorted O.lt keyOf a.entries) (op : Op K V) (k' : K) :
    (a.step O op).lookup O k' = a.lookupAfter O op k' := by
  cases op with
  | insert k v =>
    cases hf : a.lookup O k with
    | some e =>
      simp only [Model.step, hf, Model.lookupAfter]
      by_cases hk : equiv O.lt k k'
      · have hf' : a.lookup O k' = some e := (find_congr hK.order hk _).symm.trans hf
        rw [if_pos hk, hf']
        exact hf'
      · rw [if_neg hk]
        rfl
    | none =>
      simp only [Model.step, hf, Model.lookupAfter]
      have hnew : find O.lt keyOf (keyOf (a.created, O.copy k, v)) a.entries = none :=
        (find_congr hK.order (hK.copy_equiv k) _).trans hf
      have hplace := find_place (x := (a.created, O.copy k, v)) hK.order hs hnew k'
      have hcopy : equiv O.lt (O.copy k) k' = equiv O.lt k k' := by
        rw [equiv_comm, hK.order.equiv_congr (hK.copy_equiv k), equiv_comm]
      change find O.lt keyOf k' (place O.lt keyOf (a.created, O.copy k, v) a.entries) = _
      rw [hplace]
      change (if equiv O.lt (O.copy k) k' then _ else _) = _
      rw [hcopy]
      by_cases hk : equiv O.lt k k'
      · have hf' : a.lookup O k' = none := (find_congr hK.order hk _).symm.trans hf
        rw [if_pos hk, if_pos hk, hf', Option.none_or]
      · rw [if_neg hk, if_neg hk]
        rfl
  | remove k => exact find_without hK.order k k' a.entries
  | assignCopy h r | assignMove h r =>
    simp only [Model.step, Model.lookupAfter]
    split <;> rfl
  | _ => rfl

/-- The table's nodes point at the items of the entries in order, every other
node was handed back once, and the counters are exact. -/
structure Represents (O : KeyOps K) (s : State A K V) (a : Model K V) (loose : ℕ → ℕ) : Prop where
  nodes : (A.nodes s.table).map s.memory = a.entries.map fun e => some (.heap e.1)
  nodup : (A.nodes s.table).Nodup
  gone : ∀ n, n ∉ A.nodes s.table → s.memory n = none
  bound : ∀ n ∈ A.nodes s.table, n < s.allocated
  freed_nodup : s.freed.Nodup
  mem_freed : ∀ n, n ∈ s.freed ↔ n < s.allocated ∧ n ∉ A.nodes s.table
  sorted : Sorted O.lt keyOf a.entries
  present : a.present.Nodup
  owned : Owned s.store fun i => a.present.count i + loose i
  holders : s.store.holders = a.holders
  value : ∀ e ∈ a.entries, ∀ c, s.store.objs.cell e.1 = some c → c.value = e.2
  created : s.store.objs.created = a.created

section Moves

variable {O : KeyOps K} {s : State A K V} {a : Model K V} {loose loose' : ℕ → ℕ}
  {p d : Option ℕ} {i n : ℕ} {k temp : K} {e : Entry K V}

theorem Represents.congr (h : Represents O s a loose) (he : ∀ i, loose' i = loose i) :
    Represents O s a loose' := by
  obtain rfl : loose' = loose := funext he
  exact h

/-- The item of an entry is live and holds its key and value. -/
theorem Represents.cell (h : Represents O s a loose) (he : e ∈ a.entries) :
    ∃ c, s.store.objs.cell e.1 = some c ∧ c.value = e.2 := by
  have hpos : 0 < a.present.count e.1 := List.count_pos_iff.mpr (List.mem_map_of_mem he)
  obtain ⟨c, hc, -⟩ := Exact.exists_cell (i := e.1) h.owned (by simp only; omega)
  exact ⟨c, hc, h.value e he c hc⟩

/-- An item without references is in no entry, and neither is one to come. -/
theorem Represents.not_present (h : Represents O s a loose)
    (hi : s.store.objs.cell i = none) : i ∉ a.present := by
  have hz : a.present.count i + loose i + held s.store.holders i = 0 := h.owned.dead i hi
  exact fun hx => absurd (List.count_pos_iff.mpr hx) (by omega)

theorem Represents.created_not_present (h : Represents O s a loose) : a.created ∉ a.present :=
  h.not_present (h.owned.fresh _ h.created.le)

/-- A step on items and holders. -/
theorem Represents.evolve {o : Objects (K × V)} {hs : List (Option (Option ℕ))}
    (h : Represents O s a loose) (hev : Evolves s.store.objs o d)
    (how : Owned ⟨o, hs⟩ fun i => a.present.count i + loose' i) :
    Represents O { s with store := ⟨o, hs⟩ } { a with holders := hs } loose' := by
  refine ⟨h.nodes, h.nodup, h.gone, h.bound, h.freed_nodup, h.mem_freed, h.sorted, h.present, how,
    rfl, ?_, hev.created.trans h.created⟩
  intro e he c hc
  obtain ⟨c', hc', hv⟩ := hev.keeps e.1 c hc
  exact hv.trans (h.value e he c' hc')

/-- A step on items alone. -/
theorem Represents.evolve_objs {o : Objects (K × V)} (h : Represents O s a loose)
    (hev : Evolves s.store.objs o d)
    (how : Owned { s.store with objs := o } fun i => a.present.count i + loose' i) :
    Represents O { s with store := { s.store with objs := o } } a loose' := by
  have ha : ({ a with holders := s.store.holders } : Model K V) = a := by rw [h.holders]
  exact ha ▸ h.evolve hev how

/-- References by the holders of either side. -/
theorem Represents.refs_eq (h : Represents O s a loose) (i : ℕ) :
    a.present.count i + loose i + held s.store.holders i = a.refs i + loose i := by
  rw [h.holders, Model.refs]
  omega

/-- Retaining through a pointer to a referenced item. -/
theorem Represents.retain (h : Represents O s a loose)
    (hp : ∀ i, p = some i → 0 < a.refs i + loose i) :
    ∃ s', s.retain p = some s' ∧ Represents O s' a (fun i => loose i + points p i) ∧
      s'.table = s.table ∧ s'.memory = s.memory := by
  obtain ⟨o, hr, hev, how⟩ := retainPtr_spec (p := p) h.owned fun i hi => by
    rw [h.refs_eq]
    exact hp i hi
  exact ⟨_, by simp only [State.retain, hr, Option.map_some],
    h.evolve_objs hev (how.congr fun i => by ring), rfl, rfl⟩

/-- Releasing a loose reference. -/
theorem Represents.release (h : Represents O s a fun i => loose i + points p i)
    (hm : ∀ i, p = some i → a.refs i + loose i ≤ maxCount) :
    ∃ s', s.release p = some s' ∧ Represents O s' a loose ∧
      s'.table = s.table ∧ s'.memory = s.memory := by
  have how : Owned s.store fun i => a.present.count i + loose i + points p i :=
    h.owned.congr fun i => by ring
  obtain ⟨o, hr, hev, how'⟩ := releasePtr_spec how fun i hi => by
    have hle := hm i hi
    rw [Model.refs] at hle
    rw [h.holders]
    omega
  exact ⟨_, by simp only [State.release, hr, Option.map_some], h.evolve_objs hev how', rfl, rfl⟩

/-- A new holder for a referenced item. -/
theorem Represents.construct (h : Represents O s a loose)
    (hp : ∀ i, p = some i → 0 < a.refs i + loose i) :
    ∃ st, s.store.construct p = some st ∧
      Represents O { s with store := st } (a.newHolder p) loose := by
  obtain ⟨o, hc, hev, how⟩ := construct_spec (p := p) h.owned fun i hi => by
    rw [h.refs_eq]
    exact hp i hi
  have hrep := h.evolve hev how
  rw [h.holders] at hrep
  exact ⟨_, hc, h.holders ▸ hrep⟩

/-- A new holder for a referenced item, returned with a flag. -/
theorem Represents.returnPair (h : Represents O s a loose) (second : Bool)
    (hp : ∀ i, p = some i → 0 < a.refs i + loose i) :
    ∃ s', s.returnPair p second = some (s', .pair p second) ∧
      Represents O s' (a.newHolder p) loose ∧ s'.table = s.table ∧ s'.memory = s.memory := by
  obtain ⟨st, hst, hrep⟩ := h.construct hp
  exact ⟨_, by simp only [State.returnPair, hst, Option.map_some], hrep, rfl, rfl⟩

end Moves

end KernelLib.ContainerModel
