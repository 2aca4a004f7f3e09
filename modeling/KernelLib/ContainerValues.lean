import KernelLib.AvlContainer

/-!
# Containers do not look at values

A container stores, returns and drops values without reading them, so every
operation commutes with a change of all values. The change leaves the table,
the nodes, the names of the items, their keys and the holders as they are.
Forgetting the values is the case that turns a map into a set.
-/

namespace KernelLib.ContainerValues

open AvlRoutines CountedObjects RefHolder AvlContainer

variable {V W : Type}

/-- What holds of a computation and its image holds of what follows it. -/
theorem bind_image {α β γ δ : Type} {x : Option α} {y : Option β} {f : α → β} {g : γ → δ}
    {k : α → Option γ} {l : β → Option δ} (hx : y = x.map f) (hk : ∀ a, l (f a) = (k a).map g) :
    y.bind l = (x.bind k).map g := by
  subst hx
  cases x with
  | none => rfl
  | some a => exact hk a

/-- The same, after a computation that both make. -/
theorem bind_same {α γ δ : Type} {x : Option α} {g : γ → δ} {k : α → Option γ}
    {l : α → Option δ} (hk : ∀ a, l a = (k a).map g) : x.bind l = (x.bind k).map g :=
  bind_image Option.map_id_apply.symm hk

section Objects

/-- Change the payload of an object. -/
def mapCell (f : V → W) (c : Cell V) : Cell W := ⟨c.pn, f c.value⟩

/-- Change the payload of every object. -/
def mapObjects (f : V → W) (o : Objects V) : Objects W :=
  ⟨fun i => (o.cell i).map (mapCell f), o.created, o.deleted⟩

variable (f : V → W) (o : Objects V) (i : ℕ)

/-- Replacing the values creates no objects. -/
@[simp] theorem mapObjects_created : (mapObjects f o).created = o.created := rfl

/-- The cells have the new values. -/
@[simp] theorem mapObjects_cell : (mapObjects f o).cell i = (o.cell i).map (mapCell f) := rfl

/-- Setting a cell and replacing the values can be swapped. -/
theorem mapObjects_set (c : Option (Cell V)) :
    mapObjects f (o.set i c) = (mapObjects f o).set i (c.map (mapCell f)) := by
  simp only [mapObjects, Objects.set, Objects.mk.injEq, and_true]
  funext j
  by_cases hj : j = i
  · subst hj
    simp
  · simp [Function.update_of_ne hj]

/-- So can deleting an object. -/
theorem mapObjects_delete : mapObjects f (o.delete i) = (mapObjects f o).delete i := by
  have hset := mapObjects_set f o i none
  simp only [mapObjects, Objects.delete, Objects.set, Objects.mk.injEq, and_true,
    Option.map_none] at hset ⊢
  exact hset

/-- An object is created with the new value. -/
theorem mapObjects_create (v : V) :
    mapObjects f (o.create v) = (mapObjects f o).create (f v) := by
  have hset := mapObjects_set f o o.created (some ⟨1, v⟩)
  simp only [mapObjects, mapCell, Objects.create, Objects.set, Objects.mk.injEq, and_true,
    Option.map_some] at hset ⊢
  exact hset

/-- A reference counts as before. -/
theorem retain_mapObjects :
    (mapObjects f o).retain i = (o.retain i).map (mapObjects f) := by
  simp only [Objects.retain, mapObjects_cell, Option.map_map]
  congr 1
  funext c
  simp [mapObjects_set, mapCell]

/-- So does one that is given up. -/
theorem release_mapObjects :
    (mapObjects f o).release i = (o.release i).map (Prod.map (mapObjects f) id) := by
  simp only [Objects.release, mapObjects_cell, Option.map_map]
  congr 1
  funext c
  by_cases hr : wrap32 (c.pn - 1) < 1
  · simp [mapCell, hr, mapObjects_delete]
  · simp [mapCell, hr, mapObjects_set]

/-- Copying a pointer does not look at the values. -/
theorem retainPtr_mapObjects (p : Option ℕ) :
    retainPtr p (mapObjects f o) = (retainPtr p o).map (mapObjects f) := by
  cases p with
  | none => rfl
  | some i => exact retain_mapObjects f o i

/-- Nor does destroying one. -/
theorem releasePtr_mapObjects (p : Option ℕ) :
    releasePtr p (mapObjects f o) = (releasePtr p o).map (Prod.map (mapObjects f) id) := by
  cases p with
  | none => rfl
  | some i =>
    simp only [releasePtr, release_mapObjects, Option.map_map]
    rfl

end Objects

section Holders

/-- Change the payload of every item; holders stay as they are. -/
def mapStore (f : V → W) (st : Store V) : Store W := ⟨mapObjects f st.objs, st.holders⟩

variable (f : V → W) (st : Store V) (h r : ℕ)

/-- The handles point to the same objects. -/
@[simp] theorem mapStore_ptr : (mapStore f st).ptr h = st.ptr h := rfl

/-- The objects have the new values. -/
@[simp] theorem mapStore_objs : (mapStore f st).objs = mapObjects f st.objs := rfl

/-- Constructing a handle does not look at the values. -/
theorem construct_mapStore (p : Option ℕ) :
    (mapStore f st).construct p = (st.construct p).map (mapStore f) :=
  bind_image (retainPtr_mapObjects f st.objs p) fun _ => rfl

/-- Nor does copying one. -/
theorem copyConstruct_mapStore :
    (mapStore f st).copyConstruct r = (st.copyConstruct r).map (mapStore f) :=
  bind_same fun p => construct_mapStore f st p

/-- Nor does moving one. -/
theorem moveConstruct_mapStore :
    (mapStore f st).moveConstruct r = (st.moveConstruct r).map (mapStore f) :=
  bind_same fun _ => rfl

/-- An assignment does not look at the values. -/
theorem copyAssign_mapStore :
    (mapStore f st).copyAssign h r = (st.copyAssign h r).map (Prod.map (mapStore f) id) := by
  refine bind_same fun own => bind_same fun p => ?_
  by_cases hr : h = r
  · simp [hr]
  · simp only [hr, if_false]
    exact bind_image (releasePtr_mapObjects f st.objs own) fun x =>
      bind_image (retainPtr_mapObjects f x.1 p) fun _ => rfl

/-- Nor does one that moves. -/
theorem moveAssign_mapStore :
    (mapStore f st).moveAssign h r = (st.moveAssign h r).map (Prod.map (mapStore f) id) := by
  refine bind_same fun own => bind_same fun p => ?_
  by_cases hr : h = r
  · simp [hr]
  · simp only [hr, if_false]
    exact bind_image (releasePtr_mapObjects f st.objs own) fun _ => rfl

/-- Destroying a handle does not look at the values. -/
theorem destroy_mapStore :
    (mapStore f st).destroy h = (st.destroy h).map (Prod.map (mapStore f) id) :=
  bind_same fun p => bind_image (releasePtr_mapObjects f st.objs p) fun _ => rfl

end Holders

section Containers

variable {A : Routines} {K : Type}

/-- Change the value of every item. -/
def mapValues (f : V → W) (s : State A K V) : State A K W :=
  { table := s.table, memory := s.memory, allocated := s.allocated, freed := s.freed,
    store := mapStore (Prod.map id f) s.store }

/-- Change the value that an operation inserts. -/
def mapOp (f : V → W) : Op K V → Op K W
  | .insert k v => .insert k (f v)
  | .find k => .find k
  | .remove k => .remove k
  | .count => .count
  | .empty => .empty
  | .iterate keep => .iterate keep
  | .copyHolder r => .copyHolder r
  | .moveHolder r => .moveHolder r
  | .assignCopy h r => .assignCopy h r
  | .assignMove h r => .assignMove h r
  | .destroyHolder h => .destroyHolder h

variable (f : V → W) (O : KeyOps K) (s : State A K V) (temp : Option K)

@[simp] theorem mapValues_table : (mapValues f s).table = s.table := rfl

@[simp] theorem mapValues_memory : (mapValues f s).memory = s.memory := rfl

@[simp] theorem mapValues_store :
    (mapValues f s).store = mapStore (Prod.map id f) s.store := rfl

/-- Every pointer leads to the same key. -/
@[simp] theorem keyAt_mapValues (p : Ptr) : (mapValues f s).keyAt temp p = s.keyAt temp p := by
  cases p with
  | null => rfl
  | stack => rfl
  | heap i =>
    simp only [State.keyAt, mapValues_store, mapStore_objs, mapObjects_cell, Option.map_map]
    rfl

/-- The comparison looks at the keys only. -/
@[simp] theorem compareItems_mapValues (first : Ptr) :
    compareItems O temp first (mapValues f s) = compareItems O temp first s := by
  funext n
  simp [compareItems]

/-- The item of a node is the same. -/
@[simp] theorem itemOf_mapValues (result : Option ℕ) :
    (mapValues f s).itemOf result = s.itemOf result := rfl

@[simp] theorem count_mapValues : count (mapValues f s) = count s := rfl

/-- Deleting by a key does not look at the values. -/
theorem delete_mapValues (first : Ptr) :
    (mapValues f s).delete O temp first =
      (s.delete O temp first).map (Prod.map (mapValues f) id) := by
  simp only [State.delete, compareItems_mapValues, mapValues_table, Option.map_map]
  congr 1
  funext ⟨t, n⟩
  cases n with
  | none => rfl
  | some n => rfl

/-- A handle is given up as before. -/
theorem release_mapValues (p : Option ℕ) :
    (mapValues f s).release p = (s.release p).map (mapValues f) := by
  simp only [State.release, mapValues_store, mapStore_objs, releasePtr_mapObjects,
    Option.map_map]
  rfl

/-- A handle is copied as before. -/
theorem retain_mapValues (p : Option ℕ) :
    (mapValues f s).retain p = (s.retain p).map (mapValues f) := by
  simp only [State.retain, mapValues_store, mapStore_objs, retainPtr_mapObjects,
    Option.map_map]
  rfl

/-- A pair is returned as before. -/
theorem returnPair_mapValues (p : Option ℕ) (second : Bool) :
    (mapValues f s).returnPair p second =
      (s.returnPair p second).map (Prod.map (mapValues f) id) := by
  simp only [State.returnPair, mapValues_store, construct_mapStore, Option.map_map]
  rfl

/-- `find` finds the same item. -/
theorem find_mapValues (flag : Bool) (k : K) :
    find flag O k (mapValues f s) = (find flag O k s).map (Prod.map (mapValues f) id) := by
  by_cases hv : O.valid (O.assign k) = true
  · simp only [find, hv, Bool.not_true, Bool.false_eq_true, if_false, compareItems_mapValues,
      mapValues_table, itemOf_mapValues]
    exact bind_same fun result => bind_same fun item => returnPair_mapValues f s item flag
  · simp only [find, hv, Bool.not_false, if_true]
    exact returnPair_mapValues f s none false

/-- `remove` removes the same item. -/
theorem remove_mapValues (k : K) :
    remove O k (mapValues f s) = (remove O k s).map (Prod.map (mapValues f) id) := by
  by_cases hv : O.valid (O.assign k) = true
  · simp only [remove, hv, Bool.not_true, Bool.false_eq_true, if_false, compareItems_mapValues,
      mapValues_table, itemOf_mapValues]
    refine bind_same fun result => bind_same fun item => ?_
    cases result with
    | none => exact returnPair_mapValues f s item false
    | some n =>
      refine bind_image (returnPair_mapValues f s item false) fun x => ?_
      refine bind_image (delete_mapValues f O x.1 _ .stack) fun y => ?_
      cases hok : y.2 with
      | false => simp [Prod.map, hok]
      | true => 
        simp only [Prod.map, hok, id_eq, if_true]
        exact bind_image (release_mapValues f y.1 item) fun _ => rfl
  · simp only [remove, hv, Bool.not_false, if_true]
    exact returnPair_mapValues f s none false

/-- A new node is filled with the new value. -/
theorem fillNode_mapValues (alloc : Allocation) (k : K) (v : V) (n : ℕ) :
    fillNode O alloc k (f v) n (mapValues f s) =
      (fillNode O alloc k v n s).map (Prod.map (mapValues f) id) := by
  simp only [fillNode]
  by_cases ha : alloc.item = true
  · let t : State A K V :=
      { s with store := { s.store with objs := s.store.objs.create (O.copy k, v) } }.write n
        (.heap s.store.objs.created)
    have ht : ({ mapValues f s with store := { (mapValues f s).store with
        objs := (mapValues f s).store.objs.create (O.copy k, f v) } } : State A K W).write n
          (.heap (mapValues f s).store.objs.created) = mapValues f t := by
      simp only [t, State.write, mapValues, mapStore, mapObjects_create, mapObjects_created]
      rfl
    simp only [ha, if_true, ht]
    by_cases hv : O.valid (O.copy k) = true
    · simp only [hv, if_true]
      exact returnPair_mapValues f t _ true
    · simp only [hv]
      exact bind_image (release_mapValues f t _) fun x =>
        bind_image (delete_mapValues f O x _ .stack) fun y => returnPair_mapValues f y.1 none true
  · simp only [ha]
    exact bind_image (delete_mapValues f O (s.write n .null) _ .stack) fun _ => rfl

/-- `insert` inserts the new value under the same key. -/
theorem insert_mapValues (alloc : Allocation) (k : K) (v : V) :
    insert O alloc k (f v) (mapValues f s) =
      (insert O alloc k v s).map (Prod.map (mapValues f) id) := by
  by_cases hv : O.valid (O.assign k) = true
  · simp only [AvlContainer.insert, hv, Bool.not_true, Bool.false_eq_true, if_false,
      compareItems_mapValues, mapValues_table]
    refine bind_same fun x => ?_
    obtain ⟨t, result, new⟩ := x
    cases new with
    | true =>
      simp only [if_true]
      refine bind_same fun n => ?_
      let s' : State A K V := { s with table := t, allocated := s.allocated + 1 }.write n .stack
      have hs' : ({ mapValues f s with
          table := t, allocated := (mapValues f s).allocated + 1 } : State A K W).write n .stack =
          mapValues f s' := rfl
      rw [hs']
      exact fillNode_mapValues f O s' alloc k v n
    | false =>
      simp only [Bool.false_eq_true, if_false]
      exact bind_same fun item => returnPair_mapValues f { s with table := t } item false
  · simp only [AvlContainer.insert, hv, Bool.not_false, if_true]
    exact returnPair_mapValues f s none false

/-- An iterator goes on to the same item. -/
theorem advance_mapValues (handle : Handle) (value : Option ℕ) :
    advance handle value (mapValues f s) =
      (advance handle value s).map (Prod.map (mapValues f) id) :=
  bind_same fun _ => bind_same fun _ => bind_same fun item =>
    bind_image (retain_mapValues f s item) fun x =>
      bind_image (release_mapValues f x value) fun _ => rfl

/-- It begins at the same item. -/
theorem begin_mapValues : begin (mapValues f s) = (begin s).map (Prod.map (mapValues f) id) :=
  bind_image (advance_mapValues f s .start none) fun x =>
    bind_image (retain_mapValues f x.1 x.2.2) fun y =>
      bind_image (release_mapValues f y x.2.2) fun _ => rfl

/-- A round of a loop does the same to the items. -/
theorem loopBody_mapValues (keep : ℕ → Bool) (item : ℕ) :
    loopBody keep item (mapValues f s) = (loopBody keep item s).map (mapValues f) := by
  simp only [loopBody]
  by_cases hk : keep item = true
  · simp only [hk, if_true, mapValues_store, construct_mapStore, Option.map_map]
    rfl
  · simp [hk]

/-- So do its rounds. -/
theorem iterateLoop_mapValues (keep : ℕ → Bool) (n : ℕ) (handle : Handle) (value : Option ℕ) :
    iterateLoop keep n handle value (mapValues f s) =
      (iterateLoop keep n handle value s).map (Prod.map (mapValues f) id) := by
  induction n generalizing handle value s with
  | zero => rfl
  | succ n ih =>
    simp only [iterateLoop]
    by_cases hs : handle = .stop
    · simp only [hs, if_true]
      exact bind_image (release_mapValues f s value) fun _ => rfl
    · simp only [hs, if_false]
      exact bind_same fun item => bind_image (loopBody_mapValues f s keep item) fun x =>
        bind_image (advance_mapValues f x handle value) fun y =>
          bind_image (ih y.1 y.2.1 y.2.2) fun _ => rfl

/-- A loop over the container sees the same items. -/
theorem iterate_mapValues (keep : ℕ → Bool) :
    iterate keep (mapValues f s) = (iterate keep s).map (Prod.map (mapValues f) id) :=
  bind_image (begin_mapValues f s) fun x =>
    bind_image (iterateLoop_mapValues f x.1 keep _ x.2.1 x.2.2) fun _ => rfl

/-- An operation on changed values returns what it returns on the original ones. -/
theorem step_mapValues (flag : Bool) (op : Op K V) :
    step flag O (mapValues f s) (mapOp f op) =
      (step flag O s op).map (Prod.map (mapValues f) id) := by
  cases op with
  | insert k v => exact insert_mapValues f O s ⟨true, true⟩ k v
  | find k => exact find_mapValues f O s flag k
  | remove k => exact remove_mapValues f O s k
  | count => rfl
  | empty => rfl
  | iterate keep => exact iterate_mapValues f s keep
  | copyHolder r =>
    simp only [step, mapOp, mapValues_store, copyConstruct_mapStore, Option.map_map]
    rfl
  | moveHolder r =>
    simp only [step, mapOp, mapValues_store, moveConstruct_mapStore, Option.map_map]
    rfl
  | assignCopy h r =>
    simp only [step, mapOp, mapValues_store, copyAssign_mapStore, Option.map_map]
    rfl
  | assignMove h r =>
    simp only [step, mapOp, mapValues_store, moveAssign_mapStore, Option.map_map]
    rfl
  | destroyHolder h =>
    simp only [step, mapOp, mapValues_store, destroy_mapStore, Option.map_map]
    rfl

end Containers

end KernelLib.ContainerValues
