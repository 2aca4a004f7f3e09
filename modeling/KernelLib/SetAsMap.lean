import KernelLib.ContainerRefines
import KernelLib.ContainerValues

/-!
# Sets as maps without values

A set and a map are separate copies of one class, and each operation on a
set does what it does on a map whose values are forgotten. The states of a
set and of a map stay related so over every run of the same operations, and
all answers agree but one: `find` reports a map's key as found and a set's
key as not found, whether it is there or not.
-/

namespace KernelLib.SetAsMap

open StepRuns AvlRoutines AvlContainer ContainerRefines ContainerValues

variable {A : Routines} {K V : Type}

/-- What a set keeps of a map. -/
def asSet (s : State A K V) : State A K Unit := mapValues (fun _ => ()) s

/-- An operation of a map on a set. -/
def setOp (op : Op K V) : Op K Unit := mapOp (fun _ => ()) op

/-- One operation on a set, its result dropped. -/
def setNext (O : KeyOps K) (s : State A K Unit) (op : Op K Unit) : Option (State A K Unit) :=
  (setStep O s op).map Prod.fst

/-- Perform an operation with the same keys on a map and on a set. -/
def together (O : KeyOps K) (p : State A K V × State A K Unit) (op : Op K V) :
    Option (State A K V × State A K Unit) := do
  let (m, _) ← mapStep O p.1 op
  let (s, _) ← setStep O p.2 (setOp op)
  return (m, s)

/-- Two containers that start empty. -/
def start (A : Routines) (K V : Type) : State A K V × State A K Unit :=
  (State.empty A K V, State.empty A K Unit)

/-- The key of an item that a holder points at, while the item is live. -/
def itemKey (s : State A K V) (i : ℕ) : Option K := (s.store.objs.cell i).map fun c => c.value.1

/-- Both holders are null, or both point at an item with the same key. -/
def SameHolder (m : State A K V) (s : State A K Unit) : Option ℕ → Option ℕ → Prop
  | none, none => True
  | some i, some j => itemKey m i = itemKey s j
  | _, _ => False

/-- What a call on the map and the one on the set returned agrees. -/
def Alike (m : State A K V) (s : State A K Unit) : Ret → Ret → Prop
  | .void, .void => True
  | .pair p b, .pair q c => SameHolder m s p q ∧ b = c
  | .count n, .count k => n = k
  | .bool b, .bool c => b = c
  | .items xs, .items ys => List.Forall₂ (fun i j => itemKey m i = itemKey s j) xs ys
  | _, _ => False

/-- A call on the map and the same call on the set both return, and what they
return agrees. -/
def Agrees (O : KeyOps K) (p : State A K V × State A K Unit) (op : Op K V) : Prop :=
  ∃ m r s t, mapStep O p.1 op = some (m, r) ∧ setStep O p.2 (setOp op) = some (s, t) ∧
    Alike m s r t

/-- The call is a `find` that gets past the check of its key. -/
def FindsValid (O : KeyOps K) : Op K V → Prop
  | .find k => O.valid (O.assign k) = true
  | _ => False

/-- The answer of a set where a map answers so: `find` says `false`. -/
def setAnswer : Op K V → Ret → Ret
  | .find _, .pair p _ => .pair p false
  | _, r => r

variable {O : KeyOps K} {s m : State A K V} {op : Op K V} {r : Ret} {ops : List (Op K V)}

/-- The two classes' `find` differ in the flag alone. -/
theorem find_eq_setAnswer (k : K) :
    find false O k s = (find true O k s).map (Prod.map id (setAnswer (.find k : Op K V))) := by
  have hpair : ∀ (p : Option ℕ) (b : Bool), s.returnPair p false =
      (s.returnPair p b).map (Prod.map id (setAnswer (.find k : Op K V))) := by
    intro p b
    simp only [State.returnPair, Option.map_map]
    rfl
  by_cases hv : O.valid (O.assign k) = true
  · simp only [find, hv, Bool.not_true, Bool.false_eq_true, if_false]
    exact bind_same fun _ => bind_same fun item => hpair item true
  · simp only [find, hv, Bool.not_false, if_true]
    exact hpair none false

theorem step_eq_setAnswer (op : Op K V) :
    step false O s op = (step true O s op).map (Prod.map id (setAnswer op)) := by
  cases op with
  | find k => exact find_eq_setAnswer k
  | insert k v => exact Option.map_id_apply.symm
  | remove k => exact Option.map_id_apply.symm
  | count => exact Option.map_id_apply.symm
  | empty => exact Option.map_id_apply.symm
  | iterate keep => exact Option.map_id_apply.symm
  | copyHolder r => exact Option.map_id_apply.symm
  | moveHolder r => exact Option.map_id_apply.symm
  | assignCopy h r => exact Option.map_id_apply.symm
  | assignMove h r => exact Option.map_id_apply.symm
  | destroyHolder h => exact Option.map_id_apply.symm

/-- A set does what a map does, less the values and the flag of `find`. -/
theorem setStep_asSet (op : Op K V) :
    setStep O (asSet s) (setOp op) =
      (mapStep O s op).map (Prod.map asSet (setAnswer op)) := by
  rw [setStep, asSet, setOp, step_mapValues, step_eq_setAnswer, Option.map_map, mapStep]
  rfl

/-- Both containers take a step, or neither does. -/
theorem together_asSet :
    together O (s, asSet s) op = (mapNext O s op).map fun m => (m, asSet m) := by
  simp only [together, mapNext, setStep_asSet]
  cases mapStep O s op with
  | none => rfl
  | some x => rfl

/-- A run of a set is the run of the map with the values forgotten. -/
theorem run_asSet :
    run (setNext O) (asSet s) (ops.map setOp) = (run (mapNext O) s ops).map asSet := by
  induction ops generalizing s with
  | nil => rfl
  | cons op ops ih =>
    have hstep : setNext O (asSet s) (setOp op) = (mapNext O s op).map asSet := by
      simp only [setNext, mapNext, setStep_asSet, Option.map_map]
      rfl
    exact bind_image hstep fun _ => ih

theorem run_together :
    run (together O) (s, asSet s) ops = (run (mapNext O) s ops).map fun m => (m, asSet m) := by
  induction ops generalizing s with
  | nil => rfl
  | cons op ops ih => exact bind_image together_asSet fun _ => ih

theorem itemKey_asSet (i : ℕ) : itemKey (asSet m) i = itemKey m i := by
  simp only [itemKey, asSet, mapValues_store, mapStore_objs, mapObjects_cell, Option.map_map]
  rfl

theorem sameHolder_asSet (p : Option ℕ) : SameHolder m (asSet m) p p := by
  cases p with
  | none => trivial
  | some i => exact (itemKey_asSet i).symm

/-- A map that forgets its values still agrees with what it returned. -/
theorem alike_asSet (r : Ret) : Alike m (asSet m) r r := by
  cases r with
  | void => trivial
  | pair p b => exact ⟨sameHolder_asSet p, rfl⟩
  | count n => rfl
  | bool b => rfl
  | items xs => exact List.forall₂_same.mpr fun i _ => (itemKey_asSet i).symm

/-- A valid key makes `find` say `true` on a map. -/
theorem find_second {k : K} (hv : O.valid (O.assign k) = true)
    (h : mapStep O s (.find k) = some (m, r)) : ∃ p, r = .pair p true := by
  simp only [mapStep, step, find, hv, Bool.not_true, Bool.false_eq_true, if_false] at h
  obtain ⟨_, -, h⟩ := Option.bind_eq_some_iff.mp h
  obtain ⟨p, -, h⟩ := Option.bind_eq_some_iff.mp h
  obtain ⟨_, -, h⟩ := Option.map_eq_some_iff.mp h
  exact ⟨p, (congrArg Prod.snd h).symm⟩

/-- Where a map's call returns, the set's answer is its own unless the call finds. -/
theorem setAnswer_self (h : mapStep O s op = some (m, r)) (hf : ¬FindsValid O op) :
    setAnswer op r = r := by
  cases op with
  | find k =>
    simp only [FindsValid, Bool.not_eq_true] at hf
    simp only [mapStep, step, find, hf, Bool.not_false, if_true] at h
    obtain ⟨_, -, h⟩ := Option.map_eq_some_iff.mp h
    have hr : r = .pair none false := (congrArg Prod.snd h).symm
    rw [hr]
    rfl
  | _ => rfl

/-- Calls on a map and its set agree exactly when no valid key is looked for. -/
theorem agrees_step_iff (h : mapStep O s op = some (m, r)) :
    Agrees O (s, asSet s) op ↔ ¬FindsValid O op := by
  have hset : setStep O (asSet s) (setOp op) = some (asSet m, setAnswer op r) := by
    rw [setStep_asSet, h]
    rfl
  constructor
  · rintro ⟨m', r', s', t, hm, hs, ha⟩ hf
    rw [h] at hm
    rw [hset] at hs
    obtain ⟨rfl, rfl⟩ := Prod.mk.inj (Option.some.inj hm)
    obtain ⟨rfl, rfl⟩ := Prod.mk.inj (Option.some.inj hs)
    cases op with
    | find k =>
      obtain ⟨p, rfl⟩ := find_second hf h
      exact Bool.noConfusion ha.2
    | _ => exact hf
  · intro hf
    refine ⟨m, r, asSet m, _, h, hset, ?_⟩
    rw [setAnswer_self h hf]
    exact alike_asSet r

/-- A map and a set go through every run together, and in a run that completes
all their answers agree exactly when it looks for no valid key. -/
theorem agrees_along_iff (A : Routines) (O : KeyOps K) (ops : List (Op K V)) :
    run (setNext O) (State.empty A K Unit) (ops.map setOp) =
        (run (mapNext O) (State.empty A K V) ops).map asSet ∧
      ∀ m, run (mapNext O) (State.empty A K V) ops = some m →
        (Along (Agrees O) (together O) (start A K V) ops ↔ ∀ op ∈ ops, ¬FindsValid O op) := by
  refine ⟨run_asSet (s := State.empty A K V), fun m hm => ?_⟩
  have hrun : run (together O) (start A K V) ops = some (m, asSet m) := by
    have htwo : run (together O) (start A K V) ops =
        (run (mapNext O) (State.empty A K V) ops).map fun m => (m, asSet m) := run_together
    rw [htwo, hm]
    rfl
  rw [← along_iff_forall hrun]
  refine along_iff_of_invariant (I := fun p => p.2 = asSet p.1) ?_ rfl
    (along_of_forall fun _ _ => trivial) hrun
  rintro ⟨s, s'⟩ op p hs - hstep
  obtain rfl : s' = asSet s := hs
  rw [together_asSet] at hstep
  obtain ⟨m', hm', rfl⟩ := Option.map_eq_some_iff.mp hstep
  obtain ⟨⟨_, r⟩, hr, rfl⟩ := Option.map_eq_some_iff.mp hm'
  exact ⟨agrees_step_iff hr, fun _ => rfl⟩

/-- Insert a key, look it up, remove it and count. -/
def lookedUp : List (Op ℕ ℕ) := [.insert 7 1, .find 7, .remove 7, .count]

/-- A run that does not look anything up. -/
theorem agrees_along_unlooked :
    Along (Agrees natKeys) (together natKeys) (start listed ℕ ℕ)
      [.insert 7 1, .insert 7 2, .remove 7, .remove 7, .count] := by
  obtain ⟨-, h⟩ := agrees_along_iff listed natKeys
    [.insert 7 1, .insert 7 2, .remove 7, .remove 7, (.count : Op ℕ ℕ)]
  exact (h _ rfl).mpr (by simp [FindsValid])

/-- A key that is there is found in the map and not found in the set. -/
theorem found_in_map_only :
    ¬Along (Agrees natKeys) (together natKeys) (start listed ℕ ℕ) lookedUp := by
  intro h
  obtain ⟨-, h⟩ := h
  obtain ⟨⟨m, r, s, t, hm, hs, ha⟩, -⟩ := h _ rfl
  cases hm
  cases hs
  exact Bool.noConfusion ha.2

end KernelLib.SetAsMap
