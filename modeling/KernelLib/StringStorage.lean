import KernelLib.StringKeys

/-!
# Storing strings

Insertion of a string into a set or a map and a search for it, and the pushes
of a list, from every state that represents a model, as all states do that
operations reach. The string is stored exactly when it has characters.
-/

namespace KernelLib.StringStorage

open AvlRoutines CountedObjects RefHolder AvlContainer OrderedEntries ContainerModel
open ContainerRefines StepRuns WideMemory CountedStrings StringCompare StringKeys

section Runs

variable {A : Routines} {V : Type} {pool : Pool} {s : State A Key V} {a : Model Key V}

/-- The model after an operation whose key may be refused. -/
def checkedStep (pool : Pool) (a : Model Key V) (op : Op Key V) : Model Key V :=
  match op with
  | .insert k _ | .find k | .remove k =>
    if (stringKeys pool).valid ((stringKeys pool).assign k) then a.step (stringKeys pool) op
    else a.newHolder none
  | op => a.step (stringKeys pool) op

theorem checkedStep_of_accepts {op : Op Key V} (h : Accepts (stringKeys pool) op) :
    checkedStep pool a op = a.step (stringKeys pool) op := by
  cases op with
  | insert k v => exact if_pos h.1
  | find k | remove k => exact if_pos h
  | _ => rfl

theorem checkedStep_of_refuses {op : Op Key V} (h : Refuses (stringKeys pool) op) :
    checkedStep pool a op = a.newHolder none := by
  cases op with
  | insert k v | find k | remove k => exact if_neg h
  | _ => exact h.elim

/-- Every state that a run of operations on strings reaches, valid ones or not,
represents a model. -/
theorem run_represents (flag : Bool) {ops : List (Op Key V)} (hA : A.Lawful)
    (hpool : ∀ n, (pool.new n).isSome) (h : Represents (stringKeys pool) s a settled)
    (hops : Along (fun a op => a.Ready op ∧
      (Accepts (stringKeys pool) op → a.Fits (stringKeys pool) op))
      (fun a op => some (checkedStep pool a op)) a ops) :
    ∃ s', run (fun s op => (step flag (stringKeys pool) s op).map Prod.fst) s ops = some s' ∧
      Represents (stringKeys pool) s' (ops.foldl (checkedStep pool) a) settled := by
  refine exists_run_simulating (R := fun s a => Represents (stringKeys pool) s a settled)
    (f := checkedStep pool) ?_ h hops
  rintro s a op h ⟨hr, hf⟩
  rcases accepts_or_refuses hpool op with hop | hop
  · rw [checkedStep_of_accepts hop]
    obtain ⟨s', hs', h'⟩ := step_refines flag hA (stringKeys_order hpool) hop h hr (hf hop)
    exact ⟨s', by simp [hs'], h'⟩
  · rw [checkedStep_of_refuses hop]
    obtain ⟨s', hs', h'⟩ := step_refused flag hop h
    exact ⟨s', by simp [hs'], h'⟩

end Runs

section Inserting

variable {A : Routines} {V : Type} {pool : Pool} {k : Key}

/-- An insertion adds an entry for the key and returns it with `true`; a search
then gives an item whose key compares equal. -/
def Stores (pool : Pool) (k : Key) (v : V) (a : Model Key V)
    (inserted : Option (State A Key V × Ret))
    (search : State A Key V → Option (State A Key V × Ret)) : Prop :=
  ∃ s₁ i, inserted = some (s₁, .pair (some i) true) ∧
    Represents (stringKeys pool) s₁ ((a.add (stringKeys pool) k v).newHolder (some i)) settled ∧
    ∃ s₂ j flag c, search s₁ = some (s₂, .pair (some j) flag) ∧
      s₂.store.objs.cell j = some c ∧ compareString c.value.1.str k.str = some 0

/-- `set::insert` and `set::find`. -/
def SetStores (pool : Pool) (k : Key) (s : State A Key Unit) (a : Model Key Unit) : Prop :=
  Stores pool k () a (setInsert (stringKeys pool) ⟨true, true⟩ k s) (setFind (stringKeys pool) k)

/-- `map::insert` and `map::find`. -/
def MapStores (pool : Pool) (k : Key) (v : V) (s : State A Key V) (a : Model Key V) : Prop :=
  Stores pool k v a (mapInsert (stringKeys pool) ⟨true, true⟩ k v s) (mapFind (stringKeys pool) k)

variable {s : State A Key V} {a : Model Key V}

theorem compareString_copied (hpool : ∀ n, (pool.new n).isSome) (k : Key) :
    compareString ((stringKeys pool).copy k).str k.str = some 0 := by
  have hranks := equiv_iff_ranks.mp ((stringKeys_order hpool).copy_equiv k)
  rw [compareString_eq, hranks]
  simp [sign]

/-- Insertion and search, for a map and a set. -/
theorem stores_iff (flag : Bool) (v : V) (hA : A.Lawful) (hpool : ∀ n, (pool.new n).isSome)
    (h : Represents (stringKeys pool) s a settled) (habsent : a.lookup (stringKeys pool) k = none) :
    Stores pool k v a (AvlContainer.insert (stringKeys pool) ⟨true, true⟩ k v s)
      (AvlContainer.find flag (stringKeys pool) k) ↔ 0 < k.str.length := by
  have hK := stringKeys_order hpool
  constructor
  · rintro ⟨s₁, i, hs₁, -⟩
    by_contra hpos
    have hop : Refuses (stringKeys pool) (Op.insert k v) := fun hv =>
      hpos ((valid_assign_iff hpool k).mp hv)
    obtain ⟨s', hs', -⟩ := step_refused flag hop h
    have hpair : (s₁, Ret.pair (some i) true) = (s', Ret.pair none false) :=
      Option.some.inj (hs₁.symm.trans hs')
    cases hpair
  · intro hpos
    have hv := (valid_assign_iff hpool k).mpr hpos
    have hc := (valid_copy_iff hpool k).mpr hpos
    obtain ⟨s₁, hs₁, h₁⟩ := insert_spec flag v hA hK hv hc h
    obtain ⟨s₂, hs₂, h₂⟩ := find_spec flag hA hK hv h₁
    have hlookup : (a.step (stringKeys pool) (.insert k v)).lookup (stringKeys pool) k =
        some (a.created, (stringKeys pool).copy k, v) := by
      rw [lookup_step hK h.sorted, Model.lookupAfter, if_pos (hK.order.equiv_refl k), habsent]
      rfl
    have hmem := List.mem_of_find?_eq_some hlookup
    obtain ⟨c, hc, hval⟩ := h₂.cell hmem
    simp only [Model.result, habsent] at hs₁
    simp only [Model.result, hlookup, Option.map_some] at hs₂
    refine ⟨s₁, a.created, hs₁, ?_, s₂, a.created, flag, c, hs₂, hc, ?_⟩
    · simpa only [Model.step, habsent] using h₁
    · rw [hval]
      exact compareString_copied hpool k

end Inserting

section Pushing

open ListItems (pushBack pushFront)

variable {pool : Pool} {s : ListItems.State SklString} {a : ListModel.Model SklString} {l : ℕ}
  {k : Key}

/-- `push_back(const string&)`. -/
def pushBackCopy (pool : Pool) (l : ℕ) (k : SklString) (s : ListItems.State SklString) :
    Option (ListItems.State SklString × ListItems.Ret) := do
  let v ← copy pool k
  pushBack SklString.isValid l (some v) s

/-- `push_back(string&&)`, which moves the string into the item. -/
def pushBackMove (l : ℕ) (k : SklString) (s : ListItems.State SklString) :
    Option (ListItems.State SklString × ListItems.Ret) :=
  pushBack SklString.isValid l (some k) s

/-- `push_front(const string&)`. -/
def pushFrontCopy (pool : Pool) (l : ℕ) (k : SklString) (s : ListItems.State SklString) :
    Option (ListItems.State SklString × ListItems.Ret) := do
  let v ← copy pool k
  pushFront SklString.isValid l (some v) s

/-- `push_front(string&&)`. -/
def pushFrontMove (l : ℕ) (k : SklString) (s : ListItems.State SklString) :
    Option (ListItems.State SklString × ListItems.Ret) :=
  pushFront SklString.isValid l (some k) s

/-- A push links a new item with the characters of a string, and returns it. -/
def Links (place : List ℕ → ℕ → List ℕ) (l : ℕ) (k : SklString) (a : ListModel.Model SklString)
    (pushed : Option (ListItems.State SklString × ListItems.Ret)) : Prop :=
  ∃ s' c, pushed = some (s', .holder (some a.values.length)) ∧
    s'.store.objs.cell a.values.length = some c ∧ c.value.wchars = k.wchars ∧
    ListModel.Represents s' ((ListModel.Model.setList l (some (place (a.items l) a.values.length))
      { a with values := a.values ++ [c.value] }).newHolder (some a.values.length))
      ListRefines.settled

/-- Both pushes at both ends link the string. -/
structure ListStores (pool : Pool) (l : ℕ) (k : SklString) (s : ListItems.State SklString)
    (a : ListModel.Model SklString) : Prop where
  backCopy : Links (fun xs i => xs ++ [i]) l k a (pushBackCopy pool l k s)
  backMove : Links (fun xs i => xs ++ [i]) l k a (pushBackMove l k s)
  frontCopy : Links (fun xs i => i :: xs) l k a (pushFrontCopy pool l k s)
  frontMove : Links (fun xs i => i :: xs) l k a (pushFrontMove l k s)

/-- The item a push returns is live and has the value. -/
theorem links_of_push {place : List ℕ → ℕ → List ℕ} {v : SklString} {s' : ListItems.State SklString}
    {pushed : Option (ListItems.State SklString × ListItems.Ret)}
    (hs' : pushed = some (s', .holder (if v.isValid then some a.values.length else none)))
    (h : ListModel.Represents s' (a.push SklString.isValid place l v) ListRefines.settled)
    (hv : v.isValid) (hw : v.wchars = k.str.wchars) : Links place l k.str a pushed := by
  rw [if_pos hv] at hs'
  rw [ListModel.Model.push, if_pos hv] at h
  have hheld : 0 < held s'.store.holders a.values.length := by
    rw [h.holders]
    simp only [ListModel.Model.newHolder, held_append, points_self]
    omega
  obtain ⟨c, hc, -⟩ := h.owned.exists_cell (i := a.values.length) (by simp only; omega)
  have hval : c.value = v := by
    have hx := h.value _ c hc
    simpa [ListModel.Model.newHolder, ListModel.Model.setList, eq_comm] using hx
  refine ⟨s', c, hs', hc, by rw [hval, hw], ?_⟩
  rw [hval]
  exact h

/-- A push of a null string returns a null holder. -/
theorem not_links_of_null {place : List ℕ → ℕ → List ℕ} {v : SklString}
    {s' : ListItems.State SklString} {pushed : Option (ListItems.State SklString × ListItems.Ret)}
    (hs' : pushed = some (s', .holder (if v.isValid then some a.values.length else none)))
    (hv : ¬v.isValid) : ¬Links place l k.str a pushed := by
  rintro ⟨s₁, c, hs₁, -⟩
  rw [if_neg hv] at hs'
  cases hs'.symm.trans hs₁

/-- The pushes of a list. -/
theorem listStores_iff (hpool : ∀ n, (pool.new n).isSome)
    (h : ListModel.Represents s a ListRefines.settled) (hl : a.Alive l) :
    ListStores pool l k.str s a ↔ 0 < k.str.length := by
  obtain ⟨xs, hxs⟩ := hl
  obtain ⟨c, hc, hcopy⟩ := copy_copyOf pool k.length_le
  have hback : pushBackCopy pool l k.str s = pushBack SklString.isValid l (some c) s := by
    rw [pushBackCopy, hc]
    rfl
  have hfront : pushFrontCopy pool l k.str s = pushFront SklString.isValid l (some c) s := by
    rw [pushFrontCopy, hc]
    rfl
  have back (v : SklString) := ListRefines.pushBack_spec SklString.isValid h hxs v
  have front (v : SklString) := ListRefines.pushFront_spec SklString.isValid h hxs v
  constructor
  · intro hst
    by_contra hpos
    obtain ⟨s', hs', -⟩ := back c
    exact not_links_of_null (hback.trans hs')
      (fun hv => hpos ((hcopy.isValid_iff hpool).mp hv)) hst.backCopy
  · intro hpos
    have hv := (hcopy.isValid_iff hpool).mpr hpos
    have hw := hcopy.wchars_eq hpool
    have hkv : k.str.isValid := by
      obtain ⟨b, hb⟩ := buffer_of_length_pos hpos
      rw [SklString.isValid, hb]
      rfl
    constructor
    · obtain ⟨s', hs', hrep⟩ := back c
      exact links_of_push (hback.trans hs') hrep hv hw
    · obtain ⟨s', hs', hrep⟩ := back k.str
      exact links_of_push hs' hrep hkv rfl
    · obtain ⟨s', hs', hrep⟩ := front c
      exact links_of_push (hfront.trans hs') hrep hv hw
    · obtain ⟨s', hs', hrep⟩ := front k.str
      exact links_of_push hs' hrep hkv rfl

end Pushing

/-- When no allocation fails, sets, maps and lists store a string in every state
exactly when it has characters. -/
theorem stored_iff {A : Routines} {V : Type} {pool : Pool} (hA : A.Lawful)
    (hpool : ∀ n, (pool.new n).isSome) (k : Key) :
    (∀ (s : State A Key Unit) (a : Model Key Unit), Represents (stringKeys pool) s a settled →
      a.lookup (stringKeys pool) k = none → (SetStores pool k s a ↔ 0 < k.str.length)) ∧
    (∀ (s : State A Key V) (a : Model Key V) (v : V), Represents (stringKeys pool) s a settled →
      a.lookup (stringKeys pool) k = none → (MapStores pool k v s a ↔ 0 < k.str.length)) ∧
    ∀ (s : ListItems.State SklString) (a : ListModel.Model SklString) (l : ℕ),
      ListModel.Represents s a ListRefines.settled → a.Alive l →
      (ListStores pool l k.str s a ↔ 0 < k.str.length) := by
  refine ⟨?_, ?_, ?_⟩
  · intro s a h habsent
    exact stores_iff false () hA hpool h habsent
  · intro s a v h habsent
    exact stores_iff true v hA hpool h habsent
  · intro s a l h hl
    exact listStores_iff hpool h hl

/-- The string `a`. -/
def letterA : Key := ⟨⟨⟨2, 4, some [97, 0], by decide, by decide⟩⟩, by decide⟩

theorem stored_iff_letterA :
    SetStores .zeroed letterA (State.empty listed Key Unit) Model.empty ∧
      MapStores .zeroed letterA 7 (State.empty listed Key ℕ) Model.empty := by
  obtain ⟨hset, hmap, -⟩ := stored_iff (V := ℕ) listed_lawful (fun _ => rfl : ∀ n,
    (Pool.zeroed.new n).isSome) letterA
  exact ⟨(hset _ _ (represents_empty listed_lawful) rfl).mpr (by decide),
    (hmap _ _ 7 (represents_empty listed_lawful) rfl).mpr (by decide)⟩

/-- The string that is constructed from an empty one. -/
def emptyString : Key where
  str := ⟨{ SklString.null.unicodeStr with
    maximumLength := 2
    maximumLength_lt := by decide
    buffer := some [0] }⟩
  length_le := by decide

/-- The empty string is valid, and no set, map or list stores it. -/
theorem not_stored_emptyString :
    ofBuf .zeroed [0] npos = some emptyString.str ∧ emptyString.str.isValid ∧
      ¬SetStores .zeroed emptyString (State.empty listed Key Unit) Model.empty ∧
      ¬MapStores .zeroed emptyString 7 (State.empty listed Key ℕ) Model.empty ∧
      ∀ s a l, ListModel.Represents s a ListRefines.settled → a.Alive l →
        ¬ListStores .zeroed l emptyString.str s a := by
  have hpool : ∀ n, (Pool.zeroed.new n).isSome := fun _ => rfl
  have hlen : ¬0 < emptyString.str.length := by decide
  refine ⟨by decide, rfl, ?_, ?_, ?_⟩
  · exact fun h => hlen ((stores_iff false () listed_lawful hpool
      (represents_empty listed_lawful) rfl).mp h)
  · exact fun h => hlen ((stores_iff true 7 listed_lawful hpool
      (represents_empty listed_lawful) rfl).mp h)
  · exact fun s a l h hl hst => hlen ((listStores_iff hpool h hl).mp hst)

end KernelLib.StringStorage
