import KernelLib.RefHolder
import KernelLib.StepRuns

/-!
# Callables that share their parameter

A `just_a_call` holds a routine and a counted parameter, which owns the
callable with the state it captured and takes that along when it is deleted.
Copies retain the parameter and destructors release it; assignments are
swaps, with a temporary copy where they must not change their source. The
move constructor retains too, though it empties its source, so a moved
parameter is never freed. Runs without it, and without more copies than a
counter can tell, keep every count exact.
-/

namespace KernelLib.JustACall

open CountedObjects RefHolder StepRuns

variable {F V : Type}

/-- A `just_a_call`. `Proc<_Fn>` is named by the type of its callable. -/
structure Call (F : Type) where
  /-- `_routing`. -/
  routing : Option F
  /-- `_param`. -/
  param : Option ℕ
  deriving DecidableEq, Repr

/-- All variables and the parameters; a parameter has a callable of some type. -/
structure State (F V : Type) where
  /-- The parameters with their counters. -/
  objs : Objects (F × V)
  /-- One slot for every variable ever constructed, `none` once it is destroyed. -/
  calls : List (Option (Call F))

/-- Nothing has been constructed. -/
def State.empty : State F V := ⟨Objects.empty, []⟩

/-- A live variable. -/
def State.call (x : ℕ) (s : State F V) : Option (Call F) := (s.calls[x]?).join

/-- A new variable. -/
def State.newCall (c : Call F) (s : State F V) : State F V := { s with calls := s.calls ++ [some c] }

/-- Overwrite or end a variable. -/
def State.setCall (x : ℕ) (c : Option (Call F)) (s : State F V) : State F V :=
  { s with calls := s.calls.set x c }

/-- `just_a_call()`. -/
def construct (s : State F V) : State F V := s.newCall ⟨none, none⟩

/-- `just_a_call(_Fn&& _Fx)`, given which of its two allocations succeed. -/
def constructFrom (f : F) (v : V) (functor holder : Bool) (s : State F V) : State F V :=
  if !functor then construct s
  else if !holder then construct s
  else { s with objs := s.objs.create (f, v) }.newCall ⟨some f, some s.objs.created⟩

/-- `just_a_call(const just_a_call& r)`. -/
def copyConstruct (r : ℕ) (s : State F V) : Option (State F V) := do
  let c ← s.call r
  let o ← retainPtr c.param s.objs
  return { s with objs := o }.newCall c

/-- `just_a_call(just_a_call&& r)`. -/
def moveConstruct (r : ℕ) (s : State F V) : Option (State F V) := do
  let c ← s.call r
  let s := (s.newCall c).setCall r (some ⟨none, none⟩)
  let o ← retainPtr c.param s.objs
  return { s with objs := o }

/-- `swap`, called on a variable with another one or itself. -/
def swap (x y : ℕ) (s : State F V) : Option (State F V) := do
  let a ← s.call x
  let b ← s.call y
  return if x = y then s else (s.setCall y (some a)).setCall x (some b)

/-- `~just_a_call()`. -/
def destroy (x : ℕ) (s : State F V) : Option (State F V) := do
  let c ← s.call x
  let (o, _) ← releasePtr c.param s.objs
  return { s with objs := o }.setCall x none

/-- `operator=(const just_a_call& r)`: `just_a_call(r).swap(*this)`. -/
def copyAssign (x r : ℕ) (s : State F V) : Option (State F V) := do
  let temp := s.calls.length
  let s ← copyConstruct r s
  let s ← swap temp x s
  destroy temp s

/-- `operator=(just_a_call&& r)`: `r.swap(*this)`. -/
def moveAssign (x r : ℕ) (s : State F V) : Option (State F V) := swap r x s

/-- `Proc<_Fn>` reads the callable in its parameter. -/
def proc [DecidableEq F] (f : F) (startContext : Option ℕ) (s : State F V) : Option (State F V) :=
  match startContext with
  | none => some s
  | some i => do
    let c ← s.objs.cell i
    if c.value.1 = f then return s else none

/-- `operator()`. -/
def invoke [DecidableEq F] (x : ℕ) (s : State F V) : Option (State F V) := do
  let c ← s.call x
  match c.routing with
  | none => some s
  | some f => proc f c.param s

/-- The operations of a run. -/
inductive Op (F V : Type) where
  /-- `just_a_call()`. -/
  | construct
  /-- Construction from a callable, given which allocations succeed. -/
  | constructFrom (f : F) (v : V) (functor holder : Bool)
  /-- Copy construction. -/
  | copy (r : ℕ)
  /-- Move construction. -/
  | move (r : ℕ)
  /-- `x = r`. -/
  | assignCopy (x r : ℕ)
  /-- `x = move(r)`. -/
  | assignMove (x r : ℕ)
  /-- `x.swap(y)`. -/
  | swap (x y : ℕ)
  /-- `x()`. -/
  | invoke (x : ℕ)
  /-- Destruction. -/
  | destroy (x : ℕ)
  deriving DecidableEq, Repr

/-- Perform one operation. -/
def step [DecidableEq F] (s : State F V) : Op F V → Option (State F V)
  | .construct => some (construct s)
  | .constructFrom f v functor holder => some (constructFrom f v functor holder s)
  | .copy r => copyConstruct r s
  | .move r => moveConstruct r s
  | .assignCopy x r => copyAssign x r s
  | .assignMove x r => moveAssign x r s
  | .swap x y => swap x y s
  | .invoke x => invoke x s
  | .destroy x => destroy x s

/-- Variables are used while they live. -/
def Ready (s : State F V) : Op F V → Prop
  | .construct | .constructFrom .. => True
  | .copy r | .move r | .invoke r | .destroy r => (s.call r).isSome
  | .assignCopy x r | .assignMove x r | .swap x r => (s.call x).isSome ∧ (s.call r).isSome

/-- How many variables hold a parameter. -/
def State.holders (s : State F V) (i : ℕ) : ℕ := held (s.calls.map (Option.map Call.param)) i

/-- A routine goes with a live parameter that has a callable of its type. -/
def Call.Typed (o : Objects (F × V)) (c : Call F) : Prop :=
  match c.param with
  | none => c.routing = none
  | some i => ∃ cell, o.cell i = some cell ∧ c.routing = some cell.value.1

/-- Each count is the number of variables that hold the parameter, parameters are live
while one does and freed once afterwards, and each routine has a live parameter with a
callable of its type. -/
structure Intact (s : State F V) : Prop where
  count : ∀ i c, s.objs.cell i = some c → c.pn = s.holders i
  live_iff : ∀ i, (s.objs.cell i).isSome ↔ 0 < s.holders i
  freed_iff : ∀ i, i ∈ s.objs.deleted ↔ i < s.objs.created ∧ s.holders i = 0
  freed_once : s.objs.deleted.Nodup
  typed : ∀ x c, s.call x = some c → c.Typed s.objs

/-- The operation uses live parameters only and leaves all counts exact. -/
def Sound [DecidableEq F] (s : State F V) (op : Op F V) : Prop :=
  ∃ t, step s op = some t ∧ Intact t

/-- Nothing but an empty variable is moved from, and no parameter gets more holders
than its counter can tell. -/
def Fits (s : State F V) : Op F V → Prop
  | .copy r => ∀ c ∈ s.call r, ∀ i ∈ c.param, s.holders i + 1 ≤ maxCount
  | .move r => ∀ c ∈ s.call r, c.param = none
  | .assignCopy x r => ∀ own ∈ s.call x, ∀ c ∈ s.call r, ∀ i ∈ c.param,
      own.param = some i ∨ s.holders i + 1 ≤ maxCount
  | _ => True

instance {s : State F V} : DecidablePred (Ready s)
  | .construct | .constructFrom .. => inferInstanceAs (Decidable True)
  | .copy r | .move r | .invoke r | .destroy r => inferInstanceAs (Decidable (s.call r).isSome)
  | .assignCopy x r | .assignMove x r | .swap x r =>
    inferInstanceAs (Decidable ((s.call x).isSome ∧ (s.call r).isSome))

instance {s : State F V} : DecidablePred (Fits s)
  | .copy r => inferInstanceAs (Decidable (∀ c ∈ s.call r, ∀ i ∈ c.param, _))
  | .move r => inferInstanceAs (Decidable (∀ c ∈ s.call r, c.param = none))
  | .assignCopy x r => inferInstanceAs (Decidable
      (∀ own ∈ s.call x, ∀ c ∈ s.call r, ∀ i ∈ c.param,
        own.param = some i ∨ s.holders i + 1 ≤ maxCount))
  | .construct | .constructFrom .. | .assignMove .. | .swap .. | .invoke _ | .destroy _ =>
    inferInstanceAs (Decidable True)

section Steps

variable {s t : State F V} {x y r : ℕ} {a b c : Call F} {o : Objects (F × V)}

/-- The parameters with the variables as holders. -/
def State.store (s : State F V) : Store (F × V) := ⟨s.objs, s.calls.map (Option.map Call.param)⟩

/-- The parameter of a new call is a new slot. -/
theorem store_newCall (c : Call F) : (s.newCall c).store = s.store.newSlot c.param := by
  simp [State.store, State.newCall, Store.newSlot]

/-- Setting a call sets its slot. -/
theorem store_setCall (x : ℕ) (c : Option (Call F)) :
    (s.setCall x c).store = s.store.setSlot x (c.map Call.param) := by
  simp [State.store, State.setCall, Store.setSlot, List.map_set]

/-- The pointer of a slot is the parameter of the call. -/
theorem ptr_store (hx : s.call x = some c) : s.store.ptr x = some c.param := by
  have hget : s.calls[x]? = some (some c) := Option.join_eq_some_iff.mp hx
  simp [ptr_eq_some, State.store, List.getElem?_map, hget]

/-- A call is the new one or was there before. -/
theorem call_newCall (h : (s.newCall c).call x = some a) : a = c ∨ s.call x = some a := by
  have hget : (s.calls ++ [some c])[x]? = some (some a) := Option.join_eq_some_iff.mp h
  rcases List.mem_append.mp (List.mem_of_getElem? hget) with - | hm
  · rcases lt_or_ge x s.calls.length with hlt | hge
    · rw [List.getElem?_append_left hlt] at hget
      exact .inr (Option.join_eq_some_iff.mpr hget)
    · rw [List.getElem?_append_right hge] at hget
      have hmem := List.mem_of_getElem? hget
      simp only [List.mem_singleton, Option.some.injEq] at hmem
      exact .inl hmem
  · simp only [List.mem_singleton, Option.some.injEq] at hm
    exact .inl hm

/-- A new call leaves the others. -/
theorem call_newCall_of (hx : s.call x = some a) : (s.newCall c).call x = some a := by
  have hget : s.calls[x]? = some (some a) := Option.join_eq_some_iff.mp hx
  have hlt := (List.getElem?_eq_some_iff.mp hget).1
  exact Option.join_eq_some_iff.mpr ((List.getElem?_append_left hlt).trans hget)

/-- The new call is the last one. -/
theorem call_newCall_length : (s.newCall c).call s.calls.length = some c := by
  simp [State.call, State.newCall]

/-- A call that exists has a place in the list. -/
theorem call_lt (hx : s.call x = some a) : x < s.calls.length :=
  (List.getElem?_eq_some_iff.mp (Option.join_eq_some_iff.mp hx)).1

/-- A call is the one that was set or was there before. -/
theorem call_setCall {d : Option (Call F)} (h : (s.setCall y d).call x = some a) :
    d = some a ∨ s.call x = some a := by
  have hget : (s.calls.set y d)[x]? = some (some a) := Option.join_eq_some_iff.mp h
  rw [List.getElem?_set] at hget
  split at hget
  · split at hget
    · exact .inl (Option.some.inj hget)
    · cases hget
  · exact .inr (Option.join_eq_some_iff.mpr hget)

/-- Setting a call leaves the others. -/
theorem call_setCall_of_ne {d : Option (Call F)} (hne : y ≠ x) :
    (s.setCall y d).call x = s.call x := by
  simp [State.call, State.setCall, List.getElem?_set_ne hne]

/-- The call that was set is what it was set to. -/
theorem call_setCall_self {d : Option (Call F)} (hx : x < s.calls.length) :
    (s.setCall x d).call x = d := by
  simp [State.call, State.setCall, hx]

/-- Counts are exact as far as their width goes, and routines have their parameters. -/
structure Kept (s : State F V) : Prop where
  owned : Owned s.store fun _ => 0
  typed : ∀ x c, s.call x = some c → c.Typed s.objs

/-- Before the first step. -/
theorem kept_empty : Kept (State.empty : State F V) where
  owned := exact_empty.congr fun _ => rfl
  typed := by simp [State.empty, State.call]

/-- The counts are exact. -/
theorem Kept.exact (hk : Kept s) : Exact s.objs s.holders :=
  Exact.congr hk.owned fun _ => (Nat.zero_add _).symm

/-- Exact counts within their width are the numbers of holders, and no others are. -/
theorem intact_iff (hk : Kept s) : Intact s ↔ ∀ i, s.holders i ≤ maxCount := by
  have hex := hk.exact
  have hlive : ∀ i, (s.objs.cell i).isSome ↔ 0 < s.holders i := by
    intro i
    cases hc : s.objs.cell i with
    | none => simp [hex.dead i hc]
    | some c => simpa using (hex.live i c hc).2
  constructor
  · intro h i
    rcases Nat.eq_zero_or_pos (s.holders i) with hz | hpos
    · omega
    · obtain ⟨c, hc, hpn⟩ := hex.exists_cell hpos
      have hlt : wrap32 (s.holders i) < ((2 ^ 32 : ℕ) + 1) / 2 := Int.bmod_lt (by decide)
      rw [← hpn, h.count i c hc] at hlt
      simp only [maxCount]
      omega
  · intro h
    refine ⟨fun i c hc => hex.pn_eq hc (h i), hlive, fun i => ?_, hex.deleted_nodup, hk.typed⟩
    rw [hex.mem_deleted, ← Option.not_isSome_iff_eq_none, hlive, Nat.pos_iff_ne_zero, not_not]

/-- Variables that were there before keep their types, when what they hold is live. -/
theorem Kept.step (hk : Kept s) (ho : Owned t.store fun _ => 0) (hkeep : Keeps s.objs t.objs)
    (hcalls : ∀ x c, t.call x = some c → c = ⟨none, none⟩ ∨ ∃ y, s.call y = some c) : Kept t := by
  refine ⟨ho, fun x c hx => ?_⟩
  rcases hcalls x c hx with rfl | ⟨y, hy⟩
  · rfl
  · have hty := hk.typed y c hy
    have hptr := ptr_store hx
    cases hp : c.param with
    | none => simpa only [Call.Typed, hp] using hty
    | some i =>
      simp only [Call.Typed, hp] at hty ⊢
      rw [hp] at hptr
      obtain ⟨cell, hcell, hrouting⟩ := hty
      obtain ⟨cell', hcell', -⟩ := ho.exists_cell (i := i) (by have := held_pos hptr; omega)
      obtain ⟨c₀, hc₀, hv⟩ := hkeep i cell' hcell'
      obtain rfl := Option.some.inj (hcell.symm.trans hc₀)
      exact ⟨cell', hcell', by rw [hrouting, hv]⟩

/-- A new call holds its parameter. -/
theorem holders_newCall (c : Call F) (i : ℕ) :
    (s.newCall c).holders i = s.holders i + points c.param i := by
  simp [State.holders, State.newCall]

/-- Overwriting a variable trades what it held for what it holds. -/
theorem holders_setCall (hx : s.call x = some c) (d : Option (Call F)) (i : ℕ) :
    (s.setCall x d).holders i + points c.param i =
      s.holders i + points ((d.map Call.param).getD none) i := by
  have hset := held_set (ptr_eq_some.mp (ptr_store hx)) (d.map Call.param) i
  simpa [State.holders, State.setCall, State.store, List.map_set] using hset

/-- An empty variable. -/
theorem kept_construct (hk : Kept s) : Kept (construct s) := by
  refine hk.step ?_ (Keeps.refl _) fun x c hx => (call_newCall hx).imp_right fun h => ⟨x, h⟩
  rw [construct, store_newCall]
  exact (hk.owned.congr fun j => by simp).newSlot

/-- An object without a pointer on it adds no holder. -/
theorem holders_construct (i : ℕ) : (construct s).holders i = s.holders i := by
  rw [construct, holders_newCall, points_none, Nat.add_zero]

/-- A variable with a new parameter. -/
theorem kept_constructFrom (hk : Kept s) (f : F) (v : V) :
    Kept ({ s with objs := s.objs.create (f, v) }.newCall ⟨some f, some s.objs.created⟩) := by
  have hex := Exact.create hk.owned (f, v)
  refine ⟨?_, fun x c hx => ?_⟩
  · rw [store_newCall]
    refine Owned.newSlot (Exact.congr hex fun j => ?_)
    simp only [points_some, State.store]
    ring
  · rcases call_newCall hx with rfl | hx'
    · exact ⟨⟨1, (f, v)⟩, by simp [State.newCall], rfl⟩
    · have hty := hk.typed x c hx'
      cases hp : c.param with
      | none => simpa only [Call.Typed, hp] using hty
      | some i =>
        simp only [Call.Typed, hp] at hty ⊢
        obtain ⟨cell, hcell, hrouting⟩ := hty
        have hne : i ≠ s.objs.created := fun he => by
          rw [he, hk.exact.fresh _ le_rfl] at hcell
          cases hcell
        exact ⟨cell, by simpa [State.newCall, hne] using hcell, hrouting⟩

/-- A copy holds what its source holds. -/
theorem copyConstruct_spec (hk : Kept s) (hr : s.call r = some c) :
    ∃ o, copyConstruct r s = some ({ s with objs := o }.newCall c) ∧
      Kept ({ s with objs := o }.newCall c) := by
  obtain ⟨o, hret, hev, how⟩ := retainPtr_spec hk.owned (p := c.param) fun i hp => by
    have hptr := ptr_store hr
    rw [hp] at hptr
    have := held_pos hptr
    omega
  have hret' : retainPtr c.param s.objs = some o := hret
  refine ⟨o, by simp [copyConstruct, hr, hret'], hk.step ?_ hev.keeps fun x d hx => ?_⟩
  · rw [store_newCall]
    exact Owned.newSlot how
  · exact (call_newCall hx).elim (fun he => .inr ⟨r, he ▸ hr⟩) fun h => .inr ⟨x, h⟩

/-- Two variables exchange what they hold. -/
theorem swap_spec (hk : Kept s) (hx : s.call x = some a) (hy : s.call y = some b) :
    ∃ t, swap x y s = some t ∧ Kept t ∧ t.holders = s.holders ∧ t.objs = s.objs ∧
      t.call x = some b ∧ ∀ i, i ≠ x → i ≠ y → t.call i = s.call i := by
  by_cases hxy : x = y
  · subst hxy
    obtain rfl := Option.some.inj (hx.symm.trans hy)
    exact ⟨s, by simp [swap, hx], hk, rfl, rfl, hx, fun _ _ _ => rfl⟩
  · have hx' : (s.setCall y (some a)).call x = some a := by
      rw [call_setCall_of_ne (Ne.symm hxy), hx]
    have hholders : ((s.setCall y (some a)).setCall x (some b)).holders = s.holders := by
      funext i
      have h₁ := holders_setCall hy (some a) i
      have h₂ := holders_setCall hx' (some b) i
      simp only [Option.map_some, Option.getD_some] at h₁ h₂
      omega
    refine ⟨(s.setCall y (some a)).setCall x (some b), by simp [swap, hx, hy, hxy], ?_, hholders,
      rfl, call_setCall_self ?_, fun i hix hiy => ?_⟩
    · refine hk.step ?_ (Keeps.refl _) fun z d hz => .inr ?_
      · refine Exact.congr hk.owned fun i => ?_
        exact congrArg (0 + ·) (congrFun hholders i)
      · rcases call_setCall hz with he | hz
        · exact ⟨y, he ▸ hy⟩
        · rcases call_setCall hz with he | hz
          · exact ⟨x, he ▸ hx⟩
          · exact ⟨z, hz⟩
    · simpa [State.setCall] using call_lt hx
    · rw [call_setCall_of_ne (Ne.symm hix), call_setCall_of_ne (Ne.symm hiy)]

/-- A destroyed variable gives up what it held. -/
theorem destroy_spec (hk : Kept s) (hx : s.call x = some c)
    (hm : ∀ i, c.param = some i → (s.setCall x none).holders i ≤ maxCount) :
    ∃ o, destroy x s = some ({ s with objs := o }.setCall x none) ∧
      Kept ({ s with objs := o }.setCall x none) := by
  have hloose : Owned (s.setCall x none).store fun j => 0 + points c.param j := by
    rw [store_setCall]
    exact hk.owned.clearSlot (y := none) (ptr_store hx) rfl
  obtain ⟨o, hrel, hev, how⟩ := releasePtr_spec hloose fun i hi => by
    rw [Nat.zero_add]
    exact hm i hi
  have hrel' : releasePtr c.param s.objs = some (o, _) := hrel
  refine ⟨o, by simp [destroy, hx, hrel'], hk.step how hev.keeps fun y d hy => ?_⟩
  exact (call_setCall hy).elim (fun he => nomatch he) fun h => .inr ⟨y, h⟩

/-- An assigned copy: the temporary takes over what the variable held and gives it up. -/
theorem copyAssign_spec (hk : Kept s) (hb : ∀ i, s.holders i ≤ maxCount) (hx : s.call x = some a)
    (hr : s.call r = some c) :
    ∃ t, copyAssign x r s = some t ∧ Kept t ∧
      ∀ i, t.holders i + points a.param i = s.holders i + points c.param i := by
  obtain ⟨o, hcopy, hk₁⟩ := copyConstruct_spec hk hr
  have hlast : ({ s with objs := o }.newCall c).call s.calls.length = some c :=
    call_newCall_length (s := { s with objs := o })
  obtain ⟨s₂, hswap, hk₂, hholders₂, -, htemp, -⟩ := swap_spec hk₁ hlast (call_newCall_of hx)
  have hsum : ∀ i, (s₂.setCall s.calls.length none).holders i + points a.param i =
      s.holders i + points c.param i := by
    intro i
    have hset := holders_setCall htemp none i
    have hnew := holders_newCall (s := { s with objs := o }) c i
    rw [hholders₂, hnew] at hset
    simpa [State.holders] using hset
  obtain ⟨o', hdestroy, hk₃⟩ := destroy_spec hk₂ htemp fun i hi => by
    have h₁ := hsum i
    have h₂ := hb i
    have h₃ : points c.param i ≤ 1 := by
      rw [points]
      split <;> omega
    rw [hi, points_self] at h₁
    omega
  refine ⟨_, ?_, hk₃, hsum⟩
  simp only [copyAssign, hcopy, Option.bind_eq_bind, Option.bind_some]
  rw [hswap, Option.bind_some]
  exact hdestroy

/-- A moved variable holds its parameter once and has retained it twice. -/
theorem moveConstruct_counts (hk : Kept s) (hr : s.call r = some c) {i : ℕ}
    (hc : c.param = some i) (hm : moveConstruct r s = some t) : ¬Intact t := by
  intro hi
  obtain ⟨o, hret, rfl⟩ : ∃ o, retainPtr c.param s.objs = some o ∧
      t = { (s.newCall c).setCall r (some ⟨none, none⟩) with objs := o } := by
    simp only [moveConstruct, hr, Option.bind_eq_bind, Option.bind_some] at hm
    obtain ⟨o, hret, ht⟩ := Option.bind_eq_some_iff.mp hm
    exact ⟨o, hret, (Option.some.inj ht).symm⟩
  have hptr := ptr_store hr
  rw [hc] at hptr
  have hheld : 0 < s.holders i := held_pos hptr
  rw [hc] at hret
  obtain ⟨o', hret', hex, -⟩ := Exact.retain hk.exact hheld
  obtain rfl : o' = o := Option.some.inj (hret'.symm.trans hret)
  -- one more reference than holders
  have hsame : ((s.newCall c).setCall r (some ⟨none, none⟩)).holders i = s.holders i := by
    have hset := holders_setCall (call_newCall_of (c := c) hr) (some ⟨none, none⟩) i
    rw [holders_newCall] at hset
    simpa using hset
  obtain ⟨cell, hcell, hpn⟩ := hex.exists_cell (i := i) (by simp)
  have hcount := hi.count i cell hcell
  have hholders : ({ (s.newCall c).setCall r (some ⟨none, none⟩) with
      objs := o' } : State F V).holders i = s.holders i := hsame
  rw [hholders, hpn, single_self] at hcount
  have hmod : wrap32 ((s.holders i + 1 : ℕ) : ℤ) ≠ s.holders i := by
    simp only [wrap32, Int.bmod_def, Nat.reducePow, Nat.cast_ofNat, Nat.cast_add, Nat.cast_one]
    omega
  exact hmod hcount

/-- Moving an empty variable moves nothing. -/
theorem moveConstruct_null (hk : Kept s) (hr : s.call r = some c) (hc : c.param = none) :
    ∃ t, moveConstruct r s = some t ∧ Kept t ∧ t.holders = s.holders := by
  have hholders : ((s.newCall c).setCall r (some ⟨none, none⟩)).holders = s.holders := by
    funext i
    have hset := holders_setCall (call_newCall_of (c := c) hr) (some ⟨none, none⟩) i
    rw [holders_newCall] at hset
    simpa [hc] using hset
  refine ⟨(s.newCall c).setCall r (some ⟨none, none⟩), ?_, ?_, hholders⟩
  · simp [moveConstruct, hr, hc, retainPtr]
  · refine hk.step ?_ (Keeps.refl _) fun x d hx => ?_
    · exact Exact.congr hk.owned fun i => congrArg (0 + ·) (congrFun hholders i)
    · rcases call_setCall hx with he | hx
      · exact .inl (Option.some.inj he).symm
      · exact (call_newCall hx).elim (fun he => .inr ⟨r, he ▸ hr⟩) fun h => .inr ⟨x, h⟩

/-- A call runs the callable of its live parameter. -/
theorem invoke_spec [DecidableEq F] (hk : Kept s) (hx : s.call x = some c) :
    invoke x s = some s := by
  have hty := hk.typed x c hx
  cases hp : c.param with
  | none =>
    simp only [Call.Typed, hp] at hty
    simp [invoke, hx, hty]
  | some i =>
    simp only [Call.Typed, hp] at hty
    obtain ⟨cell, hcell, hrouting⟩ := hty
    simp [invoke, hx, hrouting, hp, proc, hcell]

/-- What an operation does: it keeps counts exact up to their width, and within it exactly
when the operation fits; moving what is not empty keeps nothing in order. -/
theorem step_spec [DecidableEq F] {op : Op F V} (hk : Kept s) (hb : ∀ i, s.holders i ≤ maxCount)
    (hr : Ready s op) :
    (∃ t, step s op = some t ∧ Kept t ∧ ((∀ i, t.holders i ≤ maxCount) ↔ Fits s op)) ∨
      ¬Fits s op ∧ ∀ t, step s op = some t → ¬Intact t := by
  cases op with
  | construct =>
    refine .inl ⟨_, rfl, kept_construct hk, iff_of_true (fun i => ?_) trivial⟩
    rw [holders_construct]
    exact hb i
  | constructFrom f v functor holder =>
    by_cases hboth : functor = true ∧ holder = true
    · obtain ⟨rfl, rfl⟩ := hboth
      refine .inl ⟨_, rfl, kept_constructFrom hk f v, iff_of_true (fun i => ?_) trivial⟩
      have hholders := holders_newCall (s := { s with objs := s.objs.create (f, v) })
        ⟨some f, some s.objs.created⟩ i
      have hle : s.holders i + points (some s.objs.created) i ≤ maxCount := by
        by_cases hnew : i = s.objs.created
        · -- no variable holds the new parameter yet
          rw [hnew, hk.exact.refs_created, points_self]
          decide
        · rw [points_some, single_of_ne hnew]
          exact hb i
      exact hholders.trans_le hle
    · have hnull : constructFrom f v functor holder s = construct s := by
        cases functor <;> cases holder <;> simp_all [constructFrom]
      refine .inl ⟨_, congrArg some hnull, kept_construct hk, iff_of_true (fun i => ?_) trivial⟩
      rw [holders_construct]
      exact hb i
  | copy r =>
    obtain ⟨c, hc⟩ := Option.isSome_iff_exists.mp hr
    obtain ⟨o, hcopy, hkt⟩ := copyConstruct_spec hk hc
    have hholders : ∀ i, ({ s with objs := o }.newCall c).holders i =
        s.holders i + points c.param i := holders_newCall (s := { s with objs := o }) c
    refine .inl ⟨_, hcopy, hkt, fun h c' hc' i hp => ?_, fun h i => ?_⟩
    · obtain rfl := Option.some.inj (hc.symm.trans hc')
      have := h i
      rwa [hholders, hp, points_self] at this
    · rw [hholders, points]
      split
      · exact h c hc i ‹_›
      · exact hb i
  | move r =>
    obtain ⟨c, hc⟩ := Option.isSome_iff_exists.mp hr
    cases hp : c.param with
    | none =>
      obtain ⟨t, ht, hkt, hholders⟩ := moveConstruct_null hk hc hp
      refine .inl ⟨t, ht, hkt, iff_of_true (hholders ▸ hb) fun c' hc' => ?_⟩
      obtain rfl := Option.some.inj (hc.symm.trans hc')
      exact hp
    | some i =>
      refine .inr ⟨fun h => ?_, fun t ht => moveConstruct_counts hk hc hp ht⟩
      rw [h c hc] at hp
      cases hp
  | assignCopy x r =>
    obtain ⟨a, ha⟩ := Option.isSome_iff_exists.mp hr.1
    obtain ⟨c, hc⟩ := Option.isSome_iff_exists.mp hr.2
    obtain ⟨t, ht, hkt, hsum⟩ := copyAssign_spec hk hb ha hc
    refine .inl ⟨t, ht, hkt, fun h a' ha' c' hc' i hp => ?_, fun h i => ?_⟩
    · obtain rfl := Option.some.inj (ha.symm.trans ha')
      obtain rfl := Option.some.inj (hc.symm.trans hc')
      by_cases hown : a.param = some i
      · exact .inl hown
      · refine .inr ?_
        have h₁ := h i
        have h₂ := hsum i
        rw [points, if_neg hown, hp, points_self] at h₂
        omega
    · have h₁ := hsum i
      have h₂ := hb i
      by_cases hp : c.param = some i
      · rw [hp, points_self] at h₁
        rcases h a ha c hc i hp with hown | hle
        · rw [hown, points_self] at h₁
          omega
        · omega
      · rw [points, points, if_neg hp] at h₁
        omega
  | assignMove x r =>
    obtain ⟨a, ha⟩ := Option.isSome_iff_exists.mp hr.1
    obtain ⟨c, hc⟩ := Option.isSome_iff_exists.mp hr.2
    obtain ⟨t, ht, hkt, hholders, -⟩ := swap_spec hk hc ha
    exact .inl ⟨t, ht, hkt, iff_of_true (hholders ▸ hb) trivial⟩
  | swap x y =>
    obtain ⟨a, ha⟩ := Option.isSome_iff_exists.mp hr.1
    obtain ⟨c, hc⟩ := Option.isSome_iff_exists.mp hr.2
    obtain ⟨t, ht, hkt, hholders, -⟩ := swap_spec hk ha hc
    exact .inl ⟨t, ht, hkt, iff_of_true (hholders ▸ hb) trivial⟩
  | invoke x =>
    obtain ⟨c, hc⟩ := Option.isSome_iff_exists.mp hr
    exact .inl ⟨s, invoke_spec hk hc, hk, iff_of_true hb trivial⟩
  | destroy x =>
    obtain ⟨c, hc⟩ := Option.isSome_iff_exists.mp hr
    have hle : ∀ i, (s.setCall x none).holders i ≤ maxCount := fun i => by
      have h₁ := holders_setCall hc none i
      have h₂ := hb i
      simp only [Option.map_none, Option.getD_none, points_none] at h₁
      omega
    obtain ⟨o, hdestroy, hkt⟩ := destroy_spec hk hc fun i _ => hle i
    exact .inl ⟨_, hdestroy, hkt, iff_of_true hle trivial⟩

/-- In a state in order, an operation is sound exactly when it fits, and then leaves the
state in order. -/
theorem sound_iff [DecidableEq F] {op : Op F V} (hk : Kept s) (hi : Intact s) (hr : Ready s op) :
    (Sound s op ↔ Fits s op) ∧
      (Sound s op → ∀ t, step s op = some t → Kept t ∧ Intact t) := by
  rcases step_spec hk ((intact_iff hk).mp hi) hr with ⟨t, ht, hkt, hfits⟩ | ⟨hfits, hnot⟩
  · rw [← intact_iff hkt] at hfits
    have hsound : Sound s op → Intact t := by
      rintro ⟨u, hu, hiu⟩
      obtain rfl := Option.some.inj (ht.symm.trans hu)
      exact hiu
    refine ⟨⟨fun h => hfits.mp (hsound h), fun h => ⟨t, ht, hfits.mpr h⟩⟩, fun h u hu => ?_⟩
    obtain rfl := Option.some.inj (ht.symm.trans hu)
    exact ⟨hkt, hsound h⟩
  · have hno : ¬Sound s op := fun ⟨t, ht, hit⟩ => hnot t ht hit
    exact ⟨iff_of_false hno hfits, fun h => absurd h hno⟩

end Steps

/-- A callable is copied, assigned, swapped and called through all of its holders. -/
def shared : List (Op Unit ℕ) :=
  [.constructFrom () 5 true true, .copy 0, .construct, .move 2, .assignCopy 2 1, .assignMove 3 0,
    .swap 1 2, .invoke 3, .destroy 0, .destroy 1, .destroy 2, .invoke 3, .destroy 3]

end KernelLib.JustACall
