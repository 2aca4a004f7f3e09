import KernelLib.ExclusiveOwners
import KernelLib.StepRuns

/-!
# The classes that own alone

`opt::CHandle` closes the handle it holds, `skl::unique_ptr` deletes the
object it points to. A copy and an assignment of a `CHandle` take the handle
away from the other one, and the handle that the left side had is closed. A
`unique_ptr` is assigned by a swap, so that its own object lives on in the
other pointer. Only `Attach` can overwrite a handle.
-/

namespace KernelLib.SoleOwners

open ExclusiveOwners StepRuns

variable {R : Type}

/-- A call on objects of `CHandle`. -/
inductive HandleCall (R : Type) where
  /-- `CHandle()`. -/
  | construct
  /-- `CHandle(CHandle&)`. -/
  | constructFrom (y : ℕ)
  /-- `CHandle(HANDLE)`. -/
  | wrap (h : Option R)
  /-- `~CHandle()`. -/
  | destroy (x : ℕ)
  /-- `operator=`. -/
  | assign (x y : ℕ)
  /-- `Attach`. -/
  | attach (x : ℕ) (h : Option R)
  /-- `Detach`. -/
  | detach (x : ℕ)
  /-- `Close`. -/
  | close (x : ℕ)
  deriving DecidableEq

/-- `CHandle::Close`. -/
def close (x : ℕ) (c : Custody R) : Option (Custody R) := do
  let (h, c) ← c.replace x none
  return c.dispose h

/-- `CHandle::Attach`. -/
def attach (x : ℕ) (h : Option R) (c : Custody R) : Option (Custody R) := do
  let (old, c) ← c.replace x h
  return c.lose old

/-- `CHandle::Detach`. -/
def detach (x : ℕ) (c : Custody R) : Option (Option R × Custody R) := c.replace x none

/-- `CHandle::operator=`. -/
def assign (x y : ℕ) (c : Custody R) : Option (Custody R) :=
  if x ≠ y then do
    let c ← close x c
    let (h, c) ← detach y c
    attach x h c
  else some c

/-- Perform a call. -/
def performHandle (c : Custody R) : HandleCall R → Option (Custody R)
  | .construct => some (c.create none)
  | .constructFrom y => do
    let (h, c) ← detach y c
    return c.create h
  | .wrap h => some ((c.enter h).create h)
  | .destroy x => do
    let (h, c) ← c.finish x
    return c.dispose h
  | .assign x y => assign x y c
  | .attach x h => attach x h (c.enter h)
  | .detach x => do
    let (h, c) ← detach x c
    return c.detach h
  | .close x => close x c

/-- `Attach` is called for an object that has no handle, as its assumption says. -/
def Unattached (c : Custody R) : HandleCall R → Prop
  | .attach x _ => c.content x = some none
  | _ => True

instance decidableUnattached [DecidableEq R] (c : Custody R) (m : HandleCall R) :
    Decidable (Unattached c m) :=
  match m with
  | .attach x _ => inferInstanceAs (Decidable (c.content x = some none))
  | .construct | .constructFrom _ | .wrap _ | .destroy _ | .assign _ _ | .detach _ | .close _ =>
    isTrue trivial

/-- A call on objects of `unique_ptr`. -/
inductive PointerCall (R : Type) where
  /-- `unique_ptr(T*)`. -/
  | construct (p : Option R)
  /-- `~unique_ptr()`. -/
  | destroy (x : ℕ)
  /-- `operator=`. -/
  | assign (x y : ℕ)
  /-- `swap`. -/
  | swap (x y : ℕ)
  /-- `detach`. -/
  | detach (x : ℕ)
  deriving DecidableEq

/-- Perform a call. -/
def performPointer (c : Custody R) : PointerCall R → Option (Custody R)
  | .construct p => some ((c.enter p).create p)
  | .destroy x => do
    let (p, c) ← c.finish x
    return c.dispose p
  | .assign x y => c.exchange y x
  | .swap x y => c.exchange x y
  | .detach x => do
    let (p, c) ← c.replace x none
    return c.detach p

section Steps

variable [DecidableEq R] {c c' : Custody R} {hand : List R} {x y : ℕ} {h : Option R}

/-- `Close` closes what it takes from the object. -/
theorem close_balanced (hb : c.Balanced hand) (hs : close x c = some c') : c'.Balanced hand := by
  obtain ⟨⟨old, c₁⟩, hr, hs⟩ := Option.bind_eq_some_iff.mp hs
  cases hs
  have hb₁ : c₁.Balanced (old.toList ++ hand) := Custody.Balanced.replace (o := none) hb hr
  exact hb₁.dispose

/-- `Attach` overwrites what the object has, at worst. -/
theorem attach_balanced (hb : c.Balanced (h.toList ++ hand)) (hs : attach x h c = some c') :
    c'.Balanced hand := by
  obtain ⟨⟨old, c₁⟩, hr, hs⟩ := Option.bind_eq_some_iff.mp hs
  cases hs
  exact (hb.replace hr).lose

/-- `Detach` hands out what the object has. -/
theorem detach_balanced (hb : c.Balanced hand) (hs : detach x c = some (h, c')) :
    c'.Balanced (h.toList ++ hand) := Custody.Balanced.replace (o := none) hb hs

/-- An assignment closes the one handle and moves the other. -/
theorem assign_balanced (hb : c.Balanced hand) (hs : assign x y c = some c') :
    c'.Balanced hand := by
  unfold assign at hs
  split_ifs at hs with hne
  · obtain ⟨c₁, h₁, hs⟩ := Option.bind_eq_some_iff.mp hs
    obtain ⟨⟨h, c₂⟩, h₂, hs⟩ := Option.bind_eq_some_iff.mp hs
    exact attach_balanced (detach_balanced (close_balanced hb h₁) h₂) hs
  · cases hs
    exact hb

/-- No call makes a handle appear or vanish. -/
theorem performHandle_balanced {m : HandleCall R} (hb : c.Balanced [])
    (hs : performHandle c m = some c') : c'.Balanced [] := by
  cases m with
  | construct =>
    cases hs
    exact Custody.Balanced.create (o := none) hb
  | constructFrom y =>
    obtain ⟨⟨h, c₁⟩, h₁, hs⟩ := Option.bind_eq_some_iff.mp hs
    cases hs
    exact (detach_balanced hb h₁).create
  | wrap h =>
    cases hs
    exact hb.enter.create
  | destroy x =>
    obtain ⟨⟨h, c₁⟩, h₁, hs⟩ := Option.bind_eq_some_iff.mp hs
    cases hs
    exact (hb.finish h₁).dispose
  | assign x y => exact assign_balanced hb hs
  | attach x h => exact attach_balanced hb.enter hs
  | detach x =>
    obtain ⟨⟨h, c₁⟩, h₁, hs⟩ := Option.bind_eq_some_iff.mp hs
    cases hs
    exact (detach_balanced hb h₁).detach
  | close x => exact close_balanced hb hs

/-- Nor does one on a `unique_ptr`. -/
theorem performPointer_balanced {m : PointerCall R} (hb : c.Balanced [])
    (hs : performPointer c m = some c') : c'.Balanced [] := by
  cases m with
  | construct p =>
    cases hs
    exact hb.enter.create
  | destroy x =>
    obtain ⟨⟨p, c₁⟩, h₁, hs⟩ := Option.bind_eq_some_iff.mp hs
    cases hs
    exact (hb.finish h₁).dispose
  | assign x y => exact hb.exchange hs
  | swap x y => exact hb.exchange hs
  | detach x =>
    obtain ⟨⟨p, c₁⟩, h₁, hs⟩ := Option.bind_eq_some_iff.mp hs
    cases hs
    exact (Custody.Balanced.replace (o := none) hb h₁).detach

omit [DecidableEq R] in
/-- `Close` leaves no handle in the object. -/
theorem close_lost (hs : close x c = some c') : c'.content x = some none ∧ c'.lost = c.lost := by
  obtain ⟨⟨old, c₁⟩, hr, hs⟩ := Option.bind_eq_some_iff.mp hs
  cases hs
  obtain ⟨-, hself, -, hlost⟩ := Custody.replace_spec hr
  exact ⟨hself, hlost⟩

omit [DecidableEq R] in
/-- An object without a handle has none to lose. -/
theorem attach_lost (hx : c.content x = some none) (hs : attach x h c = some c') :
    c'.lost = c.lost := by
  obtain ⟨⟨old, c₁⟩, hr, hs⟩ := Option.bind_eq_some_iff.mp hs
  cases hs
  obtain ⟨hold, -, -, hlost⟩ := Custody.replace_spec hr
  obtain rfl : old = none := Option.some.inj (hold.symm.trans hx)
  exact (List.append_nil _).trans hlost

omit [DecidableEq R] in
/-- Only `Attach` over a handle loses one. -/
theorem performHandle_lost {m : HandleCall R} (hm : Unattached c m)
    (hs : performHandle c m = some c') : c'.lost = c.lost := by
  cases m with
  | construct | wrap => cases hs; rfl
  | constructFrom y | detach y =>
    obtain ⟨⟨h, c₁⟩, h₁, hs⟩ := Option.bind_eq_some_iff.mp hs
    cases hs
    exact (Custody.replace_spec h₁).2.2.2
  | destroy x =>
    obtain ⟨⟨h, c₁⟩, h₁, hs⟩ := Option.bind_eq_some_iff.mp hs
    cases hs
    obtain ⟨old, -, he⟩ := Option.bind_eq_some_iff.mp h₁
    cases he
    rfl
  | assign x y =>
    change assign x y c = some c' at hs
    unfold assign at hs
    split_ifs at hs with hne
    · obtain ⟨c₁, h₁, hs⟩ := Option.bind_eq_some_iff.mp hs
      obtain ⟨⟨h, c₂⟩, h₂, hs⟩ := Option.bind_eq_some_iff.mp hs
      obtain ⟨hx, hlost₁⟩ := close_lost h₁
      obtain ⟨-, -, hothers, hlost₂⟩ := Custody.replace_spec h₂
      rw [attach_lost ((hothers x (Ne.symm hne)).trans hx) hs, hlost₂, hlost₁]
    · cases hs
      rfl
  | attach x h =>
    have hx : (c.enter h).content x = some none := hm
    have hlost := attach_lost hx hs
    exact hlost
  | close x => exact (close_lost hs).2

omit [DecidableEq R] in
/-- A `unique_ptr` loses nothing. -/
theorem performPointer_lost {m : PointerCall R} (hs : performPointer c m = some c') :
    c'.lost = c.lost := by
  cases m with
  | construct => cases hs; rfl
  | destroy x =>
    obtain ⟨⟨h, c₁⟩, h₁, hs⟩ := Option.bind_eq_some_iff.mp hs
    cases hs
    obtain ⟨old, -, he⟩ := Option.bind_eq_some_iff.mp h₁
    cases he
    rfl
  | assign x y | swap x y =>
    obtain ⟨p, -, hs⟩ := Option.bind_eq_some_iff.mp hs
    obtain ⟨q, -, hs⟩ := Option.bind_eq_some_iff.mp hs
    cases hs
    rfl
  | detach x =>
    obtain ⟨⟨h, c₁⟩, h₁, hs⟩ := Option.bind_eq_some_iff.mp hs
    cases hs
    exact (Custody.replace_spec h₁).2.2.2

end Steps

section Runs

variable [DecidableEq R] {c : Custody R}

/-- Handles given to objects are with one of them, closed, given away or overwritten, each as often
as it was given; where no handle is attached over another one, none is overwritten, so that all are
closed or given away once the objects are gone. -/
theorem handles_accounted {ms : List (HandleCall R)}
    (hrun : run performHandle Custody.empty ms = some c) :
    c.entered.Perm (c.held ++ c.gone) ∧ (c.entered.Nodup → (c.held ++ c.gone).Nodup) ∧
      (Along Unattached performHandle Custody.empty ms → c.lost = [] ∧
        ((∀ o ∈ c.owners, o = none) → c.entered.Perm (c.disposed ++ c.detached))) := by
  have hb := run_invariant (I := fun c => Custody.Balanced c [])
    (fun _ _ _ hi hs => performHandle_balanced hi hs) Custody.balanced_empty hrun
  refine ⟨hb.perm, hb.nodup, fun ha => ?_⟩
  have hlost := along_invariant (I := fun c : Custody R => c.lost = [])
    (fun _ _ _ hi hm hs => (performHandle_lost hm hs).trans hi) rfl ha hrun
  refine ⟨hlost, fun hall => ?_⟩
  have hp := hb.perm
  rwa [Custody.held_eq_nil hall, List.nil_append, Custody.gone, hlost, List.append_nil] at hp

/-- Two handles; one goes from the first object over a copy to a third, whose own is closed. -/
def handedOn : List (HandleCall ℕ) :=
  [.wrap (some 7), .constructFrom 0, .wrap (some 8), .assign 2 1, .attach 1 (some 9), .detach 1,
    .destroy 0, .destroy 1, .destroy 2]

/-- The handle 8 is closed by the assignment, 7 by a destructor. -/
theorem handles_accounted_handedOn : ∃ c, run performHandle Custody.empty handedOn = some c ∧
    c.entered.Perm (c.disposed ++ c.detached) ∧ c.disposed = [8, 7] ∧ c.detached = [9] := by
  have hrun : run performHandle Custody.empty handedOn =
      some ⟨[none, none, none], [7, 8, 9], [8, 7], [9], []⟩ := by decide
  refine ⟨_, hrun, ((handles_accounted hrun).2.2 ?_).2 (by decide), rfl, rfl⟩
  decide

/-- Objects given to pointers are held by one of them, deleted or given away, each as often as it
was given, whatever is assigned and swapped. An assignment deletes nothing: the pointer on the right
has the object of the left side then. -/
theorem pointers_accounted {ms : List (PointerCall R)}
    (hrun : run performPointer Custody.empty ms = some c) :
    c.entered.Perm (c.held ++ (c.disposed ++ c.detached)) ∧
      (c.entered.Nodup → (c.held ++ (c.disposed ++ c.detached)).Nodup) ∧
      ∀ x y c', performPointer c (.assign x y) = some c' →
        c'.content y = c.content x ∧ c'.content x = c.content y ∧ c'.disposed = c.disposed := by
  have hb := run_invariant (I := fun c => Custody.Balanced c [])
    (fun _ _ _ hi hs => performPointer_balanced hi hs) Custody.balanced_empty hrun
  have hlost := run_invariant (I := fun c : Custody R => c.lost = [])
    (fun _ _ _ hi hs => (performPointer_lost hs).trans hi) rfl hrun
  have hp := hb.perm
  rw [Custody.gone, hlost, List.append_nil] at hp
  exact ⟨hp, fun hc => hp.nodup_iff.mp hc, fun _ _ _ hs => Custody.exchange_spec hs⟩

/-- The object of the left side lives on behind an assignment, in the pointer on the right. -/
def swapped : List (PointerCall ℕ) :=
  [.construct (some 7), .construct (some 8), .assign 0 1, .destroy 0, .detach 1, .destroy 1]

/-- The object 8 is deleted with the first pointer, 7 is detached from the second. -/
theorem pointers_accounted_swapped : ∃ c, run performPointer Custody.empty swapped = some c ∧
    c.entered.Perm (c.held ++ (c.disposed ++ c.detached)) ∧
      c.disposed = [8] ∧ c.detached = [7] := by
  have hrun : run performPointer Custody.empty swapped =
      some ⟨[none, none], [7, 8], [8], [7], []⟩ := by decide
  exact ⟨_, hrun, (pointers_accounted hrun).1, rfl, rfl⟩

end Runs

end KernelLib.SoleOwners
