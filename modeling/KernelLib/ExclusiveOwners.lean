import Mathlib.Data.List.Count
import Mathlib.Data.List.Nodup

/-!
# Owners of one resource each

An owner holds a resource or none. Resources enter from outside, pass from
owner to owner, and leave when they are disposed of, detached or lost by
being overwritten. What is in hand between two steps of an operation is a
list of its own, so that each primitive step moves a resource from one list
to another, and an operation is proved by its steps.
-/

namespace KernelLib.ExclusiveOwners

/-- The owners, and what became of the resources. -/
structure Custody (R : Type) where
  /-- What each owner holds, if it is still there. -/
  owners : List (Option (Option R))
  /-- The resources that came from outside. -/
  entered : List R
  /-- Those that an owner gave back to the system. -/
  disposed : List R
  /-- Those that an owner gave to its caller. -/
  detached : List R
  /-- Those that were overwritten. -/
  lost : List R
  deriving DecidableEq

variable {R : Type}

namespace Custody

/-- No owners yet. -/
def empty : Custody R := ⟨[], [], [], [], []⟩

/-- What an owner holds. -/
def content (c : Custody R) (x : ℕ) : Option (Option R) := c.owners[x]?.join

/-- What the owners hold. -/
def held (c : Custody R) : List R := c.owners.flatMap fun o => o.join.toList

/-- An owner is given something, and what it held is in hand. -/
def replace (x : ℕ) (o : Option R) (c : Custody R) : Option (Option R × Custody R) := do
  let old ← c.content x
  return (old, { c with owners := c.owners.set x (some o) })

/-- Two owners change what they hold. -/
def exchange (x y : ℕ) (c : Custody R) : Option (Custody R) := do
  let p ← c.content x
  let q ← c.content y
  return { c with owners := (c.owners.set x (some q)).set y (some p) }

/-- An owner ends, and what it held is in hand. -/
def finish (x : ℕ) (c : Custody R) : Option (Option R × Custody R) := do
  let old ← c.content x
  return (old, { c with owners := c.owners.set x none })

/-- A new owner. -/
def create (o : Option R) (c : Custody R) : Custody R := { c with owners := c.owners ++ [some o] }

/-- A resource comes from outside. -/
def enter (o : Option R) (c : Custody R) : Custody R := { c with entered := c.entered ++ o.toList }

/-- A resource is given back to the system. -/
def dispose (o : Option R) (c : Custody R) : Custody R :=
  { c with disposed := c.disposed ++ o.toList }

/-- A resource is given to the caller. -/
def detach (o : Option R) (c : Custody R) : Custody R :=
  { c with detached := c.detached ++ o.toList }

/-- A resource is overwritten. -/
def lose (o : Option R) (c : Custody R) : Custody R :=
  { c with lost := c.lost ++ o.toList }

/-- The resources that left. -/
def gone (c : Custody R) : List R := c.disposed ++ (c.detached ++ c.lost)

/-- Each resource that came is in hand, with an owner or gone, as often as it came. -/
def Balanced [DecidableEq R] (c : Custody R) (hand : List R) : Prop :=
  ∀ r, c.entered.count r = hand.count r + c.held.count r + c.gone.count r

section Steps

variable [DecidableEq R] {c c' : Custody R} {hand : List R} {o old : Option R} {x : ℕ}

/-- Nothing came in, and nothing is held. -/
theorem balanced_empty : (empty : Custody R).Balanced [] := fun _ => rfl

omit [DecidableEq R] in
/-- What an owner holds, by the list of the owners. -/
theorem content_eq_some : c.content x = some old ↔ c.owners[x]? = some (some old) := by
  simp [content, Option.join_eq_some_iff]

/-- What an owner holds is apart from what the others hold. -/
theorem count_set (h : c.content x = some old) (o' : Option (Option R)) (r : R) :
    ((c.owners.set x o').flatMap fun o => o.join.toList).count r + old.toList.count r =
      c.held.count r + o'.join.toList.count r := by
  obtain ⟨hlt, hx⟩ := List.getElem?_eq_some_iff.mp (content_eq_some.mp h)
  have hsplit : c.owners = c.owners.take x ++ some old :: c.owners.drop (x + 1) := by
    rw [← hx, ← List.drop_eq_getElem_cons hlt, List.take_append_drop]
  have hheld : c.held.count r = ((c.owners.take x).flatMap fun o => o.join.toList).count r +
      (old.toList.count r + ((c.owners.drop (x + 1)).flatMap fun o => o.join.toList).count r) := by
    rw [held]
    conv_lhs => rw [hsplit]
    simp only [List.flatMap_append, List.flatMap_cons, List.count_append, Option.join_some]
  rw [hheld, List.set_eq_take_append_cons_drop, if_pos hlt]
  simp only [List.flatMap_append, List.flatMap_cons, List.count_append]
  omega

/-- What comes in is in hand. -/
theorem Balanced.enter (h : c.Balanced hand) : (c.enter o).Balanced (o.toList ++ hand) := by
  intro r
  have hr := h r
  change (c.entered ++ o.toList).count r = _ + c.held.count r + c.gone.count r
  rw [List.count_append, List.count_append]
  omega

/-- A new owner takes it from there. -/
theorem Balanced.create (h : c.Balanced (o.toList ++ hand)) : (c.create o).Balanced hand := by
  intro r
  have hr := h r
  have hheld : (c.create o).held = c.held ++ o.toList := by simp [held, Custody.create]
  change c.entered.count r = _ + _ + c.gone.count r
  rw [List.count_append] at hr
  rw [hheld, List.count_append]
  omega

/-- An owner takes what is in hand and leaves what it held. -/
theorem Balanced.replace (h : c.Balanced (o.toList ++ hand)) (hs : c.replace x o = some (old, c')) :
    c'.Balanced (old.toList ++ hand) := fun r => by
  obtain ⟨old', hold, he⟩ := Option.bind_eq_some_iff.mp hs
  cases he
  have hr := h r
  have hset := count_set hold (some o) r
  rw [List.count_append] at hr ⊢
  change c.entered.count r = _ + ((c.owners.set x (some o)).flatMap _).count r + c.gone.count r
  rw [Option.join_some] at hset
  omega

omit [DecidableEq R] in
/-- An owner holds what it was given. -/
theorem content_put (h : c.content x = some old) (o : Option R) :
    ({ c with owners := c.owners.set x (some o) } : Custody R).content x = some o := by
  obtain ⟨hlt, -⟩ := List.getElem?_eq_some_iff.mp (content_eq_some.mp h)
  exact content_eq_some.mpr (List.getElem?_set_self hlt)

omit [DecidableEq R] in
/-- The others hold what they held. -/
theorem content_put_of_ne {y : ℕ} (hne : x ≠ y) (o : Option (Option R)) :
    ({ c with owners := c.owners.set x o } : Custody R).content y = c.content y := by
  simp [content, List.getElem?_set_ne hne]

omit [DecidableEq R] in
/-- What becomes of the owners and the losses when one of them is given something. -/
theorem replace_spec (hs : c.replace x o = some (old, c')) : c.content x = some old ∧
    c'.content x = some o ∧ (∀ y, x ≠ y → c'.content y = c.content y) ∧ c'.lost = c.lost := by
  obtain ⟨old', hold, he⟩ := Option.bind_eq_some_iff.mp hs
  cases he
  exact ⟨hold, content_put hold o, fun y hne => content_put_of_ne hne (some o), rfl⟩

omit [DecidableEq R] in
/-- The second owner does not notice that the first one has what it holds. -/
theorem content_put_same {y : ℕ} {p q : Option R} (hp : c.content x = some p)
    (hq : c.content y = some q) :
    ({ c with owners := c.owners.set x (some q) } : Custody R).content y = some q := by
  by_cases hxy : x = y
  · rw [← hxy]
    exact content_put hp q
  · rw [content_put_of_ne hxy, hq]

omit [DecidableEq R] in
/-- Two owners that change what they hold give nothing back. -/
theorem exchange_spec {y : ℕ} (hs : c.exchange x y = some c') :
    c'.content x = c.content y ∧ c'.content y = c.content x ∧ c'.disposed = c.disposed := by
  obtain ⟨p, hp, hs⟩ := Option.bind_eq_some_iff.mp hs
  obtain ⟨q, hq, hs⟩ := Option.bind_eq_some_iff.mp hs
  cases hs
  have hy := content_put (content_put_same hp hq) p
  refine ⟨?_, hy.trans hp.symm, rfl⟩
  by_cases hxy : y = x
  · subst hxy
    exact hy.trans hp.symm
  · exact (content_put_of_ne hxy (some p)).trans ((content_put hp q).trans hq.symm)

/-- An exchange leaves nothing in hand. -/
theorem Balanced.exchange {y : ℕ} (h : c.Balanced hand) (hs : c.exchange x y = some c') :
    c'.Balanced hand := fun r => by
  obtain ⟨p, hp, hs⟩ := Option.bind_eq_some_iff.mp hs
  obtain ⟨q, hq, hs⟩ := Option.bind_eq_some_iff.mp hs
  cases hs
  have hy := content_put_same hp hq
  have hr := h r
  have hfirst := count_set hp (some q) r
  have hsecond := count_set hy (some p) r
  rw [Option.join_some] at hfirst hsecond
  change c.entered.count r = _ +
    (((c.owners.set x (some q)).set y (some p)).flatMap _).count r + c.gone.count r
  change (((c.owners.set x (some q)).set y (some p)).flatMap _).count r + _ =
    ((c.owners.set x (some q)).flatMap _).count r + _ at hsecond
  omega

/-- What an owner held is in hand once it ends. -/
theorem Balanced.finish (h : c.Balanced hand) (hs : c.finish x = some (old, c')) :
    c'.Balanced (old.toList ++ hand) := fun r => by
  obtain ⟨old', hold, he⟩ := Option.bind_eq_some_iff.mp hs
  cases he
  have hr := h r
  have hset := count_set hold none r
  rw [List.count_append]
  change c.entered.count r = _ + ((c.owners.set x none).flatMap _).count r + c.gone.count r
  rw [Option.join_none, Option.toList_none, List.count_nil] at hset
  omega

/-- What is in hand is given back. -/
theorem Balanced.dispose (h : c.Balanced (o.toList ++ hand)) : (c.dispose o).Balanced hand := by
  intro r
  have hr := h r
  change c.entered.count r = _ + c.held.count r +
    ((c.disposed ++ o.toList) ++ (c.detached ++ c.lost)).count r
  simp only [gone, List.count_append] at hr ⊢
  omega

/-- What is in hand is given to the caller. -/
theorem Balanced.detach (h : c.Balanced (o.toList ++ hand)) : (c.detach o).Balanced hand := by
  intro r
  have hr := h r
  change c.entered.count r = _ + c.held.count r +
    (c.disposed ++ ((c.detached ++ o.toList) ++ c.lost)).count r
  simp only [gone, List.count_append] at hr ⊢
  omega

/-- What is in hand is overwritten. -/
theorem Balanced.lose (h : c.Balanced (o.toList ++ hand)) : (c.lose o).Balanced hand := by
  intro r
  have hr := h r
  change c.entered.count r = _ + c.held.count r +
    (c.disposed ++ (c.detached ++ (c.lost ++ o.toList))).count r
  simp only [gone, List.count_append] at hr ⊢
  omega

/-- With empty hands, the resources that came are those with owners and those that are gone. -/
theorem Balanced.perm (h : c.Balanced []) : c.entered.Perm (c.held ++ c.gone) :=
  List.perm_iff_count.mpr fun r => by
    rw [List.count_append, h r, List.count_nil, Nat.zero_add]

/-- No resource is in two places, when none came twice. -/
theorem Balanced.nodup (h : c.Balanced []) (hc : c.entered.Nodup) : (c.held ++ c.gone).Nodup :=
  h.perm.nodup_iff.mp hc

omit [DecidableEq R] in
/-- Without owners nothing is held. -/
theorem held_eq_nil (h : ∀ o ∈ c.owners, o = none) : c.held = [] :=
  List.flatMap_eq_nil_iff.mpr fun o ho => by rw [h o ho]; rfl

end Steps

end Custody

end KernelLib.ExclusiveOwners
