import Mathlib.Data.Finset.Max

/-!
# Walks over a changing set

A walk over an ordered set goes from each element to the next greater one,
and the set may change between two steps. Whatever the changes are, the walk
visits elements in ascending order, and once it ends it has visited every
element that was there at each step.
-/

namespace KernelLib.OrderedWalks

/-- Where a walk is. -/
inductive Walk (P : Type*) where
  /-- In front of the first element. -/
  | start
  /-- On an element. -/
  | on (p : P)
  /-- Past the last one. -/
  | ended
  deriving DecidableEq, Repr

/-- Where a walk is after a step to an element, or to none. -/
def Walk.after {P : Type*} : Option P → Walk P
  | some p => .on p
  | none => .ended

instance {P : Type*} (w : Walk P) : Decidable (∀ p, w ≠ .on p) :=
  match w with
  | .start => isTrue nofun
  | .on p => isFalse fun h => h p rfl
  | .ended => isTrue nofun

/-- The same place, by another name of the element. -/
def Walk.map {P Q : Type*} (f : P → Q) : Walk P → Walk Q
  | .start => .start
  | .on p => .on (f p)
  | .ended => .ended

theorem Walk.map_congr {P Q : Type*} {f g : P → Q} {w : Walk P} (h : ∀ p, w = .on p → f p = g p) :
    w.map f = w.map g := by
  cases w with
  | start => rfl
  | on p => exact congrArg Walk.on (h p rfl)
  | ended => rfl

variable {V : Type*} [LinearOrder V] {S : Finset V} {Ss : List (Finset V)} {u v : V} {w : Walk V}

/-- The least element. -/
def least (S : Finset V) : Option V := S.min

theorem least_eq_none : least S = none ↔ S = ∅ := Finset.min_eq_top

theorem least_eq_some : least S = some v ↔ v ∈ S ∧ ∀ u ∈ S, v ≤ u := by
  constructor
  · intro h
    exact ⟨Finset.mem_of_min h, fun u hu => Finset.min_le_of_eq hu h⟩
  · rintro ⟨hv, hle⟩
    have hmin : S.min = (v : WithTop V) :=
      le_antisymm (Finset.min_le hv) (Finset.le_min fun u hu => WithTop.coe_le_coe.mpr (hle u hu))
    exact hmin

/-- The elements that are still ahead. -/
def Walk.Ahead (v : V) : Walk V → Prop
  | .start => True
  | .on u => u < v
  | .ended => False

instance (v : V) : DecidablePred (Walk.Ahead v)
  | .start => inferInstanceAs (Decidable True)
  | .on u => inferInstanceAs (Decidable (u < v))
  | .ended => inferInstanceAs (Decidable False)

/-- The element a walk goes to. -/
def Walk.next (w : Walk V) (S : Finset V) : Option V := least (S.filter fun v => w.Ahead v)

theorem next_eq_none : w.next S = none ↔ ∀ v ∈ S, ¬w.Ahead v := by
  rw [Walk.next, least_eq_none, Finset.filter_eq_empty_iff]

theorem next_eq_some :
    w.next S = some v ↔ (v ∈ S ∧ w.Ahead v) ∧ ∀ u ∈ S, w.Ahead u → v ≤ u := by
  simp [Walk.next, least_eq_some]

/-- What comes after an element was ahead before. -/
theorem Walk.Ahead.trans (hu : w.Ahead u) (hv : (Walk.on u).Ahead v) : w.Ahead v := by
  cases w with
  | start => trivial
  | on x => exact lt_trans hu hv
  | ended => exact hu

/-- The steps of a walk, by the set at each of them. -/
def tour : Walk V → List (Finset V) → List (Option V)
  | _, [] => []
  | w, S :: Ss => w.next S :: tour (.after (w.next S)) Ss

/-- A walk visits what is ahead of it, in the set of the moment. -/
theorem mem_tour (h : some v ∈ tour w Ss) : w.Ahead v ∧ ∃ S ∈ Ss, v ∈ S := by
  induction Ss generalizing w with
  | nil => cases h
  | cons S Ss ih =>
    rcases List.mem_cons.mp h with hv | hv
    · obtain ⟨⟨hS, hahead⟩, -⟩ := next_eq_some.mp hv.symm
      exact ⟨hahead, S, List.mem_cons_self, hS⟩
    · obtain ⟨hahead, T, hT, hvT⟩ := ih hv
      refine ⟨?_, T, List.mem_cons_of_mem _ hT, hvT⟩
      cases hu : w.next S with
      | none =>
        rw [hu] at hahead
        exact hahead.elim
      | some u =>
        rw [hu] at hahead
        exact (next_eq_some.mp hu).1.2.trans hahead

/-- The elements visited ascend. -/
theorem tour_ascending : ((tour w Ss).filterMap id).Pairwise (· < ·) := by
  induction Ss generalizing w with
  | nil => exact List.Pairwise.nil
  | cons S Ss ih =>
    cases hu : w.next S with
    | none => simpa [tour, hu] using ih
    | some u =>
      simp only [tour, hu, List.filterMap_cons, id_eq, List.pairwise_cons]
      refine ⟨fun v hv => ?_, ih⟩
      obtain ⟨x, hx, rfl⟩ := List.mem_filterMap.mp hv
      exact (mem_tour hx).1

/-- A walk that ends has been to everything that stayed ahead of it. -/
theorem tour_complete (hend : none ∈ tour w Ss) (hv : ∀ S ∈ Ss, v ∈ S) (hw : w.Ahead v) :
    some v ∈ tour w Ss := by
  induction Ss generalizing w with
  | nil => cases hend
  | cons S Ss ih =>
    obtain ⟨hS, hSs⟩ := List.forall_mem_cons.mp hv
    cases hu : w.next S with
    | none => exact (next_eq_none.mp hu v hS hw).elim
    | some u =>
      rw [tour, hu] at hend ⊢
      rcases (next_eq_some.mp hu).2 v hS hw |>.eq_or_lt with rfl | hlt
      · exact List.mem_cons_self
      · have hrest : none ∈ tour (.on u) Ss := (List.mem_cons.mp hend).resolve_left nofun
        exact List.mem_cons_of_mem _ (ih hrest hSs hlt)

end KernelLib.OrderedWalks
