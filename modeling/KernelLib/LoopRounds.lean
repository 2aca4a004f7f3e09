import Mathlib.Data.List.Forall2
import Mathlib.Data.Nat.Basic

/-!
# Loops by their rounds

A round of a loop fails, or finds the condition of the loop false, or goes on to
another state. A loop that stops has finitely many rounds; an index that grows
with each round and has a bound shows that it does, and a round that does not
move the index shows the opposite. What a loop visits are the states in which
its body was entered; a loop whose rounds another one follows visits states that
those of the other are related to.
-/

namespace KernelLib.LoopRounds

variable {σ : Type} {round : σ → Option (Option σ)} {index : σ → ℕ} {mayFail : Prop} {s t : σ}
  {n : ℕ}

/-- The loop, for so many rounds at most. -/
def loop (round : σ → Option (Option σ)) : ℕ → σ → Option σ
  | 0, _ => none
  | n + 1, s =>
    match round s with
    | none => none
    | some none => some s
    | some (some t) => loop round n t

/-- The states in which the body is entered, for so many rounds at most. -/
def visited (round : σ → Option (Option σ)) : ℕ → σ → Option (List σ)
  | 0, _ => none
  | n + 1, s =>
    match round s with
    | none => none
    | some none => some []
    | some (some t) => (visited round n t).map (s :: ·)

/-- The loop stops after finitely many rounds, and an index grows from each round
to the next. A loop that may fail can also stop by a failure. -/
inductive Stops (round : σ → Option (Option σ)) (index : σ → ℕ) (mayFail : Prop) : σ → Prop
  | done {s : σ} (h : round s = some none) : Stops round index mayFail s
  | fails {s : σ} (hf : mayFail) (h : round s = none) : Stops round index mayFail s
  | next {s t : σ} (h : round s = some (some t)) (hlt : index s < index t)
      (ht : Stops round index mayFail t) : Stops round index mayFail s

/-- A round that was made moved the index, and the rest stops. -/
theorem Stops.of_next (hs : Stops round index mayFail s) (h : round s = some (some t)) :
    index s < index t ∧ Stops round index mayFail t := by
  cases hs with
  | done h' => simp [h] at h'
  | fails _ h' => simp [h] at h'
  | next h' hlt ht =>
    obtain rfl : _ = t := Option.some.inj (Option.some.inj (h'.symm.trans h))
    exact ⟨hlt, ht⟩

/-- A loop that must not fail does not stop by a failure. -/
theorem Stops.ne_none (hs : Stops round index False s) : round s ≠ none := by
  cases hs with
  | done h => simp [h]
  | fails hf h => exact hf.elim
  | next h hlt ht => simp [h]

/-- An invariant under which each round moves an index that has a bound. -/
theorem stops_of_invariant {I : σ → Prop} {bound : ℕ} (hbound : ∀ s, I s → index s ≤ bound)
    (hround : ∀ s, I s → round s = some none ∨ mayFail ∧ round s = none ∨
      ∃ t, round s = some (some t) ∧ index s < index t ∧ I t) (hs : I s) :
    Stops round index mayFail s := by
  induction hn : bound - index s using Nat.strong_induction_on generalizing s with
  | _ n ih =>
    rcases hround s hs with hdone | ⟨hf, hnone⟩ | ⟨t, ht, hlt, hI⟩
    · exact .done hdone
    · exact .fails hf hnone
    · have := hbound t hI
      exact .next ht hlt (ih _ (by omega) hI rfl)

/-- A loop that stops comes to its end, whatever the bound on its rounds. -/
theorem Stops.exists_loop (hs : Stops round index False s) : ∃ n t, loop round n s = some t := by
  induction hs with
  | done h => exact ⟨1, _, by rw [loop, h]⟩
  | fails hf _ => exact hf.elim
  | next h _ _ ih =>
    obtain ⟨n, u, hu⟩ := ih
    exact ⟨n + 1, u, by rw [loop, h]; exact hu⟩

section Visits

variable {τ : Type} {round' : τ → Option (Option τ)} {R : σ → τ → Prop} {u : τ} {v : List σ}

/-- A loop that comes to its end has visited some states. -/
theorem exists_visited (h : loop round n s = some t) : ∃ v, visited round n s = some v := by
  induction n generalizing s with
  | zero => cases h
  | succ n ih =>
    rw [loop] at h
    rw [visited]
    cases hr : round s with
    | none => simp [hr] at h
    | some r =>
      cases r with
      | none => exact ⟨[], rfl⟩
      | some s' =>
        simp only [hr] at h
        obtain ⟨v, hv⟩ := ih h
        exact ⟨s :: v, by simp only [hv, Option.map_some]⟩

/-- Where one loop ends the other does, and where one goes on so does the other, to
a related state. What the other does when the one fails is not said. -/
structure Follows (round : σ → Option (Option σ)) (round' : τ → Option (Option τ))
    (R : σ → τ → Prop) : Prop where
  done : ∀ s u, R s u → round s = some none → round' u = some none
  next : ∀ s u t, R s u → round s = some (some t) → ∃ u', round' u = some (some u') ∧ R t u'

/-- The states that both loops visit are related one by one. -/
theorem Follows.visited (hf : Follows round round' R) (hR : R s u)
    (h : visited round n s = some v) : ∃ w, visited round' n u = some w ∧ List.Forall₂ R v w := by
  induction n generalizing s u v with
  | zero => cases h
  | succ n ih =>
    rw [LoopRounds.visited] at h ⊢
    cases hr : round s with
    | none => simp [hr] at h
    | some r =>
      cases r with
      | none =>
        simp only [hr, Option.some.injEq] at h
        rw [hf.done s u hR hr, ← h]
        exact ⟨[], rfl, .nil⟩
      | some t =>
        simp only [hr, Option.map_eq_some_iff] at h
        obtain ⟨v', hv', rfl⟩ := h
        obtain ⟨u', hu', hR'⟩ := hf.next s u t hR hr
        obtain ⟨w, hw, hall⟩ := ih hR' hv'
        exact ⟨u :: w, by simp only [hu', hw, Option.map_some], .cons hR hall⟩

end Visits

end KernelLib.LoopRounds
