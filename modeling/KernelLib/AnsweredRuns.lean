import Mathlib.Logic.Basic

/-!
# Runs whose actions answer

A program takes actions one after the other and answers each of them. A
model takes every action it permits, and answers too. If one action keeps
the two related and gets the model's answer, a run gets all its answers.
-/

namespace KernelLib.AnsweredRuns

/-- Take the actions in order and collect the answers. -/
def calls {σ α ρ : Type*} (step : σ → α → Option (σ × ρ)) : σ → List α → Option (σ × List ρ)
  | s, [] => some (s, [])
  | s, a :: as => (step s a).bind fun x => (calls step x.1 as).map fun y => (y.1, x.2 :: y.2)

/-- What actions do, what they answer and where they are permitted. -/
structure Model (β α ρ : Type*) where
  /-- The state after an action. -/
  after : β → α → β
  /-- What an action answers. -/
  answer : β → α → ρ
  /-- An action is permitted in a state. -/
  Permits : β → α → Prop

namespace Model

variable {σ β α ρ : Type*} (M : Model β α ρ)

/-- The state after a run. -/
def final : β → List α → β := List.foldl M.after

/-- The answers along a run. -/
def answers : β → List α → List ρ
  | _, [] => []
  | b, a :: as => M.answer b a :: answers (M.after b a) as

/-- Each action is permitted when it comes. -/
def PermitsAll : β → List α → Prop
  | _, [] => True
  | b, a :: as => M.Permits b a ∧ PermitsAll (M.after b a) as

instance decidablePermitsAll [∀ b a, Decidable (M.Permits b a)] :
    ∀ b as, Decidable (M.PermitsAll b as)
  | _, [] => isTrue trivial
  | b, a :: as =>
    haveI : Decidable (M.PermitsAll (M.after b a) as) := decidablePermitsAll _ as
    inferInstanceAs (Decidable (_ ∧ _))

variable {M}

/-- A program whose actions answer like a model's answers like it along permitted runs. -/
theorem calls_answer {step : σ → α → Option (σ × ρ)} {R : σ → β → Prop}
    (hR : ∀ s b a, R s b → M.Permits b a →
      ∃ t, step s a = some (t, M.answer b a) ∧ R t (M.after b a))
    {s : σ} {b : β} {as : List α} (h : R s b) (hP : M.PermitsAll b as) :
    ∃ t, calls step s as = some (t, M.answers b as) ∧ R t (M.final b as) := by
  induction as generalizing s b with
  | nil => exact ⟨s, rfl, h⟩
  | cons a as ih =>
    obtain ⟨u, hu, hRu⟩ := hR s b a h hP.1
    obtain ⟨t, ht, hRt⟩ := ih hRu hP.2
    exact ⟨t, by rw [calls, hu, Option.bind_some, ht]; rfl, hRt⟩

end Model

end KernelLib.AnsweredRuns
