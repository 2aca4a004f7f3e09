import Mathlib.Data.List.Basic

/-!
# Finite runs of a partial step function

A run folds a list of actions through a step that may refuse an action.
Invariants are packaged once: what one step keeps, every run keeps. The
guarded form carries a condition on each action together with the state
it is taken in, so a result can hold of exactly the runs that meet it.
-/

namespace KernelLib.StepRuns

variable {σ α : Type*}

/-- Perform the actions in order. One refused action refuses the run. -/
def run (step : σ → α → Option σ) : σ → List α → Option σ
  | s, [] => some s
  | s, a :: as => (step s a).bind fun t => run step t as

/-- Every action of the run is taken in a state where the guard allows it. -/
def Along (P : σ → α → Prop) (step : σ → α → Option σ) : σ → List α → Prop
  | _, [] => True
  | s, a :: as => P s a ∧ ∀ t, step s a = some t → Along P step t as

/-- Whether a guard holds along a run can be computed by making the run. -/
instance decidableAlong {P : σ → α → Prop} {step : σ → α → Option σ} [∀ s a, Decidable (P s a)] :
    ∀ s as, Decidable (Along P step s as)
  | _, [] => isTrue trivial
  | s, a :: as =>
    haveI : Decidable (∀ t, step s a = some t → Along P step t as) :=
      match h : step s a with
      | none => isTrue fun _ ht => by cases ht
      | some u =>
        haveI : Decidable (Along P step u as) := decidableAlong u as
        decidable_of_iff (Along P step u as) ⟨fun hu _ ht => Option.some.inj ht ▸ hu, fun hu => hu u rfl⟩
    inferInstanceAs (Decidable (_ ∧ _))

/-- The states that some run reaches from a given start. -/
def Reachable (step : σ → α → Option σ) (s t : σ) : Prop := ∃ as, run step s as = some t

variable {step : σ → α → Option σ} {P : σ → α → Prop} {s t : σ} {a : α}

@[simp] theorem run_nil (step : σ → α → Option σ) (s : σ) : run step s [] = some s := rfl

/-- A run that starts with an action performs it and goes on from its result. -/
theorem run_cons {as : List α} :
    run step s (a :: as) = some t ↔ ∃ u, step s a = some u ∧ run step u as = some t :=
  Option.bind_eq_some_iff

/-- A run splits at every point into a run and its continuation. -/
theorem run_append {as bs : List α} :
    run step s (as ++ bs) = some t ↔
      ∃ u, run step s as = some u ∧ run step u bs = some t := by
  induction as generalizing s with
  | nil => simp
  | cons a as ih =>
    rw [List.cons_append, run_cons]
    constructor
    · rintro ⟨u, hu, hr⟩
      obtain ⟨w, hw, hb⟩ := ih.mp hr
      exact ⟨w, run_cons.mpr ⟨u, hu, hw⟩, hb⟩
    · rintro ⟨w, hw, hb⟩
      obtain ⟨u, hu, hr⟩ := run_cons.mp hw
      exact ⟨u, hu, ih.mpr ⟨w, hr, hb⟩⟩

/-- One more action at the end of a run is one more step from its last state. -/
theorem run_snoc {as : List α} :
    run step s (as ++ [a]) = some t ↔ ∃ u, run step s as = some u ∧ step u a = some t := by
  rw [run_append]
  simp [run_cons]

/-- A reachable state stays reachable through one more step. -/
theorem Reachable.snoc {u : σ} (h : Reachable step s t) (ht : step t a = some u) :
    Reachable step s u := by
  obtain ⟨as, hr⟩ := h
  exact ⟨as ++ [a], run_snoc.mpr ⟨t, hr, ht⟩⟩

/-- What every step keeps, every run keeps. -/
theorem run_invariant {I : σ → Prop} (hI : ∀ s a t, I s → step s a = some t → I t)
    {as : List α} (hs : I s) (h : run step s as = some t) : I t := by
  induction as generalizing s with
  | nil => exact Option.some.inj h ▸ hs
  | cons a as ih =>
    obtain ⟨u, hu, hr⟩ := run_cons.mp h
    exact ih (hI s a u hs hu) hr

/-- What every step kept by the guard keeps, every guarded run keeps. -/
theorem along_invariant {I : σ → Prop} (hI : ∀ s a t, I s → P s a → step s a = some t → I t)
    {as : List α} (hs : I s) (hP : Along P step s as) (h : run step s as = some t) : I t := by
  induction as generalizing s with
  | nil => exact Option.some.inj h ▸ hs
  | cons a as ih =>
    obtain ⟨u, hu, hr⟩ := run_cons.mp h
    exact ih (hI s a u hs hP.1 hu) (hP.2 u hu) hr

/-- Where a guarded step succeeds and keeps an invariant, so does a guarded run. -/
theorem exists_run {I : σ → Prop} (hI : ∀ s a, I s → P s a → ∃ t, step s a = some t ∧ I t)
    {as : List α} (hs : I s) (hP : Along P step s as) : ∃ t, run step s as = some t ∧ I t := by
  induction as generalizing s with
  | nil => exact ⟨s, rfl, hs⟩
  | cons a as ih =>
    obtain ⟨u, hu, hIu⟩ := hI s a hs hP.1
    obtain ⟨t, ht, hIt⟩ := ih hIu (hP.2 u hu)
    exact ⟨t, run_cons.mpr ⟨u, hu, ht⟩, hIt⟩

/-- States stay related to those of a function that takes every action, in each
run that a guard on the latter allows. -/
theorem exists_run_simulating {β : Type*} {R : σ → β → Prop} {f : β → α → β} {Q : β → α → Prop}
    (hR : ∀ s b a, R s b → Q b a → ∃ t, step s a = some t ∧ R t (f b a)) {as : List α} {b : β}
    (h : R s b) (hQ : Along Q (fun b a => some (f b a)) b as) :
    ∃ t, run step s as = some t ∧ R t (as.foldl f b) := by
  induction as generalizing s b with
  | nil => exact ⟨s, rfl, h⟩
  | cons a as ih =>
    obtain ⟨u, hu, hRu⟩ := hR s b a h hQ.1
    obtain ⟨t, ht, hRt⟩ := ih hRu (hQ.2 _ rfl)
    exact ⟨t, run_cons.mpr ⟨u, hu, ht⟩, hRt⟩

/-- A guard that the invariant implies holds along a run of steps that keep it. -/
theorem along_of_invariant {I : σ → Prop} {Q : σ → α → Prop}
    (hI : ∀ s a, I s → P s a → Q s a ∧ ∀ t, step s a = some t → I t) {as : List α} (hs : I s)
    (hP : Along P step s as) : Along Q step s as := by
  induction as generalizing s with
  | nil => trivial
  | cons a as ih =>
    obtain ⟨hQ, hnext⟩ := hI s a hs hP.1
    exact ⟨hQ, fun t ht => ih (hnext t ht) (hP.2 t ht)⟩

/-- Two guards that agree on every step taken, as long as one of them keeps the
invariant, agree along a completed run. -/
theorem along_iff_of_invariant {I : σ → Prop} {Q R : σ → α → Prop}
    (hI : ∀ s a t, I s → P s a → step s a = some t → (Q s a ↔ R s a) ∧ (Q s a → I t))
    {as : List α} (hs : I s) (hP : Along P step s as) (h : run step s as = some t) :
    Along Q step s as ↔ Along R step s as := by
  induction as generalizing s with
  | nil => exact Iff.rfl
  | cons a as ih =>
    obtain ⟨u, hu, hr⟩ := run_cons.mp h
    obtain ⟨hQR, hkeep⟩ := hI s a u hs hP.1 hu
    have hrest : Q s a → (Along Q step u as ↔ Along R step u as) := fun hq =>
      ih (hkeep hq) (hP.2 u hu) hr
    simp only [Along, hu, Option.some.injEq, forall_eq', ← hQR]
    exact and_congr_right hrest

/-- Two guards that agree wherever an invariant holds, which one of them keeps,
agree along every run, completed or not. -/
theorem along_iff_of_step {I : σ → Prop} {Q R : σ → α → Prop}
    (hI : ∀ s a, I s → P s a → (Q s a ↔ R s a) ∧ (Q s a → ∀ t, step s a = some t → I t))
    {as : List α} (hs : I s) (hP : Along P step s as) : Along Q step s as ↔ Along R step s as := by
  induction as generalizing s with
  | nil => exact Iff.rfl
  | cons a as ih =>
    obtain ⟨hQR, hkeep⟩ := hI s a hs hP.1
    have hrest : Q s a → ((∀ t, step s a = some t → Along Q step t as) ↔
        ∀ t, step s a = some t → Along R step t as) := fun hq =>
      forall_congr' fun t => forall_congr' fun ht => ih (hkeep hq t ht) (hP.2 t ht)
    simp only [Along, ← hQR]
    exact and_congr_right hrest

/-- A condition on the actions alone. -/
theorem along_of_forall {Q : α → Prop} {as : List α} (h : ∀ a ∈ as, Q a) :
    Along (fun _ a => Q a) step s as := by
  induction as generalizing s with
  | nil => trivial
  | cons a as ih =>
    exact ⟨h a List.mem_cons_self, fun _ _ => ih fun b hb => h b (List.mem_cons_of_mem a hb)⟩

/-- In a completed run such a condition holds of every action. -/
theorem along_iff_forall {Q : α → Prop} {as : List α} (h : run step s as = some t) :
    Along (fun _ a => Q a) step s as ↔ ∀ a ∈ as, Q a := by
  refine ⟨fun hQ => ?_, along_of_forall⟩
  induction as generalizing s with
  | nil => simp
  | cons a as ih =>
    obtain ⟨u, hu, hr⟩ := run_cons.mp h
    exact List.forall_mem_cons.mpr ⟨hQ.1, ih hr (hQ.2 u hu)⟩

/-- Two guards are one. -/
theorem along_and {Q : σ → α → Prop} {as : List α} :
    Along (fun s a => P s a ∧ Q s a) step s as ↔ Along P step s as ∧ Along Q step s as := by
  induction as generalizing s with
  | nil => simp [Along]
  | cons a as ih =>
    simp only [Along, ih]
    constructor
    · rintro ⟨⟨hp, hq⟩, hrest⟩
      exact ⟨⟨hp, fun t ht => (hrest t ht).1⟩, hq, fun t ht => (hrest t ht).2⟩
    · rintro ⟨⟨hp, hps⟩, hq, hqs⟩
      exact ⟨⟨hp, hq⟩, fun t ht => ⟨hps t ht, hqs t ht⟩⟩

/-- A guard that fails along a completed run fails at one of its actions. -/
theorem exists_of_not_along {as : List α} (h : run step s as = some t)
    (hn : ¬Along P step s as) :
    ∃ pre a post u w, as = pre ++ a :: post ∧ run step s pre = some u ∧ ¬P u a ∧
      step u a = some w ∧ run step w post = some t := by
  induction as generalizing s with
  | nil => exact absurd trivial hn
  | cons a as ih =>
    obtain ⟨u, hu, hr⟩ := run_cons.mp h
    by_cases hp : P s a
    · have hrest : ¬Along P step u as := by
        intro hg
        refine hn ⟨hp, fun v hv => ?_⟩
        rw [hu] at hv
        exact Option.some.inj hv ▸ hg
      obtain ⟨pre, b, post, v, w, he, hpre, hb, hv, hw⟩ := ih hr hrest
      exact ⟨a :: pre, b, post, v, w, by rw [he]; rfl, run_cons.mpr ⟨u, hu, hpre⟩, hb, hv, hw⟩
    · exact ⟨[], a, as, s, u, rfl, rfl, hp, hu, hr⟩

/-- A guard holds along a run and its continuation. -/
theorem along_append {as bs : List α} :
    Along P step s (as ++ bs) ↔
      Along P step s as ∧ ∀ t, run step s as = some t → Along P step t bs := by
  induction as generalizing s with
  | nil => simp [Along]
  | cons a as ih =>
    simp only [List.cons_append, Along, ih, run_cons]
    constructor
    · rintro ⟨ha, h⟩
      exact ⟨⟨ha, fun u hu => (h u hu).1⟩, fun t ⟨u, hu, ht⟩ => (h u hu).2 t ht⟩
    · rintro ⟨⟨ha, h⟩, hbs⟩
      exact ⟨ha, fun u hu => ⟨h u hu, fun t ht => hbs t ⟨u, hu, ht⟩⟩⟩

/-- A function of the state that a step commutes with commutes with runs. -/
theorem run_map {τ : Type*} {step' : τ → α → Option τ} {f : σ → τ}
    (h : ∀ s a, step' (f s) a = (step s a).map f) (s : σ) (as : List α) :
    run step' (f s) as = (run step s as).map f := by
  induction as generalizing s with
  | nil => rfl
  | cons a as ih =>
    rw [run, run, h]
    cases step s a with
    | none => rfl
    | some u => exact ih u

end KernelLib.StepRuns
