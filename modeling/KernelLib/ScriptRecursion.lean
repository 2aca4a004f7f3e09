import KernelLib.HandleLedger
import Mathlib.Logic.Function.Iterate

/-!
# Recursive scripts

A script that calls itself is unrolled once for each answer and once more.
This is a fixed point when every call of itself comes behind an answer; what
one unrolling keeps, the recursion keeps. A loop over a list is `foldlM`.
-/

namespace KernelLib.ScriptRecursion

open HandleLedger

variable {C R α β γ : Type}

/-- A script that calls itself. -/
def recur (F : (α → Script C R β) → α → Script C R β) : α → Script C R β := fun a l as =>
  (F^[as.length + 1] fun _ _ _ => none) a l as

/-- A value, where there is one. -/
def given (o : Option α) : Script C R α := fun l as => o.map fun a => ((a, l), as)

section Rules

variable {F : (α → Script C R β) → α → Script C R β}

/-- What one unrolling keeps is kept, whatever else the conditions speak of. -/
theorem triple_recur {ι : Type} {P : ι → α → Ledger C R → Prop} {Q : ι → α → β → Ledger C R → Prop}
    (hF : ∀ f, (∀ i a, Triple (P i a) (f a) (Q i a)) → ∀ i a, Triple (P i a) (F f a) (Q i a))
    (i : ι) (a : α) : Triple (P i a) (recur F a) (Q i a) := by
  have hn : ∀ n i a, Triple (P i a) ((F^[n] fun _ _ _ => none) a) (Q i a) := fun n => by
    induction n with
    | zero => exact fun _ _ _ _ _ _ _ _ he => nomatch he
    | succ n ih =>
      rw [Function.iterate_succ_apply']
      exact hF _ ih
  exact fun l as => hn (as.length + 1) i a l as

/-- What each round keeps is kept by the loop. -/
theorem triple_foldlM {P : β → Ledger C R → Prop} {f : β → α → Script C R β} {as : List α}
    (hf : ∀ b, ∀ a ∈ as, Triple (P b) (f b a) P) (b : β) : Triple (P b) (as.foldlM f b) P := by
  induction as generalizing b with
  | nil => exact triple_pure fun _ h => h
  | cons a as ih =>
    rw [List.foldlM_cons]
    exact (hf b a List.mem_cons_self).bind
      (ih fun b a ha => hf b a (List.mem_cons_of_mem _ ha))

/-- A value that is given leaves the books. -/
theorem triple_given {P : Ledger C R → Prop} {o : Option α} :
    Triple P (given o) fun _ => P := by
  intro l as a l' as' hP he
  obtain ⟨a', -, he⟩ := Option.map_eq_some_iff.mp he
  obtain ⟨⟨-, rfl⟩, -⟩ : (a' = a ∧ l = l') ∧ as = as' := by simpa using he
  exact hP

end Rules

section Unrolled

variable {p p' : Script C R α} {f f' : α → Script C R β} {j k n : ℕ}

/-- A script that ends takes so many answers at least. -/
def Takes (k : ℕ) (p : Script C R α) : Prop :=
  ∀ l as a l' as', p l as = some ((a, l'), as') → as'.length + k ≤ as.length

/-- Two scripts do the same where there are fewer answers. -/
def Agree (n : ℕ) (p p' : Script C R α) : Prop := ∀ l as, as.length < n → p l as = p' l as

/-- Who takes so many answers takes fewer at least. -/
theorem Takes.mono (h : Takes k p) (hjk : j ≤ k) : Takes j p :=
  fun l as a l' as' he => Nat.le_trans (Nat.add_le_add_left hjk _) (h l as a l' as' he)

/-- A script that calls nothing takes no answers. -/
theorem takes_pure (a : α) : Takes 0 (pure a : Script C R α) := by
  intro l as b l' as' he
  have he' : some ((a, l), as) = some ((b, l'), as') := he
  obtain ⟨-, rfl⟩ : (a = b ∧ l = l') ∧ as = as' := by simpa using he'
  exact Nat.le_refl _

/-- A call takes one. -/
theorem takes_ask (c : C) : Takes 1 (ask c : Script C R R) := by
  intro l as r l' as' he
  cases as with
  | nil => cases he
  | cons r₀ as =>
    obtain ⟨-, rfl⟩ : (r₀ = r ∧ { l with log := l.log ++ [(c, r₀)] } = l') ∧ as = as' := by
      simpa [ask] using he
    exact Nat.le_refl _

/-- The books take none. -/
theorem takes_modifyGet (g : Ledger C R → α × Ledger C R) :
    Takes 0 (modifyGet g : Script C R α) := by
  intro l as a l' as' he
  have he' : some (g l, as) = some ((a, l'), as') := he
  obtain ⟨-, rfl⟩ : g l = (a, l') ∧ as = as' := by simpa using he'
  exact Nat.le_refl _

/-- Two scripts take the answers of both. -/
theorem Takes.bind (hp : Takes j p) (hf : ∀ a, Takes k (f a)) : Takes (j + k) (p >>= f) := by
  intro l as b l' as' he
  obtain ⟨⟨⟨a, l₁⟩, as₁⟩, h₁, h₂⟩ := Option.bind_eq_some_iff.mp he
  have hle₁ := hp l as a l₁ as₁ h₁
  have hle₂ := hf a l₁ as₁ b l' as' h₂
  omega

/-- A call with a handle takes one, too. -/
theorem takes_askOn (c : C) (h : Option ℕ) : Takes 1 (askOn c h : Script C R R) :=
  (takes_modifyGet _).bind fun _ => takes_ask c

/-- A loop over a list takes what its rounds take. -/
theorem takes_foldlM {f : β → γ → Script C R β} {cs : List γ} (hf : ∀ b c, Takes 0 (f b c))
    (b : β) : Takes 0 (cs.foldlM f b) := by
  induction cs generalizing b with
  | nil => exact takes_pure b
  | cons c cs ih =>
    rw [List.foldlM_cons]
    exact (hf b c).bind ih

/-- A script does the same as itself. -/
theorem Agree.refl (n : ℕ) (p : Script C R α) : Agree n p p := fun _ _ _ => rfl

/-- Behind a script that takes so many answers, fewer are left to agree for. -/
theorem Agree.behind (hp : Takes k p) (hf : ∀ a, Agree n (f a) (f' a)) :
    Agree (n + k) (p >>= f) (p >>= f') := by
  intro l as has
  change (p l as).bind _ = (p l as).bind _
  refine Option.bind_congr fun ⟨⟨a, l₁⟩, as₁⟩ h₁ => ?_
  have hle := hp l as a l₁ as₁ h₁
  exact hf a l₁ as₁ (by omega)

/-- Scripts that do the same one after the other do the same. -/
theorem Agree.bind (h : Agree n p p') (hp : Takes 0 p') (hf : ∀ a, Agree n (f a) (f' a)) :
    Agree n (p >>= f) (p' >>= f') := by
  intro l as has
  refine Eq.trans ?_ (Agree.behind hp hf l as has)
  change (p l as).bind _ = (p' l as).bind _
  rw [h l as has]

/-- Loops over a list do the same when their rounds do. -/
theorem agree_foldlM {f f' : β → γ → Script C R β} {cs : List γ}
    (hf : ∀ b c, Agree n (f b c) (f' b c)) (hf' : ∀ b c, Takes 0 (f' b c)) (b : β) :
    Agree n (cs.foldlM f b) (cs.foldlM f' b) := by
  induction cs generalizing b with
  | nil => exact Agree.refl n _
  | cons c cs ih =>
    rw [List.foldlM_cons, List.foldlM_cons]
    exact (hf b c).bind (hf' b c) ih

variable {F : (α → Script C R β) → α → Script C R β}

/-- A script calls itself behind an answer only. -/
structure Guarded (F : (α → Script C R β) → α → Script C R β) : Prop where
  takes : ∀ f, (∀ a, Takes 0 (f a)) → ∀ a, Takes 0 (F f a)
  agree : ∀ n f f', (∀ a, Takes 0 (f' a)) → (∀ a, Agree n (f a) (f' a)) →
    ∀ a, Agree (n + 1) (F f a) (F f' a)

/-- No unrolling gives answers back. -/
theorem Guarded.takes_iterate (h : Guarded F) (n : ℕ) (a : α) :
    Takes 0 ((F^[n] fun _ _ _ => none) a) := by
  induction n generalizing a with
  | zero => exact fun _ _ _ _ _ he => nomatch he
  | succ n ih =>
    rw [Function.iterate_succ_apply']
    exact h.takes _ ih a

/-- More unrollings change nothing where there are fewer answers. -/
theorem Guarded.agree_iterate (h : Guarded F) (n k : ℕ) (a : α) :
    Agree n ((F^[n] fun _ _ _ => none) a) ((F^[n + k] fun _ _ _ => none) a) := by
  induction n generalizing a with
  | zero => exact fun _ _ hlt => absurd hlt (Nat.not_lt_zero _)
  | succ n ih =>
    rw [Nat.succ_add, Function.iterate_succ_apply', Function.iterate_succ_apply']
    exact h.agree n _ _ (h.takes_iterate (n + k)) ih a

/-- So many unrollings do the same as the recursion. -/
theorem Guarded.agree_recur (h : Guarded F) (n : ℕ) (a : α) :
    Agree n ((F^[n] fun _ _ _ => none) a) (recur F a) := by
  intro l as has
  obtain ⟨k, rfl⟩ := Nat.exists_eq_add_of_le has
  exact (h.agree_iterate (as.length + 1) k a l as (Nat.lt_succ_self _)).symm

/-- A recursion never gives answers back. -/
theorem Guarded.takes_recur (h : Guarded F) (a : α) : Takes 0 (recur F a) :=
  fun l as => h.takes_iterate (as.length + 1) a l as

/-- There are unrollings enough: the recursion is what one more of them makes of it. -/
theorem recur_eq (h : Guarded F) : recur F = F (recur F) := by
  funext a l as
  change (F^[as.length + 1] fun _ _ _ => none) a l as = _
  rw [Function.iterate_succ_apply']
  exact h.agree as.length _ _ h.takes_recur (h.agree_recur as.length) a l as (Nat.lt_succ_self _)

end Unrolled

end KernelLib.ScriptRecursion
