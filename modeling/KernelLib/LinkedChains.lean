import Mathlib.Data.List.Nodup
import Mathlib.Logic.Function.Basic

/-!
# Chains of nodes

Nodes that each point at the next one or at nothing. A pointer leads to at
most one finite chain, so no node is on it twice, and a chain only depends
on what its own nodes point at.
-/

namespace KernelLib.LinkedChains

variable {ι : Type*} {next next' : ι → Option ι} {p : Option ι} {a : ι} {xs ys : List ι}

/-- The nodes from a pointer to the end. -/
def Chain (next : ι → Option ι) : Option ι → List ι → Prop
  | p, [] => p = none
  | p, a :: as => p = some a ∧ Chain next (next a) as

theorem Chain.congr (h : Chain next p xs) (hn : ∀ a ∈ xs, next' a = next a) :
    Chain next' p xs := by
  induction xs generalizing p with
  | nil => exact h
  | cons a as ih =>
    obtain ⟨rfl, has⟩ := h
    refine ⟨rfl, ?_⟩
    rw [hn a List.mem_cons_self]
    exact ih has fun b hb => hn b (List.mem_cons_of_mem a hb)

theorem Chain.unique (h : Chain next p xs) (h' : Chain next p ys) : xs = ys := by
  induction xs generalizing p ys with
  | nil =>
    obtain rfl : p = none := h
    cases ys with
    | nil => rfl
    | cons b bs => exact absurd h'.1 (by simp)
  | cons a as ih =>
    obtain ⟨rfl, has⟩ := h
    cases ys with
    | nil => exact absurd (show some a = none from h') (by simp)
    | cons b bs =>
      obtain ⟨hab, hbs⟩ := h'
      obtain rfl := Option.some.inj hab
      rw [ih has hbs]

/-- A chain goes on from each of its nodes. -/
theorem Chain.suffix (h : Chain next p (xs ++ a :: ys)) : Chain next (some a) (a :: ys) := by
  induction xs generalizing p with
  | nil =>
    obtain ⟨rfl, hys⟩ := h
    exact ⟨rfl, hys⟩
  | cons b bs ih => exact ih h.2

/-- A node that came back would begin two chains. -/
theorem Chain.nodup (h : Chain next p xs) : xs.Nodup := by
  induction xs generalizing p with
  | nil => exact List.nodup_nil
  | cons a as ih =>
    refine List.nodup_cons.mpr ⟨fun ha => ?_, ih h.2⟩
    obtain ⟨us, vs, rfl⟩ := List.append_of_mem ha
    have hagain : Chain next (some a) (a :: vs) := h.2.suffix
    have hfull : Chain next (some a) (a :: (us ++ a :: vs)) := ⟨rfl, h.2⟩
    have hlen := congrArg List.length (hfull.unique hagain)
    simp at hlen
    omega

/-- A node in front of a chain that it is not on. -/
theorem Chain.push [DecidableEq ι] (h : Chain next p xs) (ha : a ∉ xs) :
    Chain (Function.update next a p) (some a) (a :: xs) := by
  refine ⟨rfl, ?_⟩
  rw [Function.update_self]
  exact h.congr fun b hb => Function.update_of_ne (ne_of_mem_of_not_mem hb ha) ..

end KernelLib.LinkedChains
