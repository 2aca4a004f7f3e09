import Mathlib.Logic.Function.Basic
import KernelLib.StepRuns

/-!
# Sections under a lock

Threads share guarded data, which they touch in sections under a lock only,
and unguarded data, which they touch outside of them. A section is a list of
statements with local variables, and other threads may run between any two
of them. The statements are compared with a program whose sections are one
step each: whenever no thread is in a section, both reach the same states,
and a statement that fails belongs to a section that fails as a whole.
-/

namespace KernelLib.GuardedSections

open Function StepRuns

/-- A lock: an operation is `none` for a thread that has to wait, and for one that
must not release. -/
structure Lock (T : Type*) where
  /-- The states of the lock. -/
  State : Type
  /-- No thread has it. -/
  free : State
  /-- A thread has it. -/
  held : T → State
  /-- Take the lock. -/
  acquire : T → State → Option State
  /-- Give it back. -/
  release : T → State → Option State

/-- A thread that has the lock keeps all others out. -/
structure Lock.Exclusive {T : Type*} (k : Lock T) : Prop where
  acquire_free : ∀ t, k.acquire t k.free = some (k.held t)
  acquire_held : ∀ t u, u ≠ t → k.acquire u (k.held t) = none
  release_held : ∀ t, k.release t (k.held t) = some k.free

/-- A statement on the guarded data and the locals of a section. -/
abbrev Statement (G L : Type*) := G × L → Option (G × L)

/-- What threads do at each place `P` of their program, with a choice `A` that the
environment makes. -/
structure Program (G U P L A : Type*) where
  /-- The section a thread is in front of, with its locals; `none` outside of sections. -/
  enter : P → A → Option (L × List (Statement G L))
  /-- Where a thread goes on after a section. -/
  leave : P → L → P
  /-- What a thread does elsewhere. -/
  outside : P → A → U → Option (P × U)

/-- All data, and where each thread is. -/
structure Whole (T G U P : Type*) where
  /-- The guarded data. -/
  guarded : G
  /-- The unguarded data. -/
  shared : U
  /-- Where each thread is. -/
  pc : T → P

/-- The same with the lock and the sections that threads are in. -/
structure Split {T : Type*} (k : Lock T) (G U P L : Type*) extends Whole T G U P where
  /-- The lock. -/
  lock : k.State
  /-- The locals of a thread in a section, and the statements that it has still to run. -/
  inside : T → Option (L × List (Statement G L))

section Steps

variable {T G U P L A : Type*} {k : Lock T}

/-- Run statements one after the other. -/
def exec : List (Statement G L) → G × L → Option (G × L)
  | [], x => some x
  | st :: rest, x => (st x).bind (exec rest)

theorem exec_append (done rest : List (Statement G L)) (x : G × L) :
    exec (done ++ rest) x = (exec done x).bind (exec rest) := by
  induction done generalizing x with
  | nil => rfl
  | cons st done ih =>
    rw [List.cons_append, exec, exec, Option.bind_assoc]
    exact congrArg _ (funext ih)

variable [DecidableEq T]

/-- A thread goes on, with each section as one step. -/
def stepWhole (p : Program G U P L A) (c : Whole T G U P) : T × A → Option (Whole T G U P)
  | (t, a) =>
    match p.enter (c.pc t) a with
    | some (l, body) => (exec body (c.guarded, l)).map fun x =>
        { c with guarded := x.1, pc := update c.pc t (p.leave (c.pc t) x.2) }
    | none => (p.outside (c.pc t) a c.shared).map fun x =>
        { c with shared := x.2, pc := update c.pc t x.1 }

/-- A thread goes on, statement by statement. -/
def stepSplit (p : Program G U P L A) (f : Split k G U P L) : T × A → Option (Split k G U P L)
  | (t, a) =>
    match f.inside t with
    | some (l, st :: rest) => (st (f.guarded, l)).map fun x =>
        { f with guarded := x.1, inside := update f.inside t (some (x.2, rest)) }
    | some (l, []) => (k.release t f.lock).map fun m =>
        { f with
          lock := m
          pc := update f.pc t (p.leave (f.pc t) l)
          inside := update f.inside t none }
    | none =>
      match p.enter (f.pc t) a with
      | some (l, body) => (k.acquire t f.lock).map fun m =>
          { f with lock := m, inside := update f.inside t (some (l, body)) }
      | none => (p.outside (f.pc t) a f.shared).map fun x =>
          { f with shared := x.2, pc := update f.pc t x.1 }

/-- Nobody is in a section. -/
def Whole.rest (k : Lock T) (L : Type*) (c : Whole T G U P) : Split k G U P L :=
  { c with lock := k.free, inside := fun _ => none }

end Steps

section Atomic

variable {T G U P L A : Type*} [DecidableEq T] {k : Lock T} {p : Program G U P L A}
  {c c' : Whole T G U P} {f f' : Split k G U P L} {x : T × A}

/-- How the two programs are related: a section is done as a whole when its last
statement is. -/
inductive Behind (p : Program G U P L A) (c : Whole T G U P) : Split k G U P L → Prop
  /-- Nobody is in a section. -/
  | rest : Behind p c (c.rest k L)
  /-- One thread has the lock, and has run a part of its section. -/
  | within (u : T) (a : A) (l₀ l : L) (done todo : List (Statement G L)) (g : G)
      (hs : p.enter (c.pc u) a = some (l₀, done ++ todo))
      (hd : exec done (c.guarded, l₀) = some (g, l)) :
      Behind p c { c with
        guarded := g, lock := k.held u, inside := update (fun _ => none) u (some (l, todo)) }

/-- A step of a thread that is in no section, while nobody is. -/
theorem behind_rest (hk : k.Exclusive) (hs : stepSplit p (c.rest k L) x = some f') :
    Behind p c f' ∨ ∃ c', stepWhole p c x = some c' ∧ Behind p c' f' := by
  obtain ⟨t, a⟩ := x
  simp only [stepSplit, Whole.rest] at hs
  cases he : p.enter (c.pc t) a with
  | some y =>
    obtain ⟨l, body⟩ := y
    simp only [he, hk.acquire_free, Option.map_some, Option.some.injEq] at hs
    subst hs
    exact .inl (.within t a l l [] body c.guarded he rfl)
  | none =>
    simp only [he] at hs
    obtain ⟨y, hy, rfl⟩ := Option.map_eq_some_iff.mp hs
    exact .inr ⟨{ c with shared := y.2, pc := update c.pc t y.1 }, by simp [stepWhole, he, hy], .rest⟩

/-- A step while a thread is in its section: only that thread can touch the guarded data. -/
theorem behind_within (hk : k.Exclusive) {u : T} {a : A} {l₀ l : L}
    {done todo : List (Statement G L)} {g : G}
    (he : p.enter (c.pc u) a = some (l₀, done ++ todo))
    (hd : exec done (c.guarded, l₀) = some (g, l))
    (hs : stepSplit (k := k) p { c with
      guarded := g, lock := k.held u, inside := update (fun _ => none) u (some (l, todo)) } x =
        some f') :
    Behind p c f' ∨ ∃ y c', stepWhole p c y = some c' ∧ Behind p c' f' := by
  obtain ⟨t, b⟩ := x
  by_cases ht : t = u
  · subst ht
    simp only [stepSplit, update_self] at hs
    cases todo with
    | nil =>
      -- the lock is released, and the whole section is done
      simp only [hk.release_held, Option.map_some, Option.some.injEq, update_idem] at hs
      subst hs
      rw [List.append_nil] at he
      refine .inr ⟨(t, a), { c with guarded := g, pc := update c.pc t (p.leave (c.pc t) l) },
        by simp [stepWhole, he, hd], ?_⟩
      simpa [Whole.rest] using Behind.rest (k := k) (L := L) (p := p)
        (c := { c with guarded := g, pc := update c.pc t (p.leave (c.pc t) l) })
    | cons st todo =>
      obtain ⟨y, hy, rfl⟩ := Option.map_eq_some_iff.mp hs
      rw [update_idem]
      refine .inl (.within t a l₀ y.2 (done ++ [st]) todo y.1 (by simpa using he) ?_)
      rw [exec_append, hd]
      simp [exec, hy]
  · simp only [stepSplit, update_of_ne ht] at hs
    cases hb : p.enter (c.pc t) b with
    | some y => simp [hb, hk.acquire_held u t ht] at hs
    | none =>
      simp only [hb] at hs
      obtain ⟨y, hy, rfl⟩ := Option.map_eq_some_iff.mp hs
      refine .inr ⟨(t, b), { c with shared := y.2, pc := update c.pc t y.1 },
        by simp [stepWhole, hb, hy], ?_⟩
      exact .within (c := { c with shared := y.2, pc := update c.pc t y.1 }) u a l₀ l done todo g
        (by simpa [update_of_ne (Ne.symm ht)] using he) hd

/-- A step, statement by statement, is a step or nothing yet of the program with whole sections. -/
theorem behind_step (hk : k.Exclusive) (h : Behind p c f) (hs : stepSplit p f x = some f') :
    Behind p c f' ∨ ∃ y c', stepWhole p c y = some c' ∧ Behind p c' f' := by
  cases h with
  | rest =>
    rcases behind_rest hk hs with h | ⟨c', hc, h⟩
    · exact .inl h
    · exact .inr ⟨x, c', hc, h⟩
  | within u a l₀ l done todo g he hd => exact behind_within hk he hd hs

/-- So every state that the statements reach is a part of a section away from one that
whole sections reach. -/
theorem exists_behind (hk : k.Exclusive) (c : Whole T G U P)
    (h : Reachable (stepSplit p) (c.rest k L) f) :
    ∃ c', Reachable (stepWhole p) c c' ∧ Behind p c' f := by
  obtain ⟨as, hr⟩ := h
  refine run_invariant (I := fun f => ∃ c', Reachable (stepWhole p) c c' ∧ Behind p c' f) ?_
    ⟨c, ⟨[], rfl⟩, .rest⟩ hr
  rintro f x f' ⟨c', hc, hb⟩ hs
  rcases behind_step hk hb hs with hb | ⟨y, d, hd, hb⟩
  · exact ⟨c', hc, hb⟩
  · exact ⟨d, hc.snoc hd, hb⟩

/-- A thread runs the statements it has still to run. -/
theorem run_statements {t : T} {a : A} {l l' : L} {todo : List (Statement G L)} {g g' : G}
    (he : exec todo (g, l) = some (g', l')) {m : k.State} :
    Reachable (stepSplit p)
      { c with guarded := g, lock := m, inside := update (fun _ => none) t (some (l, todo)) }
      { c with guarded := g', lock := m, inside := update (fun _ => none) t (some (l', [])) } := by
  induction todo generalizing g l with
  | nil =>
    obtain ⟨rfl, rfl⟩ := Prod.mk.inj (Option.some.inj he)
    exact ⟨[], rfl⟩
  | cons st todo ih =>
    obtain ⟨y, hy, hrest⟩ := Option.bind_eq_some_iff.mp he
    obtain ⟨as, hr⟩ := ih (g := y.1) (l := y.2) hrest
    refine ⟨(t, a) :: as, run_cons.mpr ⟨_, ?_, hr⟩⟩
    simp [stepSplit, hy]

/-- A whole section can be taken, statement by statement. -/
theorem rest_step (hk : k.Exclusive) (hs : stepWhole p c x = some c') :
    Reachable (stepSplit p) (c.rest k L) (c'.rest k L) := by
  obtain ⟨t, a⟩ := x
  simp only [stepWhole] at hs
  cases he : p.enter (c.pc t) a with
  | some y =>
    obtain ⟨l, body⟩ := y
    simp only [he] at hs
    obtain ⟨z, hz, rfl⟩ := Option.map_eq_some_iff.mp hs
    obtain ⟨as, hr⟩ := run_statements (k := k) (p := p) (c := c) (t := t) (a := a) (m := k.held t) hz
    refine ⟨(t, a) :: (as ++ [(t, a)]), run_cons.mpr ⟨_, ?_, run_snoc.mpr ⟨_, hr, ?_⟩⟩⟩
    · simp [stepSplit, Whole.rest, he, hk.acquire_free]
    · simp [stepSplit, Whole.rest, hk.release_held]
  | none =>
    simp only [he] at hs
    obtain ⟨z, hz, rfl⟩ := Option.map_eq_some_iff.mp hs
    exact ⟨[(t, a)], run_cons.mpr ⟨_, by simp [stepSplit, Whole.rest, he, hz], rfl⟩⟩

/-- Whenever nobody is in a section, statements reach the states that whole sections reach. -/
theorem reachable_rest_iff (hk : k.Exclusive) (c c' : Whole T G U P) :
    Reachable (stepSplit p) (c.rest k L) (c'.rest k L) ↔ Reachable (stepWhole p) c c' := by
  constructor
  · intro h
    obtain ⟨d, hd, hb⟩ := exists_behind hk c h
    generalize hf : c'.rest k L = f at hb
    cases hb with
    | rest =>
      simp only [Whole.rest, Split.mk.injEq] at hf
      exact hf.1 ▸ hd
    | within u a l₀ l done todo g he hdone =>
      -- a thread in a section is seen by its locals
      have hi := congrArg (fun f => f.inside u) hf
      simp [Whole.rest] at hi
  · rintro ⟨as, hr⟩
    refine run_invariant (I := fun c' => Reachable (stepSplit p) (c.rest k L) (c'.rest k L)) ?_
      ⟨[], rfl⟩ hr
    rintro d x d' ⟨bs, hbs⟩ hs
    obtain ⟨cs, hcs⟩ := rest_step (k := k) (L := L) hk hs
    exact ⟨bs ++ cs, run_append.mpr ⟨_, hbs, hcs⟩⟩

/-- Where one place was filled, a filled place is that one. -/
theorem eq_of_isSome_update {α : Type*} {t u : T} {y : Option α}
    (h : (update (fun _ => none) u y t).isSome) : t = u := by
  by_contra hne
  simp [update_of_ne hne] at h

/-- The next statement of a thread in a section fails. -/
def Fails (f : Split k G U P L) (t : T) : Prop :=
  ∃ l st todo, f.inside t = some (l, st :: todo) ∧ st (f.guarded, l) = none

/-- A statement that fails is one of a section that fails as a whole. -/
theorem whole_fails (hk : k.Exclusive) (h : Reachable (stepSplit p) (c.rest k L) f) {t : T}
    (hf : Fails f t) : ∃ c' a l body, Reachable (stepWhole p) c c' ∧
      p.enter (c'.pc t) a = some (l, body) ∧ exec body (c'.guarded, l) = none := by
  obtain ⟨c', hc, hb⟩ := exists_behind hk c h
  obtain ⟨l₁, st, rest, hi, hst⟩ := hf
  cases hb with
  | rest => cases hi
  | within u a l₀ l done todo g he hd =>
    obtain rfl := eq_of_isSome_update (Option.isSome_of_eq_some hi)
    simp only [update_self, Option.some.injEq, Prod.mk.injEq] at hi
    obtain ⟨rfl, rfl⟩ := hi
    refine ⟨c', a, l₀, _, hc, he, ?_⟩
    rw [exec_append, hd, Option.bind_some, exec, hst, Option.bind_none]

/-- At most one thread is in a section. -/
theorem inside_unique (hk : k.Exclusive) (h : Reachable (stepSplit p) (c.rest k L) f) {t u : T}
    (ht : (f.inside t).isSome) (hu : (f.inside u).isSome) : t = u := by
  obtain ⟨c', -, hb⟩ := exists_behind hk c h
  cases hb with
  | rest => cases ht
  | within v => exact (eq_of_isSome_update ht).trans (eq_of_isSome_update hu).symm

/-- A thread in a section is never kept waiting there. -/
theorem inside_moves (hk : k.Exclusive) (h : Reachable (stepSplit p) (c.rest k L) f) {t : T}
    (ht : (f.inside t).isSome) : Fails f t ∨ ∀ a, ∃ f', stepSplit p f (t, a) = some f' := by
  obtain ⟨c', -, hb⟩ := exists_behind hk c h
  cases hb with
  | rest => cases ht
  | within u a l₀ l done todo g he hd =>
    obtain rfl := eq_of_isSome_update ht
    cases todo with
    | nil => exact .inr fun b => ⟨_, by simp [stepSplit, hk.release_held]; rfl⟩
    | cons st todo =>
      cases hst : st (g, l) with
      | none => exact .inl ⟨l, st, todo, by simp, hst⟩
      | some y => exact .inr fun b => ⟨_, by simp [stepSplit, hst]; rfl⟩

end Atomic

end KernelLib.GuardedSections
