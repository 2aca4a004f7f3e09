import KernelLib.SharedPtrCounts

/-!
# What exact counts mean

Read off from the invariant: how the counter of a block relates to the
handles that refer to it, who deletes an object and its counter, and which
handles may still name a block whose counter has reached zero.
-/

namespace KernelLib.SharedPtrExact

open SharedPtrSteps SharedPtrCounts ShareCounts StepRuns

variable {T H B : Type} [DecidableEq H] [DecidableEq B]

/-- The handles that refer to a block. -/
def refers (s : State T H B) (b : B) : Finset H := s.live.filter fun h => (s.handle h).pn = some b

/-- Those whose thread has not counted them yet, or not any more. -/
def inFlight (s : State T H B) (b : B) : Finset H :=
  (refers s b).filter fun h => loose (s.pc (s.owner h)) = some h

/-- A handle whose thread has made the decrement for it. -/
def Released (s : State T H B) (h : H) : Prop :=
  ∃ rest, s.pc (s.owner h) = .deleteObject h rest ∨ s.pc (s.owner h) = .deleteCounter h rest ∨
    s.pc (s.owner h) = .released h rest

/-- What is true of a block at every moment. -/
structure Exact (s : State T H B) (b : B) (k : Block T) : Prop where
  /-- Before `make_shared` returns, no handle refers to the counter, which is one until it is
  given up. -/
  unmade : k.object = .unmade → refers s b = ∅ ∧ k.zeroedBy = [] ∧ k.objectDeletedBy = [] ∧
    (k.counter = some 1 ∧ Making s b k.madeBy ∨ k.counter = none)
  /-- Until a decrement reaches zero, the counter is the number of handles that refer to
  the block, up to the steps in flight, and nothing is deleted. -/
  counted : k.object ≠ .unmade → k.zeroedBy = [] → k.object = .alive ∧ k.objectDeletedBy = [] ∧
    k.counterDeletedBy = [] ∧ ∃ n, k.counter = some (n + 1) ∧
      n + 1 + (inFlight s b).card = (refers s b).card
  /-- One decrement reaches zero. Its thread deletes the object and then the counter, once. -/
  deleted : k.zeroedBy ≠ [] → ∃ t, k.zeroedBy = [t] ∧
    (Deleting s b t ∧ k.object = .alive ∧ k.objectDeletedBy = [] ∧ k.counterDeletedBy = [] ∨
      Freeing s b t ∧ k.object = .deleted ∧ k.objectDeletedBy = [t] ∧ k.counterDeletedBy = [] ∨
      k.object = .deleted ∧ k.objectDeletedBy = [t] ∧ k.counterDeletedBy = [t] ∧ k.counter = none)
  /-- From then on, every handle that names the block has been released. -/
  released : k.zeroedBy ≠ [] → ∀ h ∈ refers s b, Released s h

section Reading

variable {s : State T H B} {h : H} {b : B} {k : Block T}

/-- The handles in flight are those without a share. -/
theorem shares_add_inFlight (s : State T H B) (b : B) :
    shares s b + (inFlight s b).card = (refers s b).card := by
  have hsplit := Finset.card_filter_add_card_filter_not (s := refers s b)
    (fun h => loose (s.pc (s.owner h)) = some h)
  have hshares : shares s b =
      ((refers s b).filter fun h => ¬loose (s.pc (s.owner h)) = some h).card := by
    rw [shares, count, holders, refers, Finset.filter_filter]
    refine congrArg Finset.card (Finset.filter_congr fun h _ => ?_)
    rw [share]
    split_ifs with hl <;> simp [hl]
  rw [hshares, inFlight, ← hsplit, Nat.add_comm]

/-- A handle that names a block without shares has been released. -/
theorem released_of_unshared (hi : Inv s) (hzero : shares s b = 0) (hm : h ∈ refers s b) :
    Released s h := by
  obtain ⟨hlive, hn⟩ := Finset.mem_filter.mp hm
  have hne : share s h ≠ some b := share_ne_of_count_eq_zero hzero hlive
  have hl : loose (s.pc (s.owner h)) = some h := by
    by_contra hl
    exact hne ((share_counted rfl hl).trans hn)
  have hcounted : ∀ r, r ≠ h → Owns s (s.owner h) r → (s.handle r).pn = some b → False := by
    intro r hr hown hrn
    refine share_ne_of_count_eq_zero hzero hown.1 ((share_counted hown.2 ?_).trans hrn)
    rw [hl]
    exact fun he => hr (Option.some.inj he).symm
  have hf := hi.facts (s.owner h)
  cases hp : s.pc (s.owner h) with
  | copied i r =>
    rw [hp] at hf hl
    obtain rfl := Option.some.inj hl
    exact (hcounted r hf.2.2.1.symm hf.2.1 (hf.2.2.2 ▸ hn)).elim
  | moved i r =>
    rw [hp] at hf hl
    obtain rfl := Option.some.inj hl
    exact (hcounted i hf.2.2.1 hf.1 (by rw [hf.2.2.2, hn])).elim
  | assigning i r tmp =>
    rw [hp] at hf hl
    obtain rfl := Option.some.inj hl
    exact (hcounted r hf.2.2.2.2.1.symm hf.2.1 (hf.2.2.2.2.2 ▸ hn)).elim
  | deleteObject i rest =>
    rw [hp] at hl
    obtain rfl := Option.some.inj hl
    exact ⟨rest, .inl hp⟩
  | deleteCounter i rest =>
    rw [hp] at hl
    obtain rfl := Option.some.inj hl
    exact ⟨rest, .inr (.inl hp)⟩
  | released i rest =>
    rw [hp] at hl
    obtain rfl := Option.some.inj hl
    exact ⟨rest, .inr (.inr hp)⟩
  | _ =>
    rw [hp] at hl
    cases hl

/-- The invariant says what is true of every block. -/
theorem exact_of_inv (hi : Inv s) (hk : s.block b = some k) : Exact s b k := by
  have hphase := hi.phase b
  have hsum := shares_add_inFlight s b
  have hreleased : shares s b = 0 → ∀ h ∈ refers s b, Released s h :=
    fun hzero h hm => released_of_unshared hi hzero hm
  have hempty : k.object = .unmade → refers s b = ∅ := by
    intro hu
    refine Finset.eq_empty_iff_forall_notMem.mpr fun h hm => ?_
    obtain ⟨hlive, hn⟩ := Finset.mem_filter.mp hm
    obtain ⟨k', hk', ho⟩ := (hi.sound h hlive).made b hn
    rw [hk] at hk'
    exact ho (Option.some.inj hk' ▸ hu)
  obtain ⟨n, hn⟩ : ∃ n, n = shares s b := ⟨_, rfl⟩
  rw [← hn, hk] at hphase
  rw [← hn] at hsum hreleased
  cases hphase with
  | making t busy => exact ⟨fun hu => ⟨hempty hu, rfl, rfl, .inl ⟨rfl, busy⟩⟩, by simp, by simp, by simp⟩
  | abandoned t => exact ⟨fun hu => ⟨hempty hu, rfl, rfl, .inr rfl⟩, by simp, by simp, by simp⟩
  | inUse m n => exact ⟨by simp, fun _ _ => ⟨rfl, rfl, rfl, n, rfl, hsum⟩, by simp, by simp⟩
  | deleting m t busy =>
    exact ⟨by simp, by simp, fun _ => ⟨t, rfl, .inl ⟨busy, rfl, rfl, rfl⟩⟩, fun _ => hreleased rfl⟩
  | freeing m t busy =>
    exact ⟨by simp, by simp, fun _ => ⟨t, rfl, .inr (.inl ⟨busy, rfl, rfl, rfl⟩)⟩,
      fun _ => hreleased rfl⟩
  | freed m t =>
    exact ⟨by simp, by simp, fun _ => ⟨t, rfl, .inr (.inr ⟨rfl, rfl, rfl, rfl⟩)⟩,
      fun _ => hreleased rfl⟩

end Reading

variable [DecidableEq T]

/-- No step of any run touches something deleted, and after every run the count of
every block is exact. -/
theorem counts_exact (owner : H → T) (acts : List (Act T H B))
    (hp : Along Permitted step (State.start owner) acts) :
    ∃ s, run step (State.start owner) acts = some s ∧ ∀ b k, s.block b = some k → Exact s b k := by
  obtain ⟨s, hs, hi⟩ := (inv_start owner).run hp
  exact ⟨s, hs, fun b k hk => exact_of_inv hi hk⟩

/-- Two threads that let go of the last two handles of an object, with their steps mixed. -/
def lastTwo : List (Act ℕ ℕ ℕ) :=
  [.call 0 (.make 0), .go 0 (some 7), .go 0 (some 7), .call 0 (.copy 1 0), .go 0 none, .give 1 1,
    .call 1 (.destroy 1), .call 0 (.destroy 0), .go 1 none, .go 0 none, .go 1 none, .go 0 none,
    .go 0 none, .go 0 none]

theorem counts_exact_lastTwo : ∃ s, run step (State.start fun _ => 0) lastTwo = some s ∧
    ∀ b k, s.block b = some k → Exact s b k :=
  counts_exact (fun _ => 0) lastTwo (by decide)

example : ((run step (State.start fun _ => 0) lastTwo).bind fun s => s.block 7) =
    some ⟨none, .deleted, 0, [0], [0], [0]⟩ := by
  decide

end KernelLib.SharedPtrExact
