import KernelLib.ShareCounts
import KernelLib.SharedPtrSteps

/-!
# The counts of shared pointers are exact

A handle that refers to a block has a share in it, except while its thread is
between the write of its fields and the increment, between the decrement and
the end of its life, or between a move and the clearing of the fields it was
moved from. The counter is the number of shares between any two steps. A
thread that is about to delete something owns the block alone, so the steps
of the others do not reach it.
-/

namespace KernelLib.SharedPtrCounts

open SharedPtrSteps ShareCounts StepRuns Word32 Function

variable {T H B : Type}

/-- The handle whose reference is not counted while its thread is there. -/
def loose : Pc H B → Option H
  | .copied h _ | .deleteObject h _ | .deleteCounter h _ | .released h _ => some h
  | .moved _ r => some r
  | .assigning _ _ tmp => some tmp
  | .idle | .newCounter _ | .newObject _ _ | .deleteRef _ _ | .assigned _ _ | .dec _ _ => none

@[simp] theorem loose_idle : loose (.idle : Pc H B) = none := rfl

/-- A thread that released an object has its pointer in hand. -/
@[simp] theorem loose_released (h : H) (rest : Rest H) :
    loose (.released h rest : Pc H B) = some h := rfl

/-- A thread is in `make_shared` with a counter. -/
def Making (s : State T H B) (b : B) (t : T) : Prop :=
  ∃ h, s.pc t = .newObject h b ∨ s.pc t = .deleteRef h b

/-- A thread has brought a counter to zero and deletes the object. -/
def Deleting (s : State T H B) (b : B) (t : T) : Prop :=
  ∃ h rest, s.pc t = .deleteObject h rest ∧ Owns s t h ∧ (s.handle h).pn = some b

/-- A thread has deleted the object and deletes the counter. -/
def Freeing (s : State T H B) (b : B) (t : T) : Prop :=
  ∃ h rest, s.pc t = .deleteCounter h rest ∧ Owns s t h ∧ (s.handle h).pn = some b

/-- A thread has a block for itself. -/
def Busy (s : State T H B) (b : B) (t : T) : Prop := Making s b t ∨ Deleting s b t ∨ Freeing s b t

/-- What a call of `dec` goes on to. -/
def RestFacts (s : State T H B) (t : T) (h : H) : Rest H → Prop
  | .leave => True
  | .take r => Owns s t r ∧ h ≠ r

/-- What holds where a thread is. -/
def Facts (s : State T H B) (t : T) : Pc H B → Prop
  | .idle => True
  | .newCounter h => Owns s t h ∧ s.handle h = .null
  | .newObject h b | .deleteRef h b => Owns s t h ∧ s.handle h = .null ∧
    s.block b = some ⟨some 1, .unmade, t, [], [], []⟩
  | .copied h r | .moved h r => Owns s t h ∧ Owns s t r ∧ h ≠ r ∧ s.handle h = s.handle r
  | .assigning h r tmp => Owns s t h ∧ Owns s t r ∧ Owns s t tmp ∧ tmp ≠ h ∧ tmp ≠ r ∧
    s.handle tmp = s.handle r
  | .assigned h tmp => Owns s t h ∧ Owns s t tmp ∧ tmp ≠ h
  | .dec h rest | .released h rest => Owns s t h ∧ RestFacts s t h rest
  | .deleteObject h rest => Owns s t h ∧ RestFacts s t h rest ∧ ∃ b m,
    s.handle h = ⟨some b, some b⟩ ∧ s.block b = some ⟨some 0, .alive, m, [t], [], []⟩
  | .deleteCounter h rest => Owns s t h ∧ RestFacts s t h rest ∧ ∃ b m,
    s.handle h = ⟨some b, some b⟩ ∧ s.block b = some ⟨some 0, .deleted, m, [t], [t], []⟩

/-- The life of a block that has a number of shares. -/
inductive Phase (s : State T H B) (b : B) : ℕ → Option (Block T) → Prop
  /-- Not allocated. -/
  | unused : Phase s b 0 none
  /-- In `make_shared`. -/
  | making (t : T) (busy : Making s b t) :
    Phase s b 0 (some ⟨some 1, .unmade, t, [], [], []⟩)
  /-- Given up, because there was no memory for the object. -/
  | abandoned (t : T) : Phase s b 0 (some ⟨none, .unmade, t, [], [], [t]⟩)
  /-- In use. -/
  | inUse (m : T) (n : ℕ) : Phase s b (n + 1) (some ⟨some (n + 1), .alive, m, [], [], []⟩)
  /-- Before the deletion of the object. -/
  | deleting (m t : T) (busy : Deleting s b t) :
    Phase s b 0 (some ⟨some 0, .alive, m, [t], [], []⟩)
  /-- Before the deletion of the counter. -/
  | freeing (m t : T) (busy : Freeing s b t) :
    Phase s b 0 (some ⟨some 0, .deleted, m, [t], [t], []⟩)
  /-- Deleted. -/
  | freed (m t : T) : Phase s b 0 (some ⟨none, .deleted, m, [t], [t], [t]⟩)

/-- A block whose object was made. -/
def Made (block : B → Option (Block T)) (b : B) : Prop :=
  ∃ k, block b = some k ∧ k.object ≠ .unmade

/-- `_ptr` and `_pn` belong together, and to an object that was made. -/
structure Sound (block : B → Option (Block T)) (v : Handle B) : Prop where
  paired : v.ptr = v.pn
  made : ∀ b, v.pn = some b → Made block b

/-- The step of a thread leaves the other threads and their handles alone. -/
structure Others (t : T) (s s' : State T H B) : Prop where
  pc : ∀ u, u ≠ t → s'.pc u = s.pc u
  kept : ∀ u h, u ≠ t → Owns s u h → Owns s' u h ∧ s'.handle h = s.handle h

section Frame

variable {s s' s'' : State T H B} {t u : T} {h : H} {b : B} {n : ℕ}

/-- What two steps leave to the other threads. -/
theorem Others.trans (h₁ : Others t s s') (h₂ : Others t s' s'') : Others t s s'' where
  pc u hu := (h₂.pc u hu).trans (h₁.pc u hu)
  kept u h hu ho := by
    obtain ⟨ho', hv'⟩ := h₁.kept u h hu ho
    obtain ⟨ho'', hv''⟩ := h₂.kept u h hu ho'
    exact ⟨ho'', hv''.trans hv'⟩

/-- The thread that a block waits for. -/
def waitsFor (k : Block T) : Option T :=
  if k.object = .unmade then some k.madeBy else k.zeroedBy.head?

/-- A block waits for the thread that has it for itself. -/
theorem waitsFor_of_busy (hf : Facts s t (s.pc t)) (hb : Busy s b t) :
    ∃ k, s.block b = some k ∧ waitsFor k = some t := by
  rcases hb with ⟨h, hp | hp⟩ | ⟨h, rest, hp, -, hn⟩ | ⟨h, rest, hp, -, hn⟩
  · rw [hp] at hf
    exact ⟨_, hf.2.2, rfl⟩
  · rw [hp] at hf
    exact ⟨_, hf.2.2, rfl⟩
  · rw [hp] at hf
    obtain ⟨-, -, c, m, hv, hk⟩ := hf
    obtain rfl : c = b := by simpa [hv] using hn
    exact ⟨_, hk, rfl⟩
  · rw [hp] at hf
    obtain ⟨-, -, c, m, hv, hk⟩ := hf
    obtain rfl : c = b := by simpa [hv] using hn
    exact ⟨_, hk, rfl⟩

/-- A thread leaves out only a handle of its own. -/
theorem Facts.owns {p : Pc H B} (hf : Facts s t p) (hl : loose p = some h) : Owns s t h := by
  cases p with
  | copied i r => exact Option.some.inj hl ▸ hf.1
  | moved i r => exact Option.some.inj hl ▸ hf.2.1
  | assigning i r tmp => exact Option.some.inj hl ▸ hf.2.2.1
  | deleteObject i rest => exact Option.some.inj hl ▸ hf.1
  | deleteCounter i rest => exact Option.some.inj hl ▸ hf.1
  | released i rest => exact Option.some.inj hl ▸ hf.1
  | _ => cases hl

/-- What holds where another thread is stays so. -/
theorem Facts.frame (hf : Facts s u (s.pc u)) (ho : Others t s s') (hu : u ≠ t)
    (hb : ∀ b, Busy s b u → s'.block b = s.block b) : Facts s' u (s'.pc u) := by
  have hkept := fun h => ho.kept u h hu
  have hrest : ∀ h rest, RestFacts s u h rest → RestFacts s' u h rest := by
    intro h rest hr
    cases rest with
    | leave => trivial
    | take r => exact ⟨(hkept r hr.1).1, hr.2⟩
  rw [ho.pc u hu]
  cases hp : s.pc u with
  | idle => trivial
  | newCounter h =>
    rw [hp] at hf
    exact ⟨(hkept h hf.1).1, (hkept h hf.1).2.trans hf.2⟩
  | newObject h b =>
    rw [hp] at hf
    exact ⟨(hkept h hf.1).1, (hkept h hf.1).2.trans hf.2.1,
      (hb b (.inl ⟨h, .inl hp⟩)).trans hf.2.2⟩
  | deleteRef h b =>
    rw [hp] at hf
    exact ⟨(hkept h hf.1).1, (hkept h hf.1).2.trans hf.2.1,
      (hb b (.inl ⟨h, .inr hp⟩)).trans hf.2.2⟩
  | copied h r =>
    rw [hp] at hf
    obtain ⟨hh, hr, hne, hv⟩ := hf
    exact ⟨(hkept h hh).1, (hkept r hr).1, hne, by rw [(hkept h hh).2, (hkept r hr).2, hv]⟩
  | moved h r =>
    rw [hp] at hf
    obtain ⟨hh, hr, hne, hv⟩ := hf
    exact ⟨(hkept h hh).1, (hkept r hr).1, hne, by rw [(hkept h hh).2, (hkept r hr).2, hv]⟩
  | assigning h r tmp =>
    rw [hp] at hf
    obtain ⟨hh, hr, ht, hne, hner, hv⟩ := hf
    exact ⟨(hkept h hh).1, (hkept r hr).1, (hkept tmp ht).1, hne, hner,
      by rw [(hkept tmp ht).2, (hkept r hr).2, hv]⟩
  | assigned h tmp =>
    rw [hp] at hf
    obtain ⟨hh, ht, hne⟩ := hf
    exact ⟨(hkept h hh).1, (hkept tmp ht).1, hne⟩
  | dec h rest =>
    rw [hp] at hf
    exact ⟨(hkept h hf.1).1, hrest h rest hf.2⟩
  | released h rest =>
    rw [hp] at hf
    exact ⟨(hkept h hf.1).1, hrest h rest hf.2⟩
  | deleteObject h rest =>
    rw [hp] at hf
    obtain ⟨hh, hr, b, m, hv, hk⟩ := hf
    exact ⟨(hkept h hh).1, hrest h rest hr, b, m, (hkept h hh).2.trans hv,
      (hb b (.inr (.inl ⟨h, rest, hp, hh, by rw [hv]⟩))).trans hk⟩
  | deleteCounter h rest =>
    rw [hp] at hf
    obtain ⟨hh, hr, b, m, hv, hk⟩ := hf
    exact ⟨(hkept h hh).1, hrest h rest hr, b, m, (hkept h hh).2.trans hv,
      (hb b (.inr (.inr ⟨h, rest, hp, hh, by rw [hv]⟩))).trans hk⟩

/-- A block that the thread does not have for itself stays in its phase. -/
theorem Phase.frame {k : Option (Block T)} (hp : Phase s b n k) (ho : Others t s s')
    (hb : ¬Busy s b t) : Phase s' b n k := by
  cases hp with
  | unused => exact .unused
  | abandoned u => exact .abandoned u
  | inUse m n => exact .inUse m n
  | freed m u => exact .freed m u
  | making u busy =>
    have hu : u ≠ t := fun he => hb (.inl (he ▸ busy))
    refine .making u ?_
    rwa [Making, ho.pc u hu]
  | deleting m u busy =>
    have hu : u ≠ t := fun he => hb (.inr (.inl (he ▸ busy)))
    obtain ⟨h, rest, hp, hh, hn⟩ := busy
    obtain ⟨hh', hv⟩ := ho.kept u h hu hh
    exact .deleting m u ⟨h, rest, (ho.pc u hu).trans hp, hh', hv ▸ hn⟩
  | freeing m u busy =>
    have hu : u ≠ t := fun he => hb (.inr (.inr (he ▸ busy)))
    obtain ⟨h, rest, hp, hh, hn⟩ := busy
    obtain ⟨hh', hv⟩ := ho.kept u h hu hh
    exact .freeing m u ⟨h, rest, (ho.pc u hu).trans hp, hh', hv ▸ hn⟩

/-- A null handle is sound. -/
theorem sound_null : Sound s.block (.null : Handle B) := ⟨rfl, fun _ hb => by cases hb⟩

/-- A handle stays sound when a block is written and stays made. -/
theorem Sound.setBlock [DecidableEq B] {v : Handle B} {k : Block T} (hv : Sound s.block v)
    (hk : k.object = .unmade → ¬Made s.block b) : Sound (s.setBlock b k).block v := by
  refine ⟨hv.paired, fun c hc => ?_⟩
  have hm := hv.made c hc
  by_cases hcb : c = b
  · exact ⟨k, by simp [hcb], fun hu => hk hu (hcb ▸ hm)⟩
  · obtain ⟨k', hk', ho⟩ := hm
    exact ⟨k', by simpa [hcb] using hk', ho⟩

/-- A thread that goes on leaves the others. -/
theorem others_setPc [DecidableEq T] {p : Pc H B} : Others t s (s.setPc t p) :=
  ⟨fun _ hu => update_of_ne hu _ _, fun _ _ _ ho => ⟨ho, rfl⟩⟩

/-- So does one that changes a block. -/
theorem others_setBlock [DecidableEq B] {k : Block T} : Others t s (s.setBlock b k) :=
  ⟨fun _ _ => rfl, fun _ _ _ ho => ⟨ho, rfl⟩⟩

/-- Whether a thread has a block for itself, by where it is. -/
def alone : Pc H B → Bool
  | .newObject _ _ | .deleteRef _ _ | .deleteObject _ _ | .deleteCounter _ _ => true
  | _ => false

/-- A thread that is alone keeps no block busy. -/
theorem not_busy (hp : alone (s.pc t) = false) : ¬Busy s b t := by
  rintro (⟨h, hp' | hp'⟩ | ⟨h, rest, hp', -⟩ | ⟨h, rest, hp', -⟩) <;> simp [hp', alone] at hp

end Frame

section Shares

variable [DecidableEq H] {s s' : State T H B} {t : T} {h r : H} {p : Pc H B} {v : Handle B} {b : B}

/-- A thread that sets its own handle leaves the others. -/
theorem others_put (hh : Owns s t h) : Others t s (s.put h v) where
  pc _ _ := rfl
  kept u i hu ho := by
    have hne : i ≠ h := fun he => hu (ho.2.symm.trans (he ▸ hh.2))
    exact ⟨ho, update_of_ne hne _ _⟩

/-- So does one that swaps two of its own. -/
theorem others_swap (hh : Owns s t h) (hr : Owns s t r) : Others t s (s.swap h r) :=
  (others_put hr).trans (others_put hh)

/-- So does one that constructs a handle. -/
theorem others_enter (hh : h ∉ s.live) : Others t s (s.enter t h v) where
  pc _ _ := rfl
  kept u i hu ho := by
    have hne : i ≠ h := fun he => hh (he ▸ ho.1)
    exact ⟨⟨Finset.mem_insert_of_mem ho.1, (update_of_ne hne _ _).trans ho.2⟩, update_of_ne hne _ _⟩

/-- So does one that destroys its own. -/
theorem others_leave (hh : Owns s t h) : Others t s (s.leave h) where
  pc _ _ := rfl
  kept u i hu ho := by
    have hne : i ≠ h := fun he => hu (ho.2.symm.trans (he ▸ hh.2))
    exact ⟨⟨Finset.mem_erase.mpr ⟨hne, ho.1⟩, ho.2⟩, rfl⟩

/-- The block in which a handle has a share. -/
def share (s : State T H B) (h : H) : Option B :=
  if loose (s.pc (s.owner h)) = some h then none else (s.handle h).pn

/-- Of its own handles a thread has a share unless it has released it. -/
theorem share_own (ho : s.owner h = t) :
    share s h = if loose (s.pc t) = some h then none else (s.handle h).pn := by
  rw [share, ho]

/-- A handle has no share while its thread leaves it out. -/
theorem share_loose (ho : s.owner h = t) (hl : loose (s.pc t) = some h) : share s h = none := by
  rw [share_own ho, if_pos hl]

/-- Else it has one in the block that it refers to. -/
theorem share_counted (ho : s.owner h = t) (hl : loose (s.pc t) ≠ some h) :
    share s h = (s.handle h).pn := by
  rw [share_own ho, if_neg hl]

/-- The handles of the other threads keep their shares. -/
theorem share_kept (ho : Others t s s') {P : H → Prop}
    (hown : ∀ i, Owns s t i → P i → share s' i = share s i) :
    ∀ i ∈ s.live, P i → share s' i = share s i := by
  intro i hi hp
  by_cases hit : s.owner i = t
  · exact hown i ⟨hi, hit⟩ hp
  · obtain ⟨⟨-, how⟩, hv⟩ := ho.kept _ i hit ⟨hi, rfl⟩
    rw [share, share, how, ho.pc _ hit, hv]

end Shares

variable [DecidableEq H] [DecidableEq B]

/-- The number of shares in a block. -/
def shares (s : State T H B) (b : B) : ℕ := count s.live (share s) b

/-- What every step keeps. -/
structure Inv (s : State T H B) : Prop where
  few : s.live.card < 2 ^ 32
  facts : ∀ t, Facts s t (s.pc t)
  sound : ∀ h ∈ s.live, Sound s.block (s.handle h)
  phase : ∀ b, Phase s b (shares s b) (s.block b)

section Steps

variable {s s' : State T H B} {t u : T} {h r : H} {b : B} {p : Pc H B} {v : Handle B}
  {k : Block T}

/-- So no other thread does. -/
theorem not_busy_of_waitsFor (hi : Inv s) (hk : s.block b = some k) (hw : waitsFor k ≠ some u) :
    ¬Busy s b u := by
  intro hb
  obtain ⟨k', hk', hw'⟩ := waitsFor_of_busy (hi.facts u) hb
  obtain rfl : k' = k := Option.some.inj (hk'.symm.trans hk)
  exact hw hw'

/-- What is left to show for the step of a thread. -/
theorem Inv.next (hi : Inv s) (ho : Others t s s') (hfew : s'.live.card < 2 ^ 32)
    (hfacts : Facts s' t (s'.pc t)) (hsound : ∀ h ∈ s'.live, Sound s'.block (s'.handle h))
    (hblocks : ∀ b, (s'.block b = s.block b ∧ shares s' b = shares s b ∧ ¬Busy s b t) ∨
      (Phase s' b (shares s' b) (s'.block b) ∧ ∀ u, u ≠ t → ¬Busy s b u)) : Inv s' where
  few := hfew
  facts u := by
    by_cases hu : u = t
    · exact hu ▸ hfacts
    · refine (hi.facts u).frame ho hu fun b hb => ?_
      rcases hblocks b with ⟨hsame, -⟩ | ⟨-, hfree⟩
      · exact hsame
      · exact absurd hb (hfree u hu)
  sound := hsound
  phase b := by
    rcases hblocks b with ⟨hsame, hcount, hbusy⟩ | ⟨hphase, -⟩
    · rw [hsame, hcount]
      exact (hi.phase b).frame ho hbusy
    · exact hphase

/-- The shares in a block stay where those of the own handles do. -/
theorem shares_same (ho : Others t s s') (hlive : s'.live = s.live)
    (hown : ∀ i, Owns s t i → share s' i = share s i) : shares s' b = shares s b := by
  rw [shares, hlive]
  exact count_congr fun i hi =>
    share_kept ho (P := fun _ => True) (fun i hi _ => hown i hi) i hi trivial

/-- A share is in a block that is in use, and the counter is the number of shares. -/
theorem Inv.inUse (hi : Inv s) (hm : h ∈ s.live) (hs : share s h = some b) :
    ∃ m n, s.block b = some ⟨some (n + 1), .alive, m, [], [], []⟩ ∧ shares s b = n + 1 := by
  have hpos : 0 < shares s b := count_pos hm hs
  have hphase := hi.phase b
  obtain ⟨n, hn⟩ : ∃ n, n = shares s b := ⟨_, rfl⟩
  obtain ⟨k, hk⟩ : ∃ k, k = s.block b := ⟨_, rfl⟩
  rw [← hn, ← hk] at hphase
  rw [← hn] at hpos ⊢
  rw [← hk]
  cases hphase with
  | inUse m n => exact ⟨m, n, rfl, rfl⟩
  | _ => exact absurd hpos (lt_irrefl 0)

/-- A block that is not in use has no shares. -/
theorem Inv.unshared (hi : Inv s) (hk : s.block b = some k)
    (hobject : k.object = .alive → k.zeroedBy ≠ []) : shares s b = 0 := by
  have hphase := hi.phase b
  obtain ⟨n, hn⟩ : ∃ n, n = shares s b := ⟨_, rfl⟩
  rw [← hn, hk] at hphase
  rw [← hn]
  cases hphase with
  | inUse m n => exact absurd rfl (hobject rfl)
  | _ => rfl

/-- What is left to show for a step that writes one block, and counts one handle
in it or no more. -/
theorem Inv.touch (hi : Inv s) (ho : Others t s s') (hlive : s'.live = s.live)
    (hblock : ∀ c, c ≠ b → s'.block c = s.block c) (hbusy : ∀ c, c ≠ b → ¬Busy s c t)
    (hfree : ∀ u, u ≠ t → ¬Busy s b u) (hfacts : Facts s' t (s'.pc t))
    (hsound : ∀ i ∈ s.live, Sound s'.block (s'.handle i))
    (hs : share s h = none ∨ share s h = some b) (hs' : share s' h = none ∨ share s' h = some b)
    (hown : ∀ i, Owns s t i → i ≠ h → share s' i = share s i)
    (hphase : Phase s' b (shares s' b) (s'.block b)) : Inv s' := by
  refine hi.next ho (hlive ▸ hi.few) hfacts (fun i hm => hsound i (hlive ▸ hm)) fun c => ?_
  by_cases hcb : c = b
  · exact .inr ⟨hcb ▸ hphase, hcb ▸ hfree⟩
  · refine .inl ⟨hblock c hcb, ?_, hbusy c hcb⟩
    rw [shares, hlive]
    exact count_of_ne hs hs' hcb (share_kept ho hown)

end Steps

section Local

variable [DecidableEq T] {s : State T H B} {t : T} {h r : H} {b : B} {p : Pc H B} {v : Handle B}

/-- A thread goes on without touching a handle or a block. -/
theorem Inv.setPc (hi : Inv s) (hbusy : alone (s.pc t) = false) (hfacts : Facts (s.setPc t p) t p)
    (hloose : ∀ i, (s.handle i).pn ≠ none → (loose p = some i ↔ loose (s.pc t) = some i)) :
    Inv (s.setPc t p) := by
  refine hi.next others_setPc hi.few (by simpa using hfacts) hi.sound fun b =>
    .inl ⟨rfl, shares_same others_setPc rfl fun i ho => ?_, not_busy hbusy⟩
  rw [share_own ho.2, share_own (s := s.setPc t p) ho.2]
  by_cases hn : (s.handle i).pn = none
  · simp [hn]
  · simp [hloose i hn]

/-- A handle comes that is not counted yet. -/
theorem Inv.enter (hi : Inv s) (hpc : s.pc t = .idle) (hr : Room s h)
    (hfacts : Facts ((s.enter t h v).setPc t p) t p) (hv : Sound s.block v)
    (hloose : loose p = some h ∨ loose p = none ∧ v.pn = none) :
    Inv ((s.enter t h v).setPc t p) := by
  have ho : Others t s ((s.enter t h v).setPc t p) := (others_enter hr.1).trans others_setPc
  have hnone : share ((s.enter t h v).setPc t p) h = none := by
    rcases hloose with hl | ⟨hl, hn⟩
    · simp [share, hl]
    · simp [share, hn]
  have hkeep : ∀ i, Owns s t i → share ((s.enter t h v).setPc t p) i = share s i := by
    intro i hi
    have hne : i ≠ h := fun he => hr.1 (he ▸ hi.1)
    have hp : loose p ≠ some i := by
      rcases hloose with hl | ⟨hl, -⟩ <;> simp [hl, hne.symm]
    have hidle : loose (s.pc t) = none := by rw [hpc]; rfl
    simp [share, hne, hi.2, hp, hidle]
  refine hi.next ho ?_ (by simpa using hfacts) (fun i hm => ?_) fun b => .inl ⟨rfl, ?_, ?_⟩
  · exact (Finset.card_insert_of_notMem hr.1).trans_lt hr.2
  · rcases eq_or_ne i h with rfl | hne
    · have hval : ((s.enter t i v).setPc t p).handle i = v := by simp
      rw [hval]
      exact hv
    · have hval : ((s.enter t h v).setPc t p).handle i = s.handle i := by simp [hne]
      rw [hval]
      exact hi.sound i (Finset.mem_of_mem_insert_of_ne hm hne)
  · rw [shares, State.setPc_live, State.enter_live, count_insert hnone]
    exact count_congr fun i hm =>
      share_kept ho (P := fun _ => True) (fun i hi _ => hkeep i hi) i hm trivial
  · exact not_busy (by rw [hpc]; rfl)

/-- A handle goes that is not counted any more. -/
theorem Inv.leave (hi : Inv s) (hh : Owns s t h) (hpc : alone (s.pc t) = false)
    (hloose : loose (s.pc t) = some h) : Inv ((s.leave h).setPc t .idle) := by
  have ho : Others t s ((s.leave h).setPc t .idle) := (others_leave hh).trans others_setPc
  have hnone : share s h = none := share_loose hh.2 hloose
  refine hi.next ho ?_ (by simp [Facts]) (fun i hm => ?_) fun b => .inl ⟨rfl, ?_, not_busy hpc⟩
  · exact (Finset.card_le_card (Finset.erase_subset h s.live)).trans_lt hi.few
  · exact hi.sound i (Finset.mem_of_mem_erase hm)
  · rw [shares, shares, ← count_erase hnone]
    refine count_congr fun i hm => ?_
    have hne : i ≠ h := Finset.ne_of_mem_erase hm
    refine share_kept ho (P := fun i => i ≠ h) (fun i hi hne => ?_) i
      (Finset.mem_of_mem_erase hm) hne
    simp [share, hi.2, hloose, hne.symm]

/-- Handles exchange their fields. -/
theorem Inv.swap (hi : Inv s) (hh : Owns s t h) (hr : Owns s t r) (hpc : alone (s.pc t) = false)
    (hloose : loose (s.pc t) = none) (hloose' : loose p = none)
    (hfacts : Facts ((s.swap h r).setPc t p) t p) : Inv ((s.swap h r).setPc t p) := by
  have ho : Others t s ((s.swap h r).setPc t p) := (others_swap hh hr).trans others_setPc
  have hval : ∀ i, ((s.swap h r).setPc t p).handle i = s.handle (Equiv.swap h r i) := by
    intro i
    rw [Equiv.swap_apply_def]
    simp only [State.swap, State.setPc_handle, State.put_handle, update_apply]
    split_ifs <;> rfl
  refine hi.next ho hi.few (by simpa using hfacts) (fun i hm => ?_) fun b =>
    .inl ⟨rfl, count_exchange hh.1 hr.1 fun i hm => ?_, not_busy hpc⟩
  · rw [hval, Equiv.swap_apply_def]
    split_ifs
    · exact hi.sound r hr.1
    · exact hi.sound h hh.1
    · exact hi.sound i hm
  · by_cases hit : s.owner i = t
    · have hown : s.owner (Equiv.swap h r i) = t := by
        rw [Equiv.swap_apply_def]
        split_ifs
        exacts [hr.2, hh.2, hit]
      rw [share_own hown, share_own (s := (s.swap h r).setPc t p) hit, hval]
      simp [hloose, hloose']
    · have hne : i ≠ h ∧ i ≠ r := ⟨fun he => hit (he ▸ hh.2), fun he => hit (he ▸ hr.2)⟩
      rw [Equiv.swap_apply_of_ne_of_ne hne.1 hne.2]
      exact share_kept ho (P := fun i => s.owner i ≠ t) (fun j hj hne => absurd hj.2 hne) i hm hit

/-- A handle takes the fields of another, which is not counted from then on. -/
theorem Inv.take (hi : Inv s) (hpc : s.pc t = .released h (.take r)) :
    Inv ((s.put h (s.handle r)).setPc t (.moved h r)) := by
  have hf := hi.facts t
  rw [hpc] at hf
  obtain ⟨hh, hr, hne⟩ := hf
  have ho : Others t s ((s.put h (s.handle r)).setPc t (.moved h r)) :=
    (others_put hh).trans others_setPc
  have hloose : loose (s.pc t) = some h := by rw [hpc]; rfl
  have hloose' : loose (.moved h r : Pc H B) = some r := rfl
  refine hi.next ho hi.few ?_ (fun i hm => ?_) fun b =>
    .inl ⟨rfl, count_exchange hh.1 hr.1 fun i hm => ?_, not_busy (by rw [hpc]; rfl)⟩
  · simpa [Facts, Owns, hne.symm] using ⟨hh, hr, hne⟩
  · rcases eq_or_ne i h with rfl | hih
    · have hval : ((s.put i (s.handle r)).setPc t (.moved i r)).handle i = s.handle r := by simp
      rw [hval]
      exact hi.sound r hr.1
    · have hval : ((s.put h (s.handle r)).setPc t (.moved h r)).handle i = s.handle i := by
        simp [hih]
      rw [hval]
      exact hi.sound i hm
  · by_cases hit : s.owner i = t
    · rw [Equiv.swap_apply_def]
      split_ifs with h₁ h₂
      · simp [share, h₁, hh.2, hr.2, hloose, hloose', hne, hne.symm]
      · simp [share, h₂, hh.2, hr.2, hloose, hloose']
      · simp [share, hit, hloose, hloose', h₁, Ne.symm h₁, Ne.symm h₂]
    · have hne' : i ≠ h ∧ i ≠ r := ⟨fun he => hit (he ▸ hh.2), fun he => hit (he ▸ hr.2)⟩
      rw [Equiv.swap_apply_of_ne_of_ne hne'.1 hne'.2]
      exact share_kept ho (P := fun i => s.owner i ≠ t) (fun j hj hjt => absurd hj.2 hjt) i hm hit

/-- A move construction is the same for a handle that was empty before. -/
theorem Inv.move (hi : Inv s) (hpc : s.pc t = .idle) (hroom : Room s h) (hr : Owns s t r) :
    Inv ((s.enter t h (s.handle r)).setPc t (.moved h r)) := by
  have hne : h ≠ r := fun he => hroom.1 (he ▸ hr.1)
  have hempty : Inv ((s.enter t h .null).setPc t (.released h (.take r))) := by
    refine hi.enter hpc hroom ?_ sound_null (.inl rfl)
    simpa [Facts, RestFacts, Owns, hne.symm, hne] using hr
  have hmoved := hempty.take (t := t) (h := h) (r := r) (by simp)
  convert hmoved using 1
  simp [State.setPc, State.put, State.enter, hne.symm]

/-- The handle that was moved from is cleared. -/
theorem Inv.clear (hi : Inv s) (hpc : s.pc t = .moved h r) :
    Inv ((s.put r .null).setPc t .idle) := by
  have hf := hi.facts t
  rw [hpc] at hf
  obtain ⟨hh, hr, hne, -⟩ := hf
  have ho : Others t s ((s.put r .null).setPc t .idle) := (others_put hr).trans others_setPc
  have hloose : loose (s.pc t) = some r := by rw [hpc]; rfl
  refine hi.next ho hi.few (by simp [Facts]) (fun i hm => ?_) fun b =>
    .inl ⟨rfl, shares_same ho rfl fun i hi => ?_, not_busy (by rw [hpc]; rfl)⟩
  · rcases eq_or_ne i r with rfl | hir
    · have hval : ((s.put i .null).setPc t .idle).handle i = .null := by simp
      rw [hval]
      exact sound_null
    · have hval : ((s.put r .null).setPc t .idle).handle i = s.handle i := by simp [hir]
      rw [hval]
      exact hi.sound i hm
  · rcases eq_or_ne i r with rfl | hir
    · simp [share, hi.2, hloose, Handle.null]
    · simp [share, hi.2, hloose, hir, hir.symm]

/-- An increment counts a handle that was copied. -/
theorem Inv.increment (hi : Inv s) (hh : Owns s t h) (hr : Owns s t r) (hne : h ≠ r)
    (hv : s.handle h = s.handle r) (hpc : alone (s.pc t) = false)
    (hloose : loose (s.pc t) = some h) (hloose' : loose p = none)
    (hfacts : ∀ s' : State T H B, s'.live = s.live → s'.owner = s.owner → Facts s' t p) :
    ∃ s', (increment (s.handle h).pn s).map (fun s => s.setPc t p) = some s' ∧ Inv s' := by
  have hnone : share s h = none := share_loose hh.2 hloose
  cases hn : (s.handle h).pn with
  | none =>
    refine ⟨s.setPc t p, rfl, hi.setPc hpc (hfacts _ rfl rfl) fun i hi => ?_⟩
    have hih : i ≠ h := fun he => hi (he ▸ hn)
    simp [hloose, hloose', hih.symm]
  | some b =>
    have hsr : share s r = some b := by
      rw [share_counted hr.2 (by simp [hloose, hne]), ← hv, hn]
    obtain ⟨m, n, hk, hc⟩ := hi.inUse hr.1 hsr
    have hlt : shares s b < s.live.card := count_lt_card hh.1 (by simp [hnone])
    have hwrap : u32 (n + 1 + 1) = n + 1 + 1 := u32_of_lt (by have := hi.few; omega)
    refine ⟨(s.setBlock b ⟨some (n + 1 + 1), .alive, m, [], [], []⟩).setPc t p, ?_, ?_⟩
    · simp [SharedPtrSteps.increment, hk, hwrap]
    · have ho : Others t s ((s.setBlock b ⟨some (n + 1 + 1), .alive, m, [], [], []⟩).setPc t p) :=
        others_setBlock.trans others_setPc
      have hs' : share ((s.setBlock b ⟨some (n + 1 + 1), .alive, m, [], [], []⟩).setPc t p) h =
          some b := by
        simp [share, hh.2, hloose', hn]
      have hown : ∀ i, Owns s t i → i ≠ h →
          share ((s.setBlock b ⟨some (n + 1 + 1), .alive, m, [], [], []⟩).setPc t p) i =
            share s i := by
        intro i hi hih
        simp [share, hi.2, hloose, hloose', hih.symm]
      refine hi.touch ho rfl (fun c hc => by simp [hc]) (fun c _ => not_busy hpc)
        (fun u _ => not_busy_of_waitsFor hi hk (by simp [waitsFor]))
        (by rw [State.setPc_pc, update_self]; exact hfacts _ rfl rfl)
        (fun i hm => (hi.sound i hm).setBlock (by simp)) (.inl hnone) (.inr hs') hown ?_
      have hgain := count_gain hh.1 hnone hs' (share_kept ho hown)
      rw [shares, State.setPc_live, State.setBlock_live, hgain, ← shares, hc]
      simpa using .inUse m (n + 1)

/-- A decrement leaves its handle out of the count. -/
theorem Inv.lose {k k' : Block T} (hi : Inv s) (hh : Owns s t h) (hpc : alone (s.pc t) = false)
    (hloose : loose (s.pc t) = none) (hloose' : loose p = some h) (hs : share s h = some b)
    (hk : s.block b = some k) (hw : waitsFor k = none) (hk' : k'.object ≠ .unmade)
    (hfacts : Facts ((s.setBlock b k').setPc t p) t p)
    (hphase : ∀ n, shares s b = n + 1 → Phase ((s.setBlock b k').setPc t p) b n (some k')) :
    Inv ((s.setBlock b k').setPc t p) := by
  have ho : Others t s ((s.setBlock b k').setPc t p) := others_setBlock.trans others_setPc
  have hs' : share ((s.setBlock b k').setPc t p) h = none := by simp [share, hh.2, hloose']
  have hown : ∀ i, Owns s t i → i ≠ h → share ((s.setBlock b k').setPc t p) i = share s i := by
    intro i hi hih
    simp [share, hi.2, hloose, hloose', hih.symm]
  refine hi.touch ho rfl (fun c hc => by simp [hc]) (fun c _ => not_busy hpc)
    (fun u _ => not_busy_of_waitsFor hi hk (by simp [hw]))
    (by rwa [State.setPc_pc, update_self])
    (fun i hm => (hi.sound i hm).setBlock fun hu => absurd hu hk') (.inr hs) (.inl hs') hown ?_
  have hlose : shares ((s.setBlock b k').setPc t p) b + 1 = shares s b :=
    count_lose hh.1 hs hs' (share_kept ho hown)
  simpa using hphase _ hlose.symm

/-- A decrement counts its handle no more. The one that reaches zero has the block. -/
theorem Inv.decrement {rest : Rest H} (hi : Inv s) (hpc : s.pc t = .dec h rest) :
    ∃ s', decrement t h rest s = some s' ∧ Inv s' := by
  have hf := hi.facts t
  rw [hpc] at hf
  obtain ⟨hh, hr⟩ := hf
  have hloose : loose (s.pc t) = none := by rw [hpc]; rfl
  have halone : alone (s.pc t) = false := by rw [hpc]; rfl
  cases hn : (s.handle h).pn with
  | none =>
    refine ⟨s.setPc t (.released h rest), by rw [SharedPtrSteps.decrement, hn], ?_⟩
    refine hi.setPc halone ⟨hh, ?_⟩ fun i hi => ?_
    · cases rest <;> exact hr
    · have hih : i ≠ h := fun he => hi (he ▸ hn)
      simp [hloose, hih.symm]
  | some b =>
    have hs : share s h = some b := by rw [share_counted hh.2 (by simp [hloose]), hn]
    obtain ⟨m, n, hk, hc⟩ := hi.inUse hh.1 hs
    have hle : shares s b ≤ s.live.card := Finset.card_filter_le _ _
    have hsub : sub32 (n + 1) 1 = n := sub32_of_le (by omega) (by have := hi.few; omega)
    refine ⟨decremented t h rest b ⟨some (n + 1), .alive, m, [], [], []⟩ n s,
      by simp [SharedPtrSteps.decrement, hn, hk, hsub], ?_⟩
    by_cases hzero : n = 0
    · rw [decremented, if_pos hzero]
      refine hi.lose hh halone hloose rfl hs hk rfl (by simp) ⟨hh, ?_, b, m, ?_, ?_⟩ fun n' hn' => ?_
      · cases rest <;> exact hr
      · have hpair := (hi.sound h hh.1).paired
        rw [hn] at hpair
        exact congrArg₂ Handle.mk hpair hn
      · simp [hzero]
      · obtain rfl : 0 = n' := by omega
        rw [hzero]
        exact .deleting m t ⟨h, rest, by simp, hh, hn⟩
    · rw [decremented, if_neg hzero]
      refine hi.lose hh halone hloose rfl hs hk rfl (by simp) ⟨hh, ?_⟩ fun n' hn' => ?_
      · cases rest <;> exact hr
      · obtain ⟨j, rfl⟩ := Nat.exists_eq_succ_of_ne_zero hzero
        obtain rfl : j + 1 = n' := by omega
        exact .inUse m j

/-- A thread writes a block that it has for itself, or makes it. -/
theorem Inv.write {k' : Block T} (hi : Inv s) (hloose : loose p = loose (s.pc t))
    (hbusy : ∀ c, c ≠ b → ¬Busy s c t) (hfree : ∀ u, u ≠ t → ¬Busy s b u)
    (hk' : k'.object = .unmade → ¬Made s.block b)
    (hfacts : Facts ((s.setBlock b k').setPc t p) t p)
    (hphase : Phase ((s.setBlock b k').setPc t p) b (shares s b) (some k')) :
    Inv ((s.setBlock b k').setPc t p) := by
  have ho : Others t s ((s.setBlock b k').setPc t p) := others_setBlock.trans others_setPc
  have hshares : ∀ c, shares ((s.setBlock b k').setPc t p) c = shares s c := fun c =>
    shares_same ho rfl fun i hi => by simp [share, hi.2, hloose]
  refine hi.next ho hi.few (by simpa using hfacts) (fun i hm => (hi.sound i hm).setBlock hk')
    fun c => ?_
  by_cases hcb : c = b
  · refine .inr ⟨?_, hcb ▸ hfree⟩
    rw [hshares, hcb]
    simpa using hphase
  · exact .inl ⟨by simp [hcb], hshares c, hbusy c hcb⟩

/-- `make_shared` gets a counter, or returns a null pointer. -/
theorem Inv.newCounter {got : Option B} (hi : Inv s) (hpc : s.pc t = .newCounter h)
    (hm : NewMemory s t got) : Inv (newCounter t h got s) := by
  have hf := hi.facts t
  rw [hpc] at hf
  have halone : alone (s.pc t) = false := by rw [hpc]; rfl
  have hloose : loose (s.pc t) = none := by rw [hpc]; rfl
  cases got with
  | none => exact hi.setPc halone trivial fun i _ => by simp [hloose]
  | some b =>
    have hnew : s.block b = none := hm (by rw [hpc]; rfl)
    have hzero : shares s b = 0 := by
      have hphase := hi.phase b
      obtain ⟨n, hn⟩ : ∃ n, n = shares s b := ⟨_, rfl⟩
      rw [← hn, hnew] at hphase
      rw [← hn]
      cases hphase
      rfl
    refine hi.write hloose.symm (fun c _ => not_busy halone) (fun u _ hb => ?_) (fun _ => ?_)
      ⟨hf.1, hf.2, by simp⟩ ?_
    · obtain ⟨k, hk, -⟩ := waitsFor_of_busy (hi.facts u) hb
      rw [hnew] at hk
      cases hk
    · rintro ⟨k, hk, -⟩
      rw [hnew] at hk
      cases hk
    · rw [hzero]
      exact .making t ⟨h, .inl (by simp)⟩

/-- `make_shared` gets an object, or gives the counter back. -/
theorem Inv.newObject (hi : Inv s) (hpc : s.pc t = .newObject h b) (got : Bool) :
    ∃ s', newObject t h b got s = some s' ∧ Inv s' := by
  have hf := hi.facts t
  rw [hpc] at hf
  obtain ⟨hh, hv, hk⟩ := hf
  have hzero : shares s b = 0 := hi.unshared hk (by simp)
  have hloose : loose (s.pc t) = none := by rw [hpc]; rfl
  have hbusy : ∀ c, c ≠ b → ¬Busy s c t := by
    intro c hc
    simp [Busy, Making, Deleting, Freeing, hpc, hc.symm]
  have hfree : ∀ u, u ≠ t → ¬Busy s b u := fun u hu =>
    not_busy_of_waitsFor hi hk (by simpa [waitsFor] using hu.symm)
  have hs : share s h = none := by simp [share, hh.2, hloose, hv, Handle.null]
  cases got with
  | false =>
    refine ⟨_, rfl, ?_⟩
    have ho : Others t s (s.setPc t (.deleteRef h b)) := others_setPc
    have hloose' : loose (.deleteRef h b : Pc H B) = none := rfl
    have hown : ∀ i, Owns s t i → share (s.setPc t (.deleteRef h b)) i = share s i := by
      intro i hi
      simp [share, hi.2, hloose, hloose']
    refine hi.touch ho rfl (fun _ _ => rfl) hbusy hfree (by simpa using ⟨hh, hv, hk⟩)
      hi.sound (.inl hs) (.inl ((hown h hh).trans hs)) (fun i hi _ => hown i hi) ?_
    rw [shares_same ho rfl hown, hzero]
    exact hk ▸ .making t ⟨h, .inr (by simp)⟩
  | true =>
    have ho : Others t s (((s.setBlock b ⟨some 1, .alive, t, [], [], []⟩).put h
        ⟨some b, some b⟩).setPc t .idle) :=
      (others_setBlock.trans (others_put (show Owns (s.setBlock b _) t h from hh))).trans others_setPc
    have hs' : share (((s.setBlock b ⟨some 1, .alive, t, [], [], []⟩).put h
        ⟨some b, some b⟩).setPc t .idle) h = some b := by
      simp [share, hh.2]
    have hown : ∀ i, Owns s t i → i ≠ h → share (((s.setBlock b ⟨some 1, .alive, t, [], [], []⟩).put h
        ⟨some b, some b⟩).setPc t .idle) i = share s i := by
      intro i hi hih
      simp [share, hi.2, hloose, hih]
    have hstep : SharedPtrSteps.newObject t h b true s = some (((s.setBlock b
        ⟨some 1, .alive, t, [], [], []⟩).put h ⟨some b, some b⟩).setPc t .idle) := by
      simp [SharedPtrSteps.newObject, hk]
    refine ⟨_, hstep, ?_⟩
    refine hi.touch ho rfl (fun c hc => by simp [hc]) hbusy hfree (by simp [Facts])
      (fun i hm => ?_) (.inl hs) (.inr hs') hown ?_
    · rcases eq_or_ne i h with rfl | hih
      · have hval : (((s.setBlock b ⟨some 1, .alive, t, [], [], []⟩).put i
            ⟨some b, some b⟩).setPc t .idle).handle i = ⟨some b, some b⟩ := by simp
        rw [hval]
        exact ⟨rfl, fun c hc =>
          ⟨⟨some 1, .alive, t, [], [], []⟩, by simp [← Option.some.inj hc], by simp⟩⟩
      · have hval : (((s.setBlock b ⟨some 1, .alive, t, [], [], []⟩).put h
            ⟨some b, some b⟩).setPc t .idle).handle i = s.handle i := by simp [hih]
        rw [hval]
        exact (hi.sound i hm).setBlock (by simp)
    · have hgain : shares (((s.setBlock b ⟨some 1, .alive, t, [], [], []⟩).put h
          ⟨some b, some b⟩).setPc t .idle) b = shares s b + 1 :=
        count_gain hh.1 hs hs' (share_kept ho hown)
      rw [hgain, hzero]
      simpa using .inUse t 0

/-- `make_shared` deletes the counter that got no object. -/
theorem Inv.deleteRef (hi : Inv s) (hpc : s.pc t = .deleteRef h b) :
    ∃ s', (deleteCounter t b s).map (fun s => s.setPc t .idle) = some s' ∧ Inv s' := by
  have hf := hi.facts t
  rw [hpc] at hf
  obtain ⟨hh, hv, hk⟩ := hf
  refine ⟨(s.setBlock b ⟨none, .unmade, t, [], [], [t]⟩).setPc t .idle,
    by simp [SharedPtrSteps.deleteCounter, hk], hi.write (by rw [hpc]; rfl) (fun c hc => ?_)
      (fun u hu => not_busy_of_waitsFor hi hk (by simpa [waitsFor] using hu.symm)) (fun _ hm => ?_)
      trivial ?_⟩
  · simp [Busy, Making, Deleting, Freeing, hpc, hc.symm]
  · obtain ⟨k, hk', ho⟩ := hm
    rw [hk] at hk'
    exact ho (Option.some.inj hk' ▸ rfl)
  · rw [hi.unshared hk (by simp)]
    exact .abandoned t

/-- The thread that brought the counter to zero deletes the object. -/
theorem Inv.deleteObject {rest : Rest H} (hi : Inv s) (hpc : s.pc t = .deleteObject h rest) :
    ∃ b s', (s.handle h).ptr = some b ∧
      (deleteObject t b s).map (fun s => s.setPc t (.deleteCounter h rest)) = some s' ∧ Inv s' := by
  have hf := hi.facts t
  rw [hpc] at hf
  obtain ⟨hh, hr, b, m, hv, hk⟩ := hf
  refine ⟨b, (s.setBlock b ⟨some 0, .deleted, m, [t], [t], []⟩).setPc t (.deleteCounter h rest),
    by rw [hv], by simp [SharedPtrSteps.deleteObject, hk],
    hi.write (by rw [hpc]; rfl) (fun c hc => ?_)
      (fun u hu => not_busy_of_waitsFor hi hk (by simpa [waitsFor] using hu.symm)) (by simp)
      ⟨hh, ?_, b, m, hv, by simp⟩ ?_⟩
  · simp [Busy, Making, Deleting, Freeing, hpc, hv, hc.symm]
  · cases rest <;> exact hr
  · rw [hi.unshared hk (by simp)]
    exact .freeing m t ⟨h, rest, by simp, hh, by simp [hv]⟩

/-- Then it deletes the counter. -/
theorem Inv.deleteCounter {rest : Rest H} (hi : Inv s) (hpc : s.pc t = .deleteCounter h rest) :
    ∃ b s', (s.handle h).pn = some b ∧
      (deleteCounter t b s).map (fun s => s.setPc t (.released h rest)) = some s' ∧ Inv s' := by
  have hf := hi.facts t
  rw [hpc] at hf
  obtain ⟨hh, hr, b, m, hv, hk⟩ := hf
  refine ⟨b, (s.setBlock b ⟨none, .deleted, m, [t], [t], [t]⟩).setPc t (.released h rest),
    by rw [hv], by simp [SharedPtrSteps.deleteCounter, hk],
    hi.write (by rw [hpc]; rfl) (fun c hc => ?_)
      (fun u hu => not_busy_of_waitsFor hi hk (by simpa [waitsFor] using hu.symm)) (by simp)
      ⟨hh, ?_⟩ ?_⟩
  · simp [Busy, Making, Deleting, Freeing, hpc, hv, hc.symm]
  · cases rest <;> exact hr
  · rw [hi.unshared hk (by simp)]
    exact .freed m t

omit [DecidableEq T] in
/-- A handle is handed over. -/
theorem Inv.give (hi : Inv s) (hm : h ∈ s.live) (hpc : s.pc (s.owner h) = .idle) :
    Inv { s with owner := update s.owner h t } := by
  have ho : Others (s.owner h) s { s with owner := update s.owner h t } := by
    refine ⟨fun _ _ => rfl, fun u i hu hown => ⟨⟨hown.1, ?_⟩, rfl⟩⟩
    have hne : i ≠ h := fun he => hu (he ▸ hown.2.symm)
    exact (by simp [hne, hown.2] : update s.owner h t i = u)
  have hidle : loose (s.pc (s.owner h)) = none := by rw [hpc]; rfl
  refine hi.next ho hi.few ?_ hi.sound fun b =>
    .inl ⟨rfl, count_congr fun i _ => ?_, not_busy (by rw [hpc]; rfl)⟩
  · simp only [hpc]
    trivial
  · rcases eq_or_ne i h with rfl | hne
    · have hl : loose (s.pc t) ≠ some i := by
        intro hl
        have hown := (hi.facts t).owns hl
        rw [← hown.2, hidle] at hl
        cases hl
      simp [share, hl, hidle]
    · simp [share, hne]

end Local

section Runs

variable [DecidableEq T] {s : State T H B} {t : T} {h r tmp : H} {p : Pc H B} {v : Handle B}

omit [DecidableEq H] [DecidableEq B] in
/-- A thread that stays where it is changes nothing. -/
theorem setPc_self (hpc : s.pc t = p) : s.setPc t p = s := by
  rw [State.setPc, ← hpc, update_eq_self]

/-- What a thread does next does not fail. -/
theorem Inv.go {got : Option B} (hi : Inv s) (hpc : s.pc t ≠ .idle) (hm : NewMemory s t got) :
    ∃ s', go t got s = some s' ∧ Inv s' := by
  have hf := hi.facts t
  rw [SharedPtrSteps.go]
  cases hp : s.pc t with
  | idle => exact absurd hp hpc
  | newCounter h => exact ⟨_, rfl, hi.newCounter hp hm⟩
  | newObject h b => exact hi.newObject hp got.isSome
  | deleteRef h b => exact hi.deleteRef hp
  | copied h r =>
    rw [hp] at hf
    obtain ⟨hh, hr, hne, hv⟩ := hf
    exact hi.increment hh hr hne hv (by rw [hp]; rfl) (by rw [hp]; rfl) rfl fun _ _ _ => trivial
  | moved h r => exact ⟨_, rfl, hi.clear hp⟩
  | assigning h r tmp =>
    rw [hp] at hf
    obtain ⟨hh, hr, ht, hne, hner, hv⟩ := hf
    refine hi.increment ht hr hner hv (by rw [hp]; rfl) (by rw [hp]; rfl) rfl fun s' hl ho => ?_
    exact ⟨⟨hl ▸ hh.1, ho ▸ hh.2⟩, ⟨hl ▸ ht.1, ho ▸ ht.2⟩, hne⟩
  | assigned h tmp =>
    rw [hp] at hf
    obtain ⟨hh, ht, hne⟩ := hf
    exact ⟨_, rfl, hi.swap ht hh (by rw [hp]; rfl) (by rw [hp]; rfl) rfl ⟨ht, trivial⟩⟩
  | dec h rest => exact hi.decrement hp
  | deleteObject h rest =>
    obtain ⟨b, s', hptr, hs', hi'⟩ := hi.deleteObject hp
    simp only [hptr]
    exact ⟨s', hs', hi'⟩
  | deleteCounter h rest =>
    obtain ⟨b, s', hpn, hs', hi'⟩ := hi.deleteCounter hp
    simp only [hpn]
    exact ⟨s', hs', hi'⟩
  | released h rest =>
    cases rest with
    | leave =>
      rw [hp] at hf
      exact ⟨_, rfl, hi.leave hf.1 (by rw [hp]; rfl) (by rw [hp]; rfl)⟩
    | take r => exact ⟨_, rfl, hi.take hp⟩

/-- Copying a handle keeps the invariant. -/
theorem Inv.copyConstruct (hi : Inv s) (hpc : s.pc t = .idle) (hroom : Room s h)
    (hr : Owns s t r) : Inv (copyConstruct t h r s) := by
  have hne : r ≠ h := fun he => hroom.1 (he ▸ hr.1)
  refine hi.enter hpc hroom ?_ (hi.sound r hr.1) (.inl rfl)
  simpa [Facts, Owns, hne, hne.symm] using hr

/-- So does assigning one. -/
theorem Inv.copyAssign (hi : Inv s) (hpc : s.pc t = .idle) (hroom : Room s tmp)
    (hh : Owns s t h) (hr : Owns s t r) : Inv (copyAssign t h r tmp s) := by
  have hne : h ≠ tmp := fun he => hroom.1 (he ▸ hh.1)
  have hner : r ≠ tmp := fun he => hroom.1 (he ▸ hr.1)
  refine hi.enter hpc hroom ?_ (hi.sound r hr.1) (.inl rfl)
  simpa [Facts, Owns, hne, hner, hne.symm, hner.symm] using ⟨hh, hr⟩

/-- So does swapping two. -/
theorem Inv.swapCall (hi : Inv s) (hpc : s.pc t = .idle) (hh : Owns s t h) (hr : Owns s t r) :
    Inv (s.swap h r) := by
  have hi' := hi.swap (p := .idle) hh hr (by rw [hpc]; rfl) (by rw [hpc]; rfl) rfl trivial
  rwa [setPc_self (show (s.swap h r).pc t = .idle from hpc)] at hi'

/-- A call of a member function, whatever the types. -/
theorem Inv.call {op : Op H} (hi : Inv s) (hpc : s.pc t = .idle) (hc : CanCall s t op) :
    Inv (call t s op) := by
  have halone : alone (s.pc t) = false := by rw [hpc]; rfl
  have hloose : loose (s.pc t) = none := by rw [hpc]; rfl
  cases op with
  | empty h =>
    have hi' := hi.enter (v := .null) (p := .idle) hpc hc trivial sound_null (.inr ⟨rfl, rfl⟩)
    rwa [setPc_self (show (s.enter t h .null).pc t = .idle from hpc)] at hi'
  | make h =>
    refine hi.enter hpc hc ?_ sound_null (.inr ⟨rfl, rfl⟩)
    simp [Facts, Owns]
  | copy h r => exact hi.copyConstruct hpc hc.1 hc.2
  | copyChild h r => exact hi.copyConstruct hpc hc.1 hc.2
  | move h r => exact hi.move hpc hc.1 hc.2
  | moveChild h r => exact hi.move hpc hc.1 hc.2
  | copyAssign h r tmp => exact hi.copyAssign hpc hc.1 hc.2.1 hc.2.2
  | copyAssignChild h r tmp => exact hi.copyAssign hpc hc.1 hc.2.1 hc.2.2
  | moveAssign h r => exact hi.swapCall hpc hc.2 hc.1
  | moveAssignChild h r => exact hi.setPc halone hc fun i _ => by rw [hloose]; rfl
  | swap h r => exact hi.swapCall hpc hc.1 hc.2
  | destroy h => exact hi.setPc halone ⟨hc, trivial⟩ fun i _ => by rw [hloose]; rfl

/-- A permitted step of any thread does not fail, and keeps the counts exact. -/
theorem Inv.step {a : Act T H B} (hi : Inv s) (hp : Permitted s a) :
    ∃ s', step s a = some s' ∧ Inv s' := by
  cases a with
  | call t op => exact ⟨_, rfl, hi.call hp.1 hp.2⟩
  | go t got => exact hi.go hp.1 hp.2
  | give h t => exact ⟨_, rfl, hi.give hp.1 hp.2⟩

omit [DecidableEq T] in
/-- Before the first step. -/
theorem inv_start (owner : H → T) : Inv (State.start owner : State T H B) where
  few := Nat.two_pow_pos 32
  facts _ := trivial
  sound := by simp [State.start]
  phase _ := .unused

/-- So does every run. -/
theorem Inv.run {acts : List (Act T H B)} (hi : Inv s)
    (hp : Along Permitted SharedPtrSteps.step s acts) :
    ∃ s', StepRuns.run SharedPtrSteps.step s acts = some s' ∧ Inv s' := by
  induction acts generalizing s with
  | nil => exact ⟨s, rfl, hi⟩
  | cons a acts ih =>
    obtain ⟨s₁, hs₁, hi₁⟩ := hi.step hp.1
    obtain ⟨s', hs', hi'⟩ := ih hi₁ (hp.2 s₁ hs₁)
    exact ⟨s', run_cons.mpr ⟨s₁, hs₁, hs'⟩, hi'⟩

end Runs

end KernelLib.SharedPtrCounts
