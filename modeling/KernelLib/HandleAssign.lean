import KernelLib.CascadingDelete
import KernelLib.CountedObjects

/-!
# Assigning a handle from what it keeps alive

Handles of `shared_ptr` and `ref_holder` may be members of the objects they
manage, so that the source of an assignment may go with the object that its
target gives up. The copy assignments of `shared_ptr` take the new reference
first and its moves exchange handles; the move from a handle of a derived
type and both assignments of `ref_holder` release first and read their
source afterwards. Each is safe exactly when no handle that it still uses
lies in an object that goes.
-/

namespace KernelLib.HandleAssign

open CascadingDelete CountedObjects

/-- The counter of a `shared_ptr`, an unsigned 32-bit number tested for zero. -/
def atomicUnsigned : Counter where
  wrap z := z % 2 ^ 32
  max := 2 ^ 32 - 1
  gone z := z == 0
  wrap_of_le n hn := by omega
  wrap_le z := by omega
  wrap_add z k := by omega
  gone_iff n _ := by
    rw [beq_iff_eq]
    omega

theorem wrap32_le (z : ℤ) : wrap32 z ≤ maxCount := by
  have hlt : wrap32 z < ((2 ^ 32 : ℕ) + 1) / 2 := Int.bmod_lt (by decide)
  simp only [maxCount]
  omega

/-- The counter of a `ref_item`, a signed 32-bit number tested for being less than one. -/
def refItem : Counter where
  wrap := wrap32
  max := maxCount
  gone z := z < 1
  wrap_of_le n hn := wrap32_of_mem (by omega) (by omega)
  wrap_le := wrap32_le
  wrap_add := wrap32_wrap32_add
  gone_iff n _ := by
    rw [decide_eq_true_eq]
    omega

/-- `shared_ptr::operator=(const shared_ptr& r)`: `this_type(r).swap(*this)`. -/
def sharedCopyAssign (h src : ℕ) (s : Heap) : Option Heap := do
  let r ← s.handle src
  let s ← s.retain atomicUnsigned r.ptr
  let own ← s.handle h
  let s := s.setPtr h r.ptr
  -- the temporary now holds what the handle held
  s.release atomicUnsigned own.ptr

/-- `shared_ptr::operator=(shared_ptr&& r)`: `r.swap(*this)`. -/
def sharedMoveAssign (h src : ℕ) (s : Heap) : Option Heap := do
  let own ← s.handle h
  let r ← s.handle src
  return (s.setPtr h r.ptr).setPtr src own.ptr

/-- `shared_ptr::operator=(const shared_ptr<TChild>& r)`. -/
def sharedCopyAssignChild (h src : ℕ) (s : Heap) : Option Heap := sharedCopyAssign h src s

/-- `shared_ptr::operator=(shared_ptr<TChild>&& r)`. -/
def sharedMoveAssignChild (h src : ℕ) (s : Heap) : Option Heap := do
  let own ← s.handle h
  let s ← s.release atomicUnsigned own.ptr
  -- `dec` still reads `_pn`, and the pointers are written next
  let _ ← s.handle h
  let r ← s.handle src
  return (s.setPtr h r.ptr).setPtr src none

/-- `ref_holder::operator=(const ref_holder& r)`. -/
def holderCopyAssign (h src : ℕ) (s : Heap) : Option Heap := do
  let own ← s.handle h
  if h = src then return s
  let s ← s.release refItem own.ptr
  let r ← s.handle src
  let _ ← s.handle h
  (s.setPtr h r.ptr).retain refItem r.ptr

/-- `ref_holder::operator=(ref_holder&& r)`. -/
def holderMoveAssign (h src : ℕ) (s : Heap) : Option Heap := do
  let own ← s.handle h
  if h = src then return s
  let s ← s.release refItem own.ptr
  let r ← s.handle src
  let _ ← s.handle h
  return (s.setPtr h r.ptr).setPtr src none

/-- The assignment operators. -/
inductive Assignment where
  /-- `shared_ptr::operator=(const shared_ptr&)`. -/
  | sharedCopy
  /-- `shared_ptr::operator=(shared_ptr&&)`. -/
  | sharedMove
  /-- `shared_ptr::operator=(const shared_ptr<TChild>&)`. -/
  | sharedCopyChild
  /-- `shared_ptr::operator=(shared_ptr<TChild>&&)`. -/
  | sharedMoveChild
  /-- `ref_holder::operator=(const ref_holder&)`. -/
  | holderCopy
  /-- `ref_holder::operator=(ref_holder&&)`. -/
  | holderMove
  deriving DecidableEq, Repr

/-- Perform an assignment. -/
def assign : Assignment → ℕ → ℕ → Heap → Option Heap
  | .sharedCopy => sharedCopyAssign
  | .sharedMove => sharedMoveAssign
  | .sharedCopyChild => sharedCopyAssignChild
  | .sharedMoveChild => sharedMoveAssignChild
  | .holderCopy => holderCopyAssign
  | .holderMove => holderMoveAssign

/-- The counter that the handles use. -/
def Assignment.counter : Assignment → Counter
  | .sharedCopy | .sharedMove | .sharedCopyChild | .sharedMoveChild => atomicUnsigned
  | .holderCopy | .holderMove => refItem

/-- A handle of a derived type is not the target itself. -/
def Assignment.Typed (k : Assignment) (h src : ℕ) : Prop :=
  k = .sharedCopyChild ∨ k = .sharedMoveChild → h ≠ src

instance (k : Assignment) (h src : ℕ) : Decidable (k.Typed h src) :=
  inferInstanceAs (Decidable (_ → _))

/-- Every count is the number of live handles on its object, an object is live while a
handle holds it, and live handles lie in live objects. -/
structure Intact (C : Counter) (s : Heap) : Prop where
  counts : ∀ i c, s.count i = some c → c = s.refs i
  fits : ∀ i, s.refs i ≤ C.max
  live_iff : ∀ i, (s.count i).isSome ↔ 0 < s.refs i
  housed : ∀ m x k, s.handle m = some x → x.owner = some k → (s.count k).isSome

/-- The assignment uses no handle that is gone, its target holds what the source held,
which is live, and all counts are the numbers of live handles again. -/
def Good (k : Assignment) (h src : ℕ) (s : Heap) : Prop :=
  ∃ r t, s.handle src = some r ∧ assign k h src s = some t ∧
    (t.handle h).map Handle.ptr = some r.ptr ∧ (∀ i, r.ptr = some i → (t.count i).isSome) ∧
    Intact k.counter t

/-- One more handle fits into the counter of what the source holds: the counter is not at
its maximum, or a handle is given up, by the target or with an object that goes. -/
def Room (C : Counter) (s s' : Heap) (own p : Option ℕ) : Prop :=
  ∀ i, p = some i → s.refs i + 1 ≤ C.max ∨ own = some i ∨
    ∃ m x, s'.handle m = some x ∧ x.ptr = some i ∧ ¬Stays s' m

/-- When an assignment is safe, in terms of the heap in which the target has given up what
it held: copies into `shared_ptr` give it the new object first, the others do not. -/
def Safe (k : Assignment) (h src : ℕ) (s : Heap) : Prop :=
  ∀ own r, s.handle h = some own → s.handle src = some r →
    match k with
    | .sharedCopy | .sharedCopyChild =>
      Stays (s.setPtr h r.ptr) h ∧ Room atomicUnsigned s (s.setPtr h r.ptr) own.ptr r.ptr
    | .sharedMove => True
    | .sharedMoveChild => Stays (s.setPtr h none) h ∧ Stays (s.setPtr h none) src
    | .holderCopy => h = src ∨ Stays (s.setPtr h none) h ∧ Stays (s.setPtr h none) src ∧
        Room refItem s (s.setPtr h none) own.ptr r.ptr
    | .holderMove => h = src ∨ Stays (s.setPtr h none) h ∧ Stays (s.setPtr h none) src

section Assignments

variable {C : Counter} {s s' t : Heap} {h src i : ℕ} {own r x : Handle} {p q : Option ℕ}

theorem intact_of_exact (he : Exact C t) (hf : ∀ i, t.refs i ≤ C.max) : Intact C t where
  counts i c hc := (he.counts i c hc).trans (C.wrap_of_le _ (hf i))
  fits := hf
  live_iff := he.live_iff
  housed := he.housed

/-- What a live handle holds is live. -/
theorem Intact.live (hi : Intact C s) (hr : s.handle src = some r) (hp : r.ptr = some i) :
    (s.count i).isSome :=
  (hi.live_iff i).mpr (refs_pos_iff.mpr ⟨src, r, hr, hp⟩)

/-- A handle lies in a live object still when it is made to hold another one. -/
theorem housed_setPtr (hs : ∀ m x k, s.handle m = some x → x.owner = some k → (s.count k).isSome)
    (p : Option ℕ) (n m : ℕ) (y : Handle) (k : ℕ) (hy : (s.setPtr n p).handle m = some y)
    (hk : y.owner = some k) : (s.count k).isSome := by
  have howner := setPtr_owner (s := s) (m := n) p m
  rw [hy, Option.bind_some, hk] at howner
  obtain ⟨z, hz, hzk⟩ := Option.bind_eq_some_iff.mp howner.symm
  exact hs m z k hz hzk

/-- The target has given up its reference, which is loose. -/
theorem Intact.loose (hi : Intact C s) (hh : s.handle h = some own) :
    Loose C own.ptr (s.setPtr h none) := by
  have hrefs : ∀ i, (s.setPtr h none).refs i + one own.ptr i = s.refs i := fun i => by
    have := refs_setPtr hh none i
    rwa [one_none, Nat.add_zero] at this
  refine ⟨fun i c hc => ?_, fun i => ?_, fun i => ?_, housed_setPtr hi.housed none h⟩
  · rw [hrefs, C.wrap_of_le _ (hi.fits i)]
    exact hi.counts i c hc
  · rw [hrefs]
    exact (hi.fits i).trans (Nat.le_succ _)
  · rw [hrefs]
    exact hi.live_iff i

/-- A reference taken on what a live handle holds. -/
theorem Intact.retain (hi : Intact C s) (hr : s.handle src = some r) :
    ∃ u, s.retain C r.ptr = some u ∧ u.handles = s.handles ∧
      (∀ i, (u.count i).isSome = (s.count i).isSome) ∧
      ∀ i c, u.count i = some c → c = C.wrap (s.refs i + one r.ptr i : ℕ) := by
  cases hp : r.ptr with
  | none =>
    refine ⟨s, rfl, rfl, fun _ => rfl, fun i c hc => ?_⟩
    rw [one_none, Nat.add_zero, C.wrap_of_le _ (hi.fits i)]
    exact hi.counts i c hc
  | some j =>
    have hj := hi.live hr hp
    obtain ⟨c, hc⟩ := Option.isSome_iff_exists.mp hj
    refine ⟨s.setCount j (some (C.wrap (c + 1))), by simp [Heap.retain, hc], rfl,
      fun i => setCount_isSome hj i, fun i d hd => ?_⟩
    by_cases hij : i = j
    · subst hij
      rw [setCount_self] at hd
      rw [one_self, ← Option.some.inj hd, hi.counts i c hc]
      rfl
    · rw [setCount_of_ne _ hij] at hd
      rw [one_of_ne fun he => hij (Option.some.inj he).symm, Nat.add_zero,
        C.wrap_of_le _ (hi.fits i)]
      exact hi.counts i d hd

/-- The target holds the new object, one reference of the old one is loose. -/
theorem Intact.exchange (hi : Intact C s) (hh : s.handle h = some own)
    (hr : s.handle src = some r) :
    ∃ u, s.retain C r.ptr = some u ∧ u.handles = s.handles ∧
      (∀ i, (u.count i).isSome = (s.count i).isSome) ∧
      Loose C own.ptr (u.setPtr h r.ptr) := by
  obtain ⟨u, hu, hhandles, hsome, hcounts⟩ := hi.retain hr
  have huh : u.handle h = some own := by rw [Heap.handle, hhandles]; exact hh
  have hsame : ∀ i, u.refs i = s.refs i := fun i => by rw [Heap.refs, hhandles, Heap.refs]
  have hrefs : ∀ i, (u.setPtr h r.ptr).refs i + one own.ptr i = s.refs i + one r.ptr i :=
    fun i => (refs_setPtr huh r.ptr i).trans (by rw [hsame])
  refine ⟨u, hu, hhandles, hsome, fun i c hc => ?_, fun i => ?_, fun i => ?_, ?_⟩
  · rw [hrefs]
    exact hcounts i c hc
  · rw [hrefs]
    have h₁ := hi.fits i
    have h₂ : one r.ptr i ≤ 1 := by
      rw [one]
      split <;> omega
    omega
  · rw [hrefs, setPtr_count, hsome, hi.live_iff]
    refine ⟨fun hpos => by omega, fun hpos => ?_⟩
    by_cases hp : r.ptr = some i
    · exact refs_pos_iff.mpr ⟨src, r, hr, hp⟩
    · rw [one_of_ne hp] at hpos
      exact hpos
  · refine housed_setPtr (fun m x k hx hk => ?_) r.ptr h
    rw [hsome]
    rw [Heap.handle, hhandles] at hx
    exact hi.housed m x k hx hk

/-- When the number of handles that end up on an object fits into its counter. -/
theorem room_iff (hrem : Remains C s' t) {f : ℕ} (hmax : s.refs i ≤ C.max)
    (hf : f + s'.refs i + one q i = t.refs i + s.refs i + 1) :
    f ≤ C.max ↔ s.refs i + 1 ≤ C.max ∨ q = some i ∨
      ∃ m x, s'.handle m = some x ∧ x.ptr = some i ∧ ¬Stays s' m := by
  have hle := hrem.refs_le i
  constructor
  · intro hfit
    by_contra hno
    rw [not_or, not_or] at hno
    obtain ⟨hfull, hq, hstay⟩ := hno
    have heq : t.refs i = s'.refs i := hrem.refs_eq fun m x hx hp => by
      by_contra hm
      exact hstay ⟨m, x, hx, hp, hm⟩
    rw [one_of_ne hq] at hf
    omega
  · rintro (hroom | rfl | ⟨m, x, hx, hp, hm⟩)
    · omega
    · rw [one_self] at hf
      omega
    · have hlt := hrem.refs_lt hx hp hm
      omega

/-- What a safe assignment achieves: the target holds what the source held, which is live,
and all counts are exact. -/
def Assigned (C : Counter) (h : ℕ) (r : Handle) (t : Heap) : Prop :=
  (t.handle h).map Handle.ptr = some r.ptr ∧ (∀ i, r.ptr = some i → (t.count i).isSome) ∧
    Intact C t

theorem good_iff {k : Assignment} (hr : s.handle src = some r) :
    Good k h src s ↔ ∃ t, assign k h src s = some t ∧ Assigned k.counter h r t := by
  constructor
  · rintro ⟨r', t, hr', ht⟩
    obtain rfl := Option.some.inj (hr.symm.trans hr')
    exact ⟨t, ht⟩
  · rintro ⟨t, ht⟩
    exact ⟨r, t, hr, ht⟩

/-- A copy into a `shared_ptr` reads its source before anything goes. -/
theorem sharedCopy_iff (hi : Intact atomicUnsigned s) (hh : s.handle h = some own)
    (hr : s.handle src = some r) :
    (∃ t, sharedCopyAssign h src s = some t ∧ Assigned atomicUnsigned h r t) ↔
      Stays (s.setPtr h r.ptr) h ∧
        Room atomicUnsigned s (s.setPtr h r.ptr) own.ptr r.ptr := by
  obtain ⟨u, hu, hhandles, hsome, hloose⟩ := hi.exchange hh hr
  obtain ⟨t, ht, hrem⟩ := release_spec hloose
  have huh : u.handle h = some own := by rw [Heap.handle, hhandles]; exact hh
  have hassign : sharedCopyAssign h src s = some t := by
    simp [sharedCopyAssign, hr, hu, huh, ht]
  have hhandle : ∀ m, (u.setPtr h r.ptr).handle m = (s.setPtr h r.ptr).handle m := fun m => by
    simp only [Heap.setPtr, Heap.setHandle, Heap.handle, hhandles]
  have hstays : ∀ m, Stays (u.setPtr h r.ptr) m ↔ Stays (s.setPtr h r.ptr) m := fun m =>
    stays_congr hhandle hsome
  have htarget := setPtr_handle huh r.ptr
  -- the references on an object that the target comes to hold
  have hrefs : ∀ i, r.ptr = some i →
      t.refs i + (u.setPtr h r.ptr).refs i + one own.ptr i = t.refs i + s.refs i + 1 := by
    intro i hp
    have hset := refs_setPtr huh r.ptr i
    have hsame : u.refs i = s.refs i := by rw [Heap.refs, hhandles, Heap.refs]
    rw [hp, one_self, hsame] at hset
    rw [hp]
    omega
  have hroom : Room atomicUnsigned s (s.setPtr h r.ptr) own.ptr r.ptr ↔
      ∀ i, r.ptr = some i → t.refs i ≤ atomicUnsigned.max := by
    refine forall_congr' fun i => forall_congr' fun hp => ?_
    rw [room_iff hrem (hi.fits i) (hrefs i hp)]
    simp only [hhandle, hstays]
  rw [hroom, ← hstays]
  constructor
  · rintro ⟨t', ht', hptr, -, hit⟩
    obtain rfl := Option.some.inj (hassign.symm.trans ht')
    refine ⟨?_, fun i _ => hit.fits i⟩
    by_contra hgone
    rw [hrem.gone h _ htarget hgone] at hptr
    cases hptr
  · rintro ⟨hstay, hfit⟩
    have hth := hrem.stays h _ htarget hstay
    have hit : Intact atomicUnsigned t := by
      refine intact_of_exact hrem.exact fun i => ?_
      by_cases hp : r.ptr = some i
      · exact hfit i hp
      · have hset := refs_setPtr huh r.ptr i
        have hsame : u.refs i = s.refs i := by rw [Heap.refs, hhandles, Heap.refs]
        have hle := hrem.refs_le i
        have hmax := hi.fits i
        rw [one_of_ne hp, hsame] at hset
        omega
    refine ⟨t, hassign, by rw [hth, Option.map_some], fun i hp => ?_, hit⟩
    exact hit.live hth hp

/-- A heap with the same references on the same objects is as exact. -/
theorem Intact.congr (hi : Intact C s) (hcount : t.count = s.count)
    (hrefs : ∀ i, t.refs i = s.refs i)
    (hs : ∀ m x k, t.handle m = some x → x.owner = some k → (t.count k).isSome) : Intact C t where
  counts i c hc := by
    rw [hrefs]
    exact hi.counts i c (hcount ▸ hc)
  fits i := by
    rw [hrefs]
    exact hi.fits i
  live_iff i := by
    rw [hrefs, hcount]
    exact hi.live_iff i
  housed := hs

/-- A move into a `shared_ptr` exchanges two handles. -/
theorem sharedMove_assigned (hi : Intact C s) (hh : s.handle h = some own)
    (hr : s.handle src = some r) :
    ∃ t, sharedMoveAssign h src s = some t ∧ Assigned C h r t := by
  refine ⟨(s.setPtr h r.ptr).setPtr src own.ptr, by simp [sharedMoveAssign, hh, hr], ?_⟩
  by_cases hne : h = src
  · subst hne
    obtain rfl := Option.some.inj (hh.symm.trans hr)
    rw [setPtr_setPtr hh, setPtr_self hh]
    exact ⟨by rw [hh, Option.map_some], fun i hp => hi.live hh hp, hi⟩
  · have hsrc : (s.setPtr h r.ptr).handle src = some r := by rw [setPtr_of_ne _ (Ne.symm hne), hr]
    have hth : ((s.setPtr h r.ptr).setPtr src own.ptr).handle h = some { own with ptr := r.ptr } := by
      rw [setPtr_of_ne _ hne, setPtr_handle hh]
    have hit : Intact C ((s.setPtr h r.ptr).setPtr src own.ptr) := by
      refine hi.congr rfl (fun i => ?_) (housed_setPtr (housed_setPtr hi.housed _ h) _ src)
      have h₁ := refs_setPtr hh r.ptr i
      have h₂ := refs_setPtr hsrc own.ptr i
      omega
    exact ⟨by rw [hth, Option.map_some], fun i hp => hit.live hth hp, hit⟩

/-- Releasing before the target is written: the run goes as if the target held nothing,
and gets back to it exactly when the target stays. -/
theorem releaseFirst_spec (hi : Intact C s) (hh : s.handle h = some own) :
    ∃ t, Remains C (s.setPtr h none) t ∧
      (Stays (s.setPtr h none) h → s.release C own.ptr = some (t.setPtr h own.ptr) ∧
        t.handle h = some { own with ptr := none }) ∧
      ∀ u, s.release C own.ptr = some u → u.handle h ≠ none → Stays (s.setPtr h none) h := by
  obtain ⟨t, ht, hrem⟩ := release_spec (hi.loose hh)
  have htarget := setPtr_handle hh none
  have hback : (s.setPtr h none).setPtr h own.ptr = s := by
    rw [setPtr_setPtr hh, setPtr_self hh]
  refine ⟨t, hrem, fun hstay => ?_, fun u hu halive => ?_⟩
  · have hth := hrem.stays h _ htarget hstay
    have hrun := release_setPtr own.ptr ht (m := h) (by rw [hth]; exact Option.some_ne_none _)
    rw [hback] at hrun
    exact ⟨hrun, hth⟩
  · by_contra hgone
    have hrun := release_setPtr none hu halive
    rw [ht] at hrun
    obtain rfl := Option.some.inj hrun
    obtain ⟨y, hy⟩ := Option.ne_none_iff_exists'.mp halive
    have hdead := hrem.gone h _ htarget hgone
    rw [setPtr_handle hy] at hdead
    cases hdead

/-- The target and the source can still be used after the release exactly when both stay. -/
theorem released_iff (hi : Intact C s) (hh : s.handle h = some own) (hr : s.handle src = some r)
    (hne : h ≠ src) :
    ∃ t, Remains C (s.setPtr h none) t ∧
      (∀ u, s.release C own.ptr = some u → (u.handle h).isSome → (u.handle src).isSome →
        Stays (s.setPtr h none) h ∧ Stays (s.setPtr h none) src) ∧
      (Stays (s.setPtr h none) h → Stays (s.setPtr h none) src →
        s.release C own.ptr = some (t.setPtr h own.ptr) ∧
        t.handle h = some { own with ptr := none } ∧ t.handle src = some r) := by
  obtain ⟨t, hrem, hstay, halive⟩ := releaseFirst_spec hi hh
  have hsrc : (s.setPtr h none).handle src = some r := by rw [setPtr_of_ne _ (Ne.symm hne), hr]
  refine ⟨t, hrem, fun u hu huh husrc => ?_, fun hsh hss => ?_⟩
  · have hsh := halive u hu (Option.isSome_iff_ne_none.mp huh)
    refine ⟨hsh, ?_⟩
    obtain rfl := Option.some.inj ((hstay hsh).1.symm.trans hu)
    by_contra hgone
    rw [setPtr_of_ne _ (Ne.symm hne), hrem.gone src r hsrc hgone] at husrc
    cases husrc
  · exact ⟨(hstay hsh).1, (hstay hsh).2, hrem.stays src r hsrc hss⟩

/-- What the release leaves is exact, and no object has more references than before. -/
theorem released_intact (hi : Intact C s) (hh : s.handle h = some own)
    (hrem : Remains C (s.setPtr h none) t) : Intact C t := by
  refine intact_of_exact hrem.exact fun i => ?_
  have h₁ := hrem.refs_le i
  have h₂ := refs_setPtr hh none i
  have h₃ := hi.fits i
  rw [one_none] at h₂
  omega

/-- The source is moved over to a target that holds nothing. -/
theorem moved_assigned (hi : Intact C t) (hh : t.handle h = some { own with ptr := none })
    (hr : t.handle src = some r) (hne : h ≠ src) :
    Assigned C h r (((t.setPtr h q).setPtr h r.ptr).setPtr src none) := by
  rw [setPtr_setPtr hh]
  have hsrc : (t.setPtr h r.ptr).handle src = some r := by rw [setPtr_of_ne _ (Ne.symm hne), hr]
  have hth : ((t.setPtr h r.ptr).setPtr src none).handle h = some { own with ptr := r.ptr } := by
    rw [setPtr_of_ne _ hne, setPtr_handle hh]
  have hit : Intact C ((t.setPtr h r.ptr).setPtr src none) := by
    refine hi.congr rfl (fun i => ?_) (housed_setPtr (housed_setPtr hi.housed _ h) _ src)
    have h₁ := refs_setPtr hh r.ptr i
    have h₂ := refs_setPtr hsrc none i
    rw [one_none] at h₁ h₂
    omega
  exact ⟨by rw [hth, Option.map_some], fun i hp => hit.live hth hp, hit⟩

theorem sharedMoveChild_iff (hi : Intact atomicUnsigned s) (hh : s.handle h = some own)
    (hr : s.handle src = some r) (hne : h ≠ src) :
    (∃ t, sharedMoveAssignChild h src s = some t ∧ Assigned atomicUnsigned h r t) ↔
      Stays (s.setPtr h none) h ∧ Stays (s.setPtr h none) src := by
  obtain ⟨t, hrem, halive, hstay⟩ := released_iff hi hh hr hne
  constructor
  · rintro ⟨v, hv, -⟩
    simp only [sharedMoveAssignChild, hh, Option.bind_eq_bind, Option.bind_some] at hv
    obtain ⟨u, hu, hv⟩ := Option.bind_eq_some_iff.mp hv
    obtain ⟨y, hy, hv⟩ := Option.bind_eq_some_iff.mp hv
    obtain ⟨z, hz, -⟩ := Option.bind_eq_some_iff.mp hv
    exact halive u hu (by rw [hy, Option.isSome_some]) (by rw [hz, Option.isSome_some])
  · rintro ⟨hsh, hss⟩
    obtain ⟨hrel, hth, htsrc⟩ := hstay hsh hss
    have hsrc : (t.setPtr h own.ptr).handle src = some r := by
      rw [setPtr_of_ne _ (Ne.symm hne), htsrc]
    refine ⟨_, ?_, moved_assigned (q := own.ptr) (released_intact hi hh hrem) hth htsrc hne⟩
    simp [sharedMoveAssignChild, hh, hrel, setPtr_handle hth, hsrc]

/-- An assignment to itself changes nothing. -/
theorem self_assigned (hi : Intact C s) (hr : s.handle h = some r) : Assigned C h r s :=
  ⟨by rw [hr, Option.map_some], fun _ hp => hi.live hr hp, hi⟩

theorem holderMove_iff (hi : Intact refItem s) (hh : s.handle h = some own)
    (hr : s.handle src = some r) :
    (∃ t, holderMoveAssign h src s = some t ∧ Assigned refItem h r t) ↔
      h = src ∨ Stays (s.setPtr h none) h ∧ Stays (s.setPtr h none) src := by
  by_cases hne : h = src
  · subst hne
    exact iff_of_true ⟨s, by simp [holderMoveAssign, hh], self_assigned hi hr⟩ (.inl rfl)
  · obtain ⟨t, hrem, halive, hstay⟩ := released_iff hi hh hr hne
    rw [or_iff_right hne]
    constructor
    · rintro ⟨v, hv, -⟩
      simp only [holderMoveAssign, hh, hne, if_false, Option.bind_eq_bind, Option.bind_some] at hv
      obtain ⟨u, hu, hv⟩ := Option.bind_eq_some_iff.mp hv
      obtain ⟨y, hy, hv⟩ := Option.bind_eq_some_iff.mp hv
      obtain ⟨z, hz, -⟩ := Option.bind_eq_some_iff.mp hv
      exact halive u hu (by rw [hz, Option.isSome_some]) (by rw [hy, Option.isSome_some])
    · rintro ⟨hsh, hss⟩
      obtain ⟨hrel, hth, htsrc⟩ := hstay hsh hss
      have hsrc : (t.setPtr h own.ptr).handle src = some r := by
        rw [setPtr_of_ne _ (Ne.symm hne), htsrc]
      refine ⟨_, ?_, moved_assigned (q := own.ptr) (released_intact hi hh hrem) hth htsrc hne⟩
      simp [holderMoveAssign, hh, hne, hrel, setPtr_handle hth, hsrc]

/-- The target takes a reference on what the source holds, if its counter has room. -/
theorem copied_assigned_iff (hi : Intact C t) (hh : t.handle h = some { own with ptr := none })
    (hr : t.handle src = some r) :
    ∃ u, ((t.setPtr h q).setPtr h r.ptr).retain C r.ptr = some u ∧
      (Assigned C h r u ↔ ∀ i, r.ptr = some i → t.refs i + 1 ≤ C.max) := by
  have hrefs : ∀ i, (t.setPtr h r.ptr).refs i = t.refs i + one r.ptr i := fun i => by
    have := refs_setPtr hh r.ptr i
    rwa [one_none, Nat.add_zero] at this
  obtain ⟨u, hu, hhandles, hsome, hcounts⟩ := hi.retain hr
  -- retaining first and writing the target then comes to the same
  have hset : ((t.setPtr h q).setPtr h r.ptr).retain C r.ptr = some (u.setPtr h r.ptr) := by
    rw [setPtr_setPtr hh]
    cases hp : r.ptr with
    | none =>
      rw [hp] at hu
      obtain rfl := Option.some.inj hu
      rfl
    | some i =>
      rw [hp] at hu
      obtain ⟨c, hc, rfl⟩ := Option.map_eq_some_iff.mp hu
      simp only [Heap.retain, setPtr_count, hc, Option.map_some, setPtr_setCount]
  have hsame : ∀ i, (u.setPtr h r.ptr).refs i = t.refs i + one r.ptr i := fun i => by
    rw [← hrefs]
    simp only [Heap.refs, Heap.setPtr, Heap.setHandle, Heap.handle, hhandles]
  have huh : u.handle h = some { own with ptr := none } := by
    rw [Heap.handle, hhandles]
    exact hh
  have hth := setPtr_handle huh r.ptr
  refine ⟨u.setPtr h r.ptr, hset, fun hassigned i hp => ?_, fun hroom => ?_⟩
  · have := hassigned.2.2.fits i
    rwa [hsame, hp, one_self] at this
  · have hexact : Exact C (u.setPtr h r.ptr) := by
      refine ⟨fun i c hc => ?_, fun i => ?_, housed_setPtr (fun m x k hx hk => ?_) r.ptr h⟩
      · rw [hsame]
        exact hcounts i c hc
      · rw [hsame, setPtr_count, hsome, hi.live_iff]
        refine ⟨fun hpos => by omega, fun hpos => ?_⟩
        by_cases hp : r.ptr = some i
        · exact refs_pos_iff.mpr ⟨src, r, hr, hp⟩
        · rwa [one_of_ne hp] at hpos
      · rw [hsome]
        rw [Heap.handle, hhandles] at hx
        exact hi.housed m x k hx hk
    have hit : Intact C (u.setPtr h r.ptr) := by
      refine intact_of_exact hexact fun i => ?_
      rw [hsame]
      by_cases hp : r.ptr = some i
      · rw [hp, one_self]
        exact hroom i hp
      · rw [one_of_ne hp]
        exact hi.fits i
    exact ⟨by rw [hth, Option.map_some], fun i hp => hit.live hth hp, hit⟩

theorem holderCopy_iff (hi : Intact refItem s) (hh : s.handle h = some own)
    (hr : s.handle src = some r) :
    (∃ t, holderCopyAssign h src s = some t ∧ Assigned refItem h r t) ↔
      h = src ∨ Stays (s.setPtr h none) h ∧ Stays (s.setPtr h none) src ∧
        Room refItem s (s.setPtr h none) own.ptr r.ptr := by
  by_cases hne : h = src
  · subst hne
    exact iff_of_true ⟨s, by simp [holderCopyAssign, hh], self_assigned hi hr⟩ (.inl rfl)
  · obtain ⟨t, hrem, halive, hstay⟩ := released_iff hi hh hr hne
    rw [or_iff_right hne]
    -- the references on an object that the target comes to hold
    have hroom : Room refItem s (s.setPtr h none) own.ptr r.ptr ↔
        ∀ i, r.ptr = some i → t.refs i + 1 ≤ refItem.max := by
      refine forall_congr' fun i => forall_congr' fun _ => ?_
      have hset := refs_setPtr hh none i
      rw [one_none] at hset
      exact (room_iff hrem (hi.fits i) (by omega)).symm
    rw [hroom]
    constructor
    · rintro ⟨v, hv, hassigned⟩
      have hv' := hv
      simp only [holderCopyAssign, hh, hne, if_false, Option.bind_eq_bind, Option.bind_some] at hv'
      obtain ⟨u, hu, hv'⟩ := Option.bind_eq_some_iff.mp hv'
      obtain ⟨y, hy, hv'⟩ := Option.bind_eq_some_iff.mp hv'
      obtain ⟨z, hz, hv'⟩ := Option.bind_eq_some_iff.mp hv'
      obtain ⟨hsh, hss⟩ :=
        halive u hu (by rw [hz, Option.isSome_some]) (by rw [hy, Option.isSome_some])
      obtain ⟨hrel, hth, htsrc⟩ := hstay hsh hss
      obtain rfl := Option.some.inj (hrel.symm.trans hu)
      rw [setPtr_of_ne _ (Ne.symm hne), htsrc] at hy
      obtain rfl := Option.some.inj hy
      obtain ⟨w, hw, hiff⟩ :=
        copied_assigned_iff (q := own.ptr) (released_intact hi hh hrem) hth htsrc
      obtain rfl := Option.some.inj (hw.symm.trans hv')
      exact ⟨hsh, hss, hiff.mp hassigned⟩
    · rintro ⟨hsh, hss, hfit⟩
      obtain ⟨hrel, hth, htsrc⟩ := hstay hsh hss
      have hsrc : (t.setPtr h own.ptr).handle src = some r := by
        rw [setPtr_of_ne _ (Ne.symm hne), htsrc]
      obtain ⟨w, hw, hiff⟩ :=
        copied_assigned_iff (q := own.ptr) (released_intact hi hh hrem) hth htsrc
      refine ⟨w, ?_, hiff.mpr hfit⟩
      simp [holderCopyAssign, hh, hne, hrel, setPtr_handle hth, hsrc, hw]

end Assignments

/-- From any heap with exact counts, an assignment leaves the target with what the source
held and all counts exact, and uses no handle that is gone, exactly when it is safe. -/
theorem assigns_iff {k : Assignment} {s : Heap} {h src : ℕ} (hi : Intact k.counter s)
    (hh : (s.handle h).isSome) (hr : (s.handle src).isSome) (hk : k.Typed h src) :
    Good k h src s ↔ Safe k h src s := by
  obtain ⟨own, hh⟩ := Option.isSome_iff_exists.mp hh
  obtain ⟨r, hr⟩ := Option.isSome_iff_exists.mp hr
  have hsafe : ∀ {P : Handle → Handle → Prop},
      (∀ own' r', s.handle h = some own' → s.handle src = some r' → P own' r') ↔ P own r := by
    intro P
    refine ⟨fun hp => hp own r hh hr, fun hp own' r' hown' hr' => ?_⟩
    obtain rfl := Option.some.inj (hh.symm.trans hown')
    obtain rfl := Option.some.inj (hr.symm.trans hr')
    exact hp
  rw [good_iff hr, Safe, hsafe]
  cases k with
  | sharedCopy => exact sharedCopy_iff hi hh hr
  | sharedMove => exact iff_of_true (sharedMove_assigned hi hh hr) trivial
  | sharedCopyChild => exact sharedCopy_iff hi hh hr
  | sharedMoveChild => exact sharedMoveChild_iff hi hh hr (hk (.inr rfl))
  | holderCopy => exact holderCopy_iff hi hh hr
  | holderMove => exact holderMove_iff hi hh hr

/-- The list `p → 0 → 1`: `p` is handle 0, and handle 1 is the member `next` of object 0. -/
def list : Heap where
  count i := if i < 2 then some 1 else none
  handles := [some ⟨none, some 0⟩, some ⟨some 0, some 1⟩]

theorem list_refs (i : ℕ) : list.refs i = if i < 2 then 1 else 0 := by
  match i with
  | 0 => rfl
  | 1 => rfl
  | i + 2 => simp [Heap.refs, list]

theorem list_handle {m : ℕ} {x : Handle} (h : list.handle m = some x) :
    m = 0 ∧ x = ⟨none, some 0⟩ ∨ m = 1 ∧ x = ⟨some 0, some 1⟩ := by
  match m with
  | 0 => exact .inl ⟨rfl, (Option.some.inj h).symm⟩
  | 1 => exact .inr ⟨rfl, (Option.some.inj h).symm⟩
  | m + 2 => simp [Heap.handle, list] at h

theorem list_intact {C : Counter} (hC : 1 ≤ C.max) : Intact C list where
  counts i c hc := by
    rw [list_refs]
    simp only [list] at hc
    split at hc
    · next hi => rw [if_pos hi, ← Option.some.inj hc]; rfl
    · cases hc
  fits i := by
    rw [list_refs]
    split <;> omega
  live_iff i := by
    rw [list_refs]
    simp only [list]
    split <;> simp
  housed m x k hx hk := by
    rcases list_handle hx with ⟨-, rfl⟩ | ⟨-, rfl⟩
    · cases hk
    · obtain rfl := Option.some.inj hk
      rfl

/-- The step `p = p->next` by a copy into a `shared_ptr`. -/
theorem assigns_list_next : Good .sharedCopy 0 1 list := by
  refine (assigns_iff (list_intact (by decide)) (by decide) (by decide) (by decide)).mpr ?_
  intro own r hown hr
  refine ⟨fun x k hx hk => ?_, fun i hi => .inl ?_⟩
  · obtain ⟨-, rfl⟩ | ⟨h, -⟩ := list_handle hown
    · rw [setPtr_handle hown] at hx
      obtain rfl := Option.some.inj hx
      cases hk
    · cases h
  · rw [list_refs]
    split <;> decide

/-- The step `p = p->next` reads `next` in an object that is gone. -/
theorem list_next_lost :
    (Intact refItem list ∧ ¬Good .holderCopy 0 1 list ∧ ¬Good .holderMove 0 1 list) ∧
      Intact atomicUnsigned list ∧ ¬Good .sharedMoveChild 0 1 list := by
  have hrun : ∀ k : Assignment, assign k 0 1 list = none → ¬Good k 0 1 list := by
    rintro k hk ⟨r, t, -, ht, -⟩
    rw [hk] at ht
    cases ht
  exact ⟨⟨list_intact (by decide), hrun _ (by decide), hrun _ (by decide)⟩,
    list_intact (by decide), hrun _ (by decide)⟩

end KernelLib.HandleAssign
