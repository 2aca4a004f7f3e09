import Mathlib.Data.Int.Basic
import Mathlib.Data.List.Nodup
import Mathlib.Logic.Function.Basic

/-!
# Deletion that cascades

Counted objects may have handles as members: deleting an object destroys its
member handles in turn, and a handle that was the last on another object
deletes that one. The nested destructor calls are kept on a stack of what
remains to be done. Releasing a reference deletes exactly the objects whose
handles all lie in deleted objects, whatever the shape of the graph, and
leaves the counts of all others exact.
-/

namespace KernelLib.CascadingDelete

/-- A kind of reference counter. -/
structure Counter where
  /-- The value that the counter keeps. -/
  wrap : ℤ → ℤ
  /-- Its largest value. -/
  max : ℕ
  /-- A counter decremented to this value deletes its object. -/
  gone : ℤ → Bool
  wrap_of_le : ∀ n : ℕ, n ≤ max → wrap n = n
  wrap_le : ∀ z, wrap z ≤ max
  wrap_add : ∀ z k, wrap (wrap z + k) = wrap (z + k)
  gone_iff : ∀ n : ℕ, n ≤ max → (gone n = true ↔ n = 0)

/-- A handle: the object it is a member of, if any, and the object it points at. -/
structure Handle where
  /-- The object that the handle is a member of. -/
  owner : Option ℕ
  /-- The object that the handle holds. -/
  ptr : Option ℕ
  deriving DecidableEq, Repr

/-- The objects with their counters and all handles ever constructed. -/
structure Heap where
  /-- The counter of each live object. -/
  count : ℕ → Option ℤ
  /-- One slot for each handle in the order of construction, `none` once it is
  destroyed. -/
  handles : List (Option Handle)

/-- A live handle. -/
def Heap.handle (m : ℕ) (s : Heap) : Option Handle := (s.handles[m]?).join

/-- Overwrite or end a handle. -/
def Heap.setHandle (m : ℕ) (x : Option Handle) (s : Heap) : Heap :=
  { s with handles := s.handles.set m x }

/-- Write the pointer of a handle. -/
def Heap.setPtr (m : ℕ) (p : Option ℕ) (s : Heap) : Heap :=
  s.setHandle m ((s.handle m).map fun x => { x with ptr := p })

/-- Write the counter of an object, or free the object. -/
def Heap.setCount (i : ℕ) (c : Option ℤ) (s : Heap) : Heap :=
  { s with count := Function.update s.count i c }

/-- The live members of an object, the last constructed first. -/
def Heap.members (i : ℕ) (s : Heap) : List ℕ :=
  ((List.range s.handles.length).filter fun m => (s.handle m).bind Handle.owner = some i).reverse

/-- What remains to be done in a destruction. -/
inductive Task where
  /-- Run the destructor of a member handle. -/
  | destroy (m : ℕ)
  /-- Free an object whose members are destroyed. -/
  | free (i : ℕ)
  deriving DecidableEq, Repr

/-- Decrement the counter of an object, with what this leaves to be done. -/
def Heap.dec (C : Counter) (i : ℕ) (s : Heap) : Option (Heap × List Task) :=
  (s.count i).map fun c =>
    let r := C.wrap (c - 1)
    (s.setCount i (some r), if C.gone r then (s.members i).map .destroy ++ [.free i] else [])

/-- Work off what remains, for a bounded number of steps. -/
def cascade (C : Counter) : ℕ → List Task → Heap → Option Heap
  | _, [], s => some s
  | 0, _ :: _, _ => none
  | n + 1, .destroy m :: ts, s => do
    let x ← s.handle m
    let s := s.setHandle m none
    match x.ptr with
    | none => cascade C n ts s
    | some i => do
      let (s, new) ← s.dec C i
      cascade C n (new ++ ts) s
  | n + 1, .free i :: ts, s => cascade C n ts (s.setCount i none)

/-- Give up a reference. -/
def Heap.release (C : Counter) (p : Option ℕ) (s : Heap) : Option Heap :=
  match p with
  | none => some s
  | some i => do
    let (s, new) ← s.dec C i
    cascade C (2 * s.handles.length + 1) new s

/-- Take a reference. -/
def Heap.retain (C : Counter) (p : Option ℕ) (s : Heap) : Option Heap :=
  match p with
  | none => some s
  | some i => (s.count i).map fun c => s.setCount i (some (C.wrap (c + 1)))

/-- How many live handles hold an object. -/
def Heap.refs (s : Heap) (i : ℕ) : ℕ := s.handles.countP fun x => x.bind Handle.ptr = some i

/-- Every live object has a handle and as many as its counter tells, as far as that goes,
and live handles hold, and lie in, live objects. -/
structure Exact (C : Counter) (s : Heap) : Prop where
  counts : ∀ i c, s.count i = some c → c = C.wrap (s.refs i)
  live_iff : ∀ i, (s.count i).isSome ↔ 0 < s.refs i
  housed : ∀ m x k, s.handle m = some x → x.owner = some k → (s.count k).isSome

/-- The objects that go when nothing but handles keeps them: all handles on them lie in
objects that go. -/
inductive Doomed (s : Heap) : ℕ → Prop
  | intro {i : ℕ} (hlive : (s.count i).isSome)
      (howned : ∀ m x, s.handle m = some x → x.ptr = some i → x.owner ≠ none)
      (hdoomed : ∀ m x k, s.handle m = some x → x.ptr = some i → x.owner = some k → Doomed s k) :
      Doomed s i

section Handles

variable {s : Heap} {m n i : ℕ} {x y : Handle} {o : Option Handle}

/-- What a handle is, by the list of the handles. -/
theorem handle_eq_some : s.handle m = some x ↔ s.handles[m]? = some (some x) := by
  simp [Heap.handle, Option.join_eq_some_iff]

/-- A handle that exists has a place in the list. -/
theorem handle_lt (h : s.handle m = some x) : m < s.handles.length :=
  (List.getElem?_eq_some_iff.mp (handle_eq_some.mp h)).1

/-- The handle that was set is what it was set to. -/
theorem setHandle_self (h : m < s.handles.length) : (s.setHandle m o).handle m = o := by
  simp [Heap.handle, Heap.setHandle, h]

/-- Setting a handle leaves the others. -/
theorem setHandle_of_ne (h : n ≠ m) : (s.setHandle m o).handle n = s.handle n := by
  simp [Heap.handle, Heap.setHandle, List.getElem?_set_ne (Ne.symm h)]

/-- Setting a handle leaves the counts. -/
@[simp] theorem setHandle_count : (s.setHandle m o).count = s.count := rfl

@[simp] theorem setHandle_length : (s.setHandle m o).handles.length = s.handles.length :=
  List.length_set

/-- Setting a count leaves the handles. -/
@[simp] theorem setCount_handle (c : Option ℤ) : (s.setCount i c).handle m = s.handle m := rfl

@[simp] theorem setCount_handles (c : Option ℤ) : (s.setCount i c).handles = s.handles := rfl

/-- The references to an object do not depend on the counts. -/
@[simp] theorem setCount_refs (c : Option ℤ) (j : ℕ) : (s.setCount i c).refs j = s.refs j := rfl

/-- The count that was set is what it was set to. -/
@[simp] theorem setCount_self (c : Option ℤ) : (s.setCount i c).count i = c :=
  Function.update_self ..

/-- Setting a count leaves the others. -/
theorem setCount_of_ne {j : ℕ} (c : Option ℤ) (h : j ≠ i) : (s.setCount i c).count j = s.count j :=
  Function.update_of_ne h ..

/-- The members of an object are the handles that it owns. -/
theorem mem_members : m ∈ s.members i ↔ ∃ x, s.handle m = some x ∧ x.owner = some i := by
  simp only [Heap.members, List.mem_reverse, List.mem_filter, List.mem_range, decide_eq_true_eq,
    Option.bind_eq_some_iff]
  exact ⟨And.right, fun ⟨x, hx, ho⟩ => ⟨handle_lt hx, x, hx, ho⟩⟩

theorem members_nodup : (s.members i).Nodup :=
  List.nodup_reverse.mpr (List.nodup_range.filter _)

/-- A handle on an object counts. -/
theorem refs_pos_iff : 0 < s.refs i ↔ ∃ m x, s.handle m = some x ∧ x.ptr = some i := by
  simp only [Heap.refs, List.countP_pos_iff, decide_eq_true_eq, Option.bind_eq_some_iff]
  constructor
  · rintro ⟨_, hmem, x, rfl, hx⟩
    obtain ⟨m, hm⟩ := List.mem_iff_getElem?.mp hmem
    exact ⟨m, x, handle_eq_some.mpr hm, hx⟩
  · rintro ⟨m, x, hm, hx⟩
    exact ⟨some x, List.mem_of_getElem? (handle_eq_some.mp hm), x, rfl, hx⟩

/-- Handles are counted by their slots. -/
theorem refs_eq (s : Heap) (i : ℕ) :
    s.refs i = (List.range s.handles.length).countP fun m =>
      decide ((s.handle m).bind Handle.ptr = some i) := by
  have hslots : (List.range s.handles.length).map (fun m => s.handle m) = s.handles := by
    refine List.ext_getElem (by simp) fun m h₁ h₂ => ?_
    simp [Heap.handle, h₂]
  conv_lhs => rw [Heap.refs, ← hslots, List.countP_map]
  rfl

/-- Fewer handles on an object are no more references on it. -/
theorem refs_le {t : Heap} (hlen : t.handles.length = s.handles.length)
    (h : ∀ m x, t.handle m = some x → x.ptr = some i → s.handle m = some x) :
    t.refs i ≤ s.refs i := by
  rw [refs_eq, refs_eq, hlen]
  refine List.countP_mono_left fun m _ hm => ?_
  simp only [decide_eq_true_eq, Option.bind_eq_some_iff] at hm ⊢
  obtain ⟨x, hx, hp⟩ := hm
  exact ⟨x, h m x hx hp, hp⟩

/-- One reference on an object, or none. -/
def one (p : Option ℕ) (i : ℕ) : ℕ := if p = some i then 1 else 0

@[simp] theorem one_none (i : ℕ) : one none i = 0 := by simp [one]

/-- A pointer to an object is one reference to it. -/
@[simp] theorem one_self (i : ℕ) : one (some i) i = 1 := by simp [one]

/-- A pointer to something else is none. -/
theorem one_of_ne {p : Option ℕ} (h : p ≠ some i) : one p i = 0 := if_neg h

/-- Replacing a handle trades what it held for what the new one holds. -/
theorem refs_setHandle (h : s.handle m = some x) (o : Option Handle) (i : ℕ) :
    (s.setHandle m o).refs i + one x.ptr i = s.refs i + one (o.bind Handle.ptr) i := by
  obtain ⟨hlt, he⟩ := List.getElem?_eq_some_iff.mp (handle_eq_some.mp h)
  have hle : one x.ptr i ≤ s.refs i := by
    rw [one]
    split
    · exact refs_pos_iff.mpr ⟨m, x, h, ‹_›⟩
    · exact Nat.zero_le _
  have hset : (s.setHandle m o).refs i = s.refs i - one x.ptr i + one (o.bind Handle.ptr) i := by
    simp only [Heap.refs, Heap.setHandle, List.countP_set hlt, he, one, decide_eq_true_eq,
      Option.bind_some]
  omega

/-- Setting the pointer of a handle that exists keeps its owner. -/
theorem setPtr_eq (h : s.handle m = some x) (p : Option ℕ) :
    s.setPtr m p = s.setHandle m (some { x with ptr := p }) := by
  rw [Heap.setPtr, h, Option.map_some]

/-- The handle has the new pointer. -/
theorem setPtr_handle (h : s.handle m = some x) (p : Option ℕ) :
    (s.setPtr m p).handle m = some { x with ptr := p } := by
  rw [setPtr_eq h, setHandle_self (handle_lt h)]

/-- Setting a pointer leaves the other handles. -/
theorem setPtr_of_ne (p : Option ℕ) (h : n ≠ m) : (s.setPtr m p).handle n = s.handle n :=
  setHandle_of_ne h

@[simp] theorem setPtr_count (p : Option ℕ) : (s.setPtr m p).count = s.count := rfl

@[simp] theorem setPtr_length (p : Option ℕ) :
    (s.setPtr m p).handles.length = s.handles.length := setHandle_length

/-- Of two pointers that are set the second one stays. -/
theorem setPtr_setPtr (h : s.handle m = some x) (p q : Option ℕ) :
    (s.setPtr m p).setPtr m q = s.setPtr m q := by
  rw [setPtr_eq (setPtr_handle h p), setPtr_eq h, setPtr_eq h]
  simp [Heap.setHandle]

/-- Setting the pointer that is there changes nothing. -/
theorem setPtr_self (h : s.handle m = some x) : s.setPtr m x.ptr = s := by
  rw [setPtr_eq h]
  obtain ⟨hlt, he⟩ := List.getElem?_eq_some_iff.mp (handle_eq_some.mp h)
  simp [Heap.setHandle, ← he]

/-- An object loses the reference of the old pointer and gets that of the new one. -/
theorem refs_setPtr (h : s.handle m = some x) (p : Option ℕ) (i : ℕ) :
    (s.setPtr m p).refs i + one x.ptr i = s.refs i + one p i := by
  rw [setPtr_eq h]
  exact refs_setHandle h _ i

/-- A handle lies where it lay, whatever it holds. -/
theorem setPtr_owner (p : Option ℕ) (n : ℕ) :
    ((s.setPtr m p).handle n).bind Handle.owner = (s.handle n).bind Handle.owner := by
  by_cases hn : n = m
  · subst hn
    cases h : s.handle n with
    | none =>
      have hnone : (s.setPtr n p).handle n = none := by
        rcases lt_or_ge n s.handles.length with hlt | hge
        · rw [Heap.setPtr, h, Option.map_none, setHandle_self hlt]
        · simp [Heap.handle, hge]
      rw [hnone]
    | some x => rw [setPtr_handle h, Option.bind_some, Option.bind_some]
  · rw [setPtr_of_ne p hn]

/-- Setting a pointer leaves the owners. -/
theorem setPtr_members (p : Option ℕ) : (s.setPtr m p).members i = s.members i := by
  simp only [Heap.members, setPtr_length, setPtr_owner]

/-- Setting a pointer and a count can be swapped. -/
theorem setPtr_setCount (p : Option ℕ) (c : Option ℤ) :
    (s.setPtr m p).setCount i c = (s.setCount i c).setPtr m p := rfl

/-- So can setting a pointer and another handle. -/
theorem setPtr_setHandle (p : Option ℕ) (o : Option Handle) (h : n ≠ m) :
    (s.setPtr m p).setHandle n o = (s.setHandle n o).setPtr m p := by
  have hm : (s.setHandle n o).handle m = s.handle m := setHandle_of_ne (Ne.symm h)
  rw [Heap.setPtr, Heap.setPtr, hm]
  simp only [Heap.setHandle, List.set_comm _ _ (Ne.symm h)]

/-- What a handle holds does not change what goes with another reference. -/
theorem dec_setPtr (C : Counter) (p : Option ℕ) :
    (s.setPtr m p).dec C i = (s.dec C i).map fun r => (r.1.setPtr m p, r.2) := by
  simp only [Heap.dec, setPtr_count, setPtr_members, Option.map_map]
  rfl

end Handles

section Runs

variable {C : Counter} {p : Option ℕ} {s₀ s t : Heap} {W : List Task} {m i k : ℕ} {x : Handle}

/-- Objects whose destruction has begun, or is over. -/
def Condemned (s₀ s : Heap) (W : List Task) (k : ℕ) : Prop :=
  .free k ∈ W ∨ (s₀.count k).isSome ∧ s.count k = none

/-- A heap on the way, with the tasks that remain and one reference that is loose: counts are
exact, the objects without handles are those to be freed, each of their members is
destroyed before, and what is condemned was doomed from the start. -/
structure Running (C : Counter) (p : Option ℕ) (s₀ s : Heap) (W : List Task) : Prop where
  counts : ∀ i c, s.count i = some c → c = C.wrap (s.refs i + one p i : ℕ)
  bounded : ∀ i, s.refs i + one p i ≤ C.max + 1
  live : ∀ i, 0 < s.refs i + one p i → (s.count i).isSome
  idle : ∀ i, (s.count i).isSome → s.refs i + one p i = 0 → .free i ∈ W
  freeing : ∀ i, .free i ∈ W → (s.count i).isSome ∧ s.refs i + one p i = 0
  housed : ∀ m x k, s.handle m = some x → x.owner = some k → (s.count k).isSome
  scheduled : ∀ A B i, W = A ++ .free i :: B →
    ∀ m x, s.handle m = some x → x.owner = some i → .destroy m ∈ A
  tasks : ∀ m, .destroy m ∈ W → ∃ x k, s.handle m = some x ∧ x.owner = some k ∧ .free k ∈ W
  nodup : W.Nodup
  same : ∀ m x, s.handle m = some x → s₀.handle m = some x
  born : ∀ i, (s.count i).isSome → (s₀.count i).isSome
  killed : ∀ m x, s₀.handle m = some x → s.handle m = none →
    ∃ k, x.owner = some k ∧ Condemned s₀ s W k
  doomed : ∀ k, Condemned s₀ s W k → Doomed s₀ k
  length : s.handles.length = s₀.handles.length

/-- An object is freed once its members are gone. -/
theorem Running.free (h : Running C none s₀ s (.free i :: W)) :
    Running C none s₀ (s.setCount i none) W := by
  obtain ⟨hsome, hzero⟩ := h.freeing i List.mem_cons_self
  have hnot : .free i ∉ W := (List.nodup_cons.mp h.nodup).1
  have hcond : ∀ k, Condemned s₀ (s.setCount i none) W k → Condemned s₀ s (.free i :: W) k := by
    rintro k (hk | ⟨hk, hnone⟩)
    · exact .inl (List.mem_cons_of_mem _ hk)
    · by_cases hki : k = i
      · exact .inl (hki ▸ List.mem_cons_self)
      · exact .inr ⟨hk, by rwa [setCount_of_ne _ hki] at hnone⟩
  have hcond' : ∀ k, Condemned s₀ s (.free i :: W) k → Condemned s₀ (s.setCount i none) W k := by
    rintro k (hk | ⟨hk, hnone⟩)
    · rcases List.mem_cons.mp hk with he | hk
      · obtain rfl : k = i := by injection he
        exact .inr ⟨h.born _ hsome, setCount_self _⟩
      · exact .inl hk
    · refine .inr ⟨hk, ?_⟩
      by_cases hki : k = i
      · rw [hki, setCount_self]
      · rwa [setCount_of_ne _ hki]
  have hcount : ∀ j, ((s.setCount i none).count j).isSome → j ≠ i ∧ (s.count j).isSome := by
    intro j hj
    by_cases hji : j = i
    · simp [hji] at hj
    · exact ⟨hji, by rwa [setCount_of_ne _ hji] at hj⟩
  constructor
  · intro j c hc
    by_cases hji : j = i
    · simp [hji] at hc
    · exact h.counts j c (by rwa [setCount_of_ne _ hji] at hc)
  · exact h.bounded
  · intro j hj
    have hji : j ≠ i := by
      rintro rfl
      rw [setCount_refs] at hj
      omega
    rw [setCount_of_ne _ hji]
    exact h.live j hj
  · intro j hj hz
    obtain ⟨hji, hj⟩ := hcount j hj
    exact (List.mem_cons.mp (h.idle j hj hz)).resolve_left fun he => hji (by injection he)
  · intro j hj
    have hji : j ≠ i := fun he => hnot (he ▸ hj)
    rw [setCount_of_ne _ hji]
    exact h.freeing j (List.mem_cons_of_mem _ hj)
  · intro m x k hx hk
    have hki : k ≠ i := by
      rintro rfl
      exact absurd (h.scheduled [] W k rfl m x hx hk) List.not_mem_nil
    rw [setCount_of_ne _ hki]
    exact h.housed m x k hx hk
  · intro A B j hW m x hx hj
    have hmem := h.scheduled (.free i :: A) B j (by rw [hW]; rfl) m x hx hj
    exact (List.mem_cons.mp hmem).resolve_left nofun
  · intro m hm
    obtain ⟨x, k, hx, hk, hfree⟩ := h.tasks m (List.mem_cons_of_mem _ hm)
    refine ⟨x, k, hx, hk, (List.mem_cons.mp hfree).resolve_left fun he => ?_⟩
    obtain rfl : k = i := by injection he
    exact absurd (h.scheduled [] W k rfl m x hx hk) List.not_mem_nil
  · exact (List.nodup_cons.mp h.nodup).2
  · exact h.same
  · exact fun j hj => h.born j (hcount j hj).2
  · intro m x hx hnone
    obtain ⟨k, hk, hc⟩ := h.killed m x hx hnone
    exact ⟨k, hk, hcond' k hc⟩
  · exact fun k hk => h.doomed k (hcond k hk)
  · exact h.length

/-- A destroyed member leaves its reference loose. -/
theorem Running.kill (h : Running C none s₀ s (.destroy m :: W)) (hx : s.handle m = some x) :
    Running C x.ptr s₀ (s.setHandle m none) W := by
  have hrefs : ∀ j, (s.setHandle m none).refs j + one x.ptr j = s.refs j := fun j => by
    have := refs_setHandle hx none j
    simpa using this
  have hhandle : ∀ n y, (s.setHandle m none).handle n = some y → n ≠ m ∧ s.handle n = some y := by
    intro n y hy
    by_cases hnm : n = m
    · rw [hnm, setHandle_self (handle_lt hx)] at hy
      cases hy
    · exact ⟨hnm, by rwa [setHandle_of_ne hnm] at hy⟩
  have hfree : ∀ {j}, (.free j : Task) ∈ .destroy m :: W → .free j ∈ W := fun hj =>
    (List.mem_cons.mp hj).resolve_left nofun
  have hcond : ∀ k, Condemned s₀ s (.destroy m :: W) k → Condemned s₀ (s.setHandle m none) W k :=
    fun k hk => hk.imp_left hfree
  have hcond' : ∀ k, Condemned s₀ (s.setHandle m none) W k → Condemned s₀ s (.destroy m :: W) k :=
    fun k hk => hk.imp_left (List.mem_cons_of_mem _)
  obtain ⟨hnot, hnodup⟩ := List.nodup_cons.mp h.nodup
  constructor
  · intro j c hc
    rw [hrefs]
    simpa using h.counts j c hc
  · intro j
    rw [hrefs]
    simpa using h.bounded j
  · intro j hj
    rw [hrefs] at hj
    exact h.live j (by simpa using hj)
  · intro j hj hz
    rw [hrefs] at hz
    exact hfree (h.idle j hj (by simpa using hz))
  · intro j hj
    rw [hrefs]
    simpa using h.freeing j (List.mem_cons_of_mem _ hj)
  · exact fun n y k hy hk => h.housed n y k (hhandle n y hy).2 hk
  · intro A B j hW n y hy hj
    obtain ⟨hnm, hy⟩ := hhandle n y hy
    have hmem := h.scheduled (.destroy m :: A) B j (by rw [hW]; rfl) n y hy hj
    exact (List.mem_cons.mp hmem).resolve_left fun he => hnm (by injection he)
  · intro n hn
    obtain ⟨y, k, hy, hk, hkfree⟩ := h.tasks n (List.mem_cons_of_mem _ hn)
    have hnm : n ≠ m := fun he => hnot (he ▸ hn)
    exact ⟨y, k, by rwa [setHandle_of_ne hnm], hk, hfree hkfree⟩
  · exact hnodup
  · exact fun n y hy => h.same n y (hhandle n y hy).2
  · exact h.born
  · intro n y hy hnone
    by_cases hnm : n = m
    · subst hnm
      obtain ⟨z, k, hz, hk, hkfree⟩ := h.tasks n List.mem_cons_self
      obtain rfl := Option.some.inj ((h.same n z hz).symm.trans hy)
      exact ⟨k, hk, .inl (hfree hkfree)⟩
    · rw [setHandle_of_ne hnm] at hnone
      obtain ⟨k, hk, hc⟩ := h.killed n y hy hnone
      exact ⟨k, hk, hcond k hc⟩
  · exact fun k hk => h.doomed k (hcond' k hk)
  · rw [setHandle_length, h.length]

/-- An element of two lists in a row stands in one of them. -/
theorem split_append {α : Type} {l l' A B : List α} {T : α} (h : l ++ l' = A ++ T :: B) :
    (∃ D, l = A ++ T :: D) ∨ ∃ D, A = l ++ D ∧ l' = D ++ T :: B := by
  rcases List.append_eq_append_iff.mp h with ⟨D, hA, hD⟩ | ⟨D, hl, hD⟩
  · exact .inr ⟨D, hA, hD⟩
  · cases D with
    | nil => exact .inr ⟨[], by simpa using hl.symm, by simpa using hD.symm⟩
    | cons U D =>
      obtain ⟨rfl, -⟩ := List.cons.inj hD
      exact .inl ⟨D, hl⟩

/-- A count that changes does not make an object live or dead. -/
theorem setCount_isSome {c : ℤ} (hi : (s.count i).isSome) (j : ℕ) :
    ((s.setCount i (some c)).count j).isSome = (s.count j).isSome := by
  by_cases hj : j = i
  · rw [hj, setCount_self, hi, Option.isSome_some]
  · rw [setCount_of_ne _ hj]

/-- The heap in which the counter of an object says how many handles it has. -/
def Heap.recount (i : ℕ) (s : Heap) : Heap := s.setCount i (some (s.refs i))

/-- Counting down leaves the references. -/
@[simp] theorem recount_refs (j : ℕ) : (s.recount i).refs j = s.refs j := rfl

@[simp] theorem recount_handles : (s.recount i).handles = s.handles := rfl

@[simp] theorem recount_handle : (s.recount i).handle m = s.handle m := rfl

/-- A reference that is given up is none to another object. -/
theorem one_of_loose {j : ℕ} (h : j ≠ i) : one (some i) j = 0 :=
  one_of_ne fun he => h (Option.some.inj he).symm

/-- The object whose reference is given up lives. -/
theorem Running.loose_live (h : Running C (some i) s₀ s W) : (s.count i).isSome :=
  h.live i (by simp)

/-- Counting down deletes nothing. -/
theorem Running.recount_isSome (h : Running C (some i) s₀ s W) (j : ℕ) :
    ((s.recount i).count j).isSome = (s.count j).isSome := setCount_isSome h.loose_live j

theorem Running.recount_eq_none (h : Running C (some i) s₀ s W) (j : ℕ) :
    (s.recount i).count j = none ↔ s.count j = none := by
  rw [← Option.not_isSome_iff_eq_none, h.recount_isSome, Option.not_isSome_iff_eq_none]

/-- With the reference that is given up the count would not have been in bounds. -/
theorem Running.refs_le (h : Running C (some i) s₀ s W) : s.refs i ≤ C.max := by
  have := h.bounded i
  rw [one_self] at this
  omega

/-- The counter without the loose reference. -/
theorem Running.wrap_pred {c : ℤ} (h : Running C (some i) s₀ s W) (hc : s.count i = some c) :
    C.wrap (c - 1) = s.refs i := by
  have hback : ((s.refs i + 1 : ℕ) : ℤ) + -1 = s.refs i := by omega
  rw [h.counts i c hc, one_self, Int.sub_eq_add_neg, C.wrap_add, hback]
  exact C.wrap_of_le _ h.refs_le

/-- After counting down the counts are the numbers of references again. -/
theorem Running.recount_counts (h : Running C (some i) s₀ s W) (j : ℕ) (c : ℤ)
    (hc : (s.recount i).count j = some c) :
    c = C.wrap ((s.recount i).refs j + one none j : ℕ) := by
  rw [recount_refs, one_none, Nat.add_zero]
  by_cases hj : j = i
  · subst hj
    rw [Heap.recount, setCount_self] at hc
    rw [C.wrap_of_le _ h.refs_le, Option.some.inj hc]
  · rw [Heap.recount, setCount_of_ne _ hj] at hc
    rw [h.counts j c hc, one_of_loose hj, Nat.add_zero]

/-- They stay in bounds. -/
theorem Running.recount_bounded (h : Running C (some i) s₀ s W) (j : ℕ) :
    (s.recount i).refs j + one none j ≤ C.max + 1 := by
  have := h.bounded j
  rw [recount_refs, one_none]
  omega

/-- What is referenced still lives. -/
theorem Running.recount_live (h : Running C (some i) s₀ s W) (j : ℕ)
    (hj : 0 < (s.recount i).refs j + one none j) : ((s.recount i).count j).isSome := by
  rw [h.recount_isSome]
  refine h.live j ?_
  rw [recount_refs, one_none] at hj
  omega

/-- What is about to be freed lives and has no references. -/
theorem Running.recount_freeing (h : Running C (some i) s₀ s W) (j : ℕ) (hj : .free j ∈ W) :
    ((s.recount i).count j).isSome ∧ (s.recount i).refs j + one none j = 0 := by
  obtain ⟨hsome, hz⟩ := h.freeing j hj
  rw [h.recount_isSome, recount_refs, one_none]
  exact ⟨hsome, by omega⟩

/-- An object with a reference is not about to be freed. -/
theorem Running.loose_not_freeing (h : Running C (some i) s₀ s W) : .free i ∉ W := fun hf => by
  simpa using (h.freeing i hf).2

/-- An object with handles left stays, and nothing more is to be done. -/
theorem Running.kept (h : Running C (some i) s₀ s W) (hpos : 0 < s.refs i) :
    Running C none s₀ (s.recount i) W where
  counts := h.recount_counts
  bounded := h.recount_bounded
  live := h.recount_live
  idle j hj hz := by
    rw [recount_refs, one_none, Nat.add_zero] at hz
    have hji : j ≠ i := fun he => by rw [he] at hz; omega
    rw [h.recount_isSome] at hj
    exact h.idle j hj (by rw [one_of_loose hji]; exact hz)
  freeing := h.recount_freeing
  housed m x k hx hk := by
    rw [h.recount_isSome]
    exact h.housed m x k hx hk
  scheduled := h.scheduled
  tasks := h.tasks
  nodup := h.nodup
  same := h.same
  born j hj := h.born j (by rwa [h.recount_isSome] at hj)
  killed m x hx hnone := by
    obtain ⟨k, hk, hc⟩ := h.killed m x hx hnone
    exact ⟨k, hk, hc.imp_right fun ⟨h₀, hn⟩ => ⟨h₀, (h.recount_eq_none k).mpr hn⟩⟩
  doomed k hk := h.doomed k (hk.imp_right fun ⟨h₀, hn⟩ => ⟨h₀, (h.recount_eq_none k).mp hn⟩)
  length := h.length

/-- All handles that an object without handles once had lay in condemned objects. -/
theorem Running.loose_doomed (h : Running C (some i) s₀ s W) (hz : s.refs i = 0) :
    Doomed s₀ i := by
  have hlost : ∀ m x, s₀.handle m = some x → x.ptr = some i →
      ∃ k, x.owner = some k ∧ Condemned s₀ s W k := by
    intro m x hx hp
    cases hm : s.handle m with
    | none => exact h.killed m x hx hm
    | some y =>
      obtain rfl := Option.some.inj ((h.same m y hm).symm.trans hx)
      have := refs_pos_iff.mpr ⟨m, y, hm, hp⟩
      omega
  refine .intro (h.born i h.loose_live) (fun m x hx hp hnone => ?_) fun m x k hx hp hk => ?_
  · obtain ⟨k, hk, -⟩ := hlost m x hx hp
    rw [hnone] at hk
    cases hk
  · obtain ⟨k', hk', hc⟩ := hlost m x hx hp
    obtain rfl := Option.some.inj (hk'.symm.trans hk)
    exact h.doomed _ hc

/-- What the destruction of an object leaves to do. -/
theorem mem_deletion {T : Task} : T ∈ (s.members i).map Task.destroy ++ [.free i] ++ W ↔
    (∃ m ∈ s.members i, T = .destroy m) ∨ T = .free i ∨ T ∈ W := by
  simp only [List.mem_append, List.mem_map, List.mem_singleton, or_assoc]
  exact or_congr (exists_congr fun m => and_congr_right fun _ => eq_comm) Iff.rfl

/-- Deleting an object schedules nothing twice. -/
theorem Running.deletion_nodup (h : Running C (some i) s₀ s W) :
    ((s.members i).map Task.destroy ++ [Task.free i] ++ W).Nodup := by
  have hnew : ((s.members i).map Task.destroy).Nodup :=
    members_nodup.map fun _ _ he => by injection he
  refine (hnew.append (List.nodup_singleton _) (by simp)).append h.nodup ?_
  intro T hT hTW
  rcases List.mem_append.mp hT with hT | hT
  · obtain ⟨m, hm, rfl⟩ := List.mem_map.mp hT
    obtain ⟨x, hx, hk⟩ := mem_members.mp hm
    obtain ⟨y, k, hy, hk', hf⟩ := h.tasks m hTW
    obtain rfl := Option.some.inj (hx.symm.trans hy)
    obtain rfl := Option.some.inj (hk.symm.trans hk')
    exact h.loose_not_freeing hf
  · exact h.loose_not_freeing (List.mem_singleton.mp hT ▸ hTW)

/-- In front of what frees an object stands what destroys its members. -/
theorem Running.deletion_scheduled (h : Running C (some i) s₀ s W) {A B : List Task} {j : ℕ}
    (hW : (s.members i).map Task.destroy ++ [.free i] ++ W = A ++ .free j :: B)
    (hx : s.handle m = some x) (hj : x.owner = some j) : .destroy m ∈ A := by
  rcases split_append hW with ⟨D, hD⟩ | ⟨D, rfl, hD⟩
  · rcases split_append hD with ⟨D', hD'⟩ | ⟨D', rfl, hD'⟩
    · have hin : .free j ∈ (s.members i).map Task.destroy := by simp [hD']
      simp at hin
    · -- the object itself: all its live members come first
      have hji : j = i := by
        have hin : .free j ∈ [Task.free i] := by simp [hD']
        simpa using hin
      refine List.mem_append_left _ (List.mem_map.mpr ⟨m, ?_, rfl⟩)
      exact mem_members.mpr ⟨x, hx, hji ▸ hj⟩
  · exact List.mem_append_right _ (h.scheduled D B j hD m x hx hj)

/-- After the last handle the members are destroyed, then the object is freed. -/
theorem Running.deleted (h : Running C (some i) s₀ s W) (hz : s.refs i = 0) :
    Running C none s₀ (s.recount i) ((s.members i).map .destroy ++ [.free i] ++ W) where
  counts := h.recount_counts
  bounded := h.recount_bounded
  live := h.recount_live
  idle j hj hz' := by
    by_cases hji : j = i
    · exact mem_deletion.mpr (.inr (.inl (by rw [hji])))
    · refine mem_deletion.mpr (.inr (.inr (h.idle j (by rwa [h.recount_isSome] at hj) ?_)))
      rw [one_of_loose hji]
      exact hz'
  freeing j hj := by
    rcases mem_deletion.mp hj with ⟨m, -, he⟩ | he | hj
    · cases he
    · obtain rfl : j = i := by injection he
      exact ⟨by rw [h.recount_isSome]; exact h.loose_live, by rw [one_none]; exact hz⟩
    · exact h.recount_freeing j hj
  housed m x k hx hk := by
    rw [h.recount_isSome]
    exact h.housed m x k hx hk
  scheduled A B j hW m x hx hj := h.deletion_scheduled hW hx hj
  tasks m hm := by
    rcases mem_deletion.mp hm with ⟨n, hn, he⟩ | he | hm
    · obtain rfl : m = n := by injection he
      obtain ⟨x, hx, hk⟩ := mem_members.mp hn
      exact ⟨x, i, hx, hk, mem_deletion.mpr (.inr (.inl rfl))⟩
    · cases he
    · obtain ⟨x, k, hx, hk, hf⟩ := h.tasks m hm
      exact ⟨x, k, hx, hk, mem_deletion.mpr (.inr (.inr hf))⟩
  nodup := h.deletion_nodup
  same := h.same
  born j hj := h.born j (by rwa [h.recount_isSome] at hj)
  killed m x hx hnone := by
    obtain ⟨k, hk, hc⟩ := h.killed m x hx hnone
    exact ⟨k, hk, hc.imp (List.mem_append_right _) fun ⟨h₀, hn⟩ =>
      ⟨h₀, (h.recount_eq_none k).mpr hn⟩⟩
  doomed k hk := by
    rcases hk with hk | ⟨h₀, hn⟩
    · rcases mem_deletion.mp hk with ⟨m, -, he⟩ | he | hk
      · cases he
      · obtain rfl : k = i := by injection he
        exact h.loose_doomed hz
      · exact h.doomed k (.inl hk)
    · exact h.doomed k (.inr ⟨h₀, (h.recount_eq_none k).mp hn⟩)
  length := h.length

/-- A loose reference is given up, and its object with it if that was the last one. -/
theorem Running.dec (h : Running C (some i) s₀ s W) :
    ∃ new, s.dec C i = some (s.recount i, new) ∧ Running C none s₀ (s.recount i) (new ++ W) ∧
      (new = [] ∨ new = (s.members i).map .destroy ++ [.free i]) := by
  obtain ⟨c, hc⟩ := Option.isSome_iff_exists.mp h.loose_live
  have hdec : s.dec C i = some (s.recount i,
      if C.gone (s.refs i) then (s.members i).map .destroy ++ [.free i] else []) := by
    simp only [Heap.dec, hc, Option.map_some, h.wrap_pred hc, Heap.recount]
  rcases Nat.eq_zero_or_pos (s.refs i) with hz | hpos
  · have hgone : C.gone (s.refs i) = true := (C.gone_iff _ h.refs_le).mpr hz
    rw [if_pos hgone] at hdec
    exact ⟨_, hdec, h.deleted hz, .inr rfl⟩
  · have hgone : ¬C.gone (s.refs i) = true := fun hg =>
      absurd ((C.gone_iff _ h.refs_le).mp hg) (Nat.ne_of_gt hpos)
    rw [if_neg hgone] at hdec
    exact ⟨[], hdec, h.kept hpos, .inl rfl⟩

/-- The task frees an object. -/
def Task.isFree : Task → Bool
  | .destroy _ => false
  | .free _ => true

/-- The members are destroyed, not freed. -/
theorem countP_free_members (ms : List ℕ) : (ms.map Task.destroy).countP Task.isFree = 0 := by
  rw [List.countP_eq_zero]
  intro T hT
  obtain ⟨m, -, rfl⟩ := List.mem_map.mp hT
  exact Bool.false_ne_true

/-- What bounds the steps that remain: two for each live handle and one for each object
to be freed. -/
def steps (W : List Task) (s : Heap) : ℕ :=
  2 * s.handles.countP Option.isSome + W.countP Task.isFree

/-- A handle that is destroyed is one less. -/
theorem countP_isSome_setHandle (hx : s.handle m = some x) :
    (s.setHandle m none).handles.countP Option.isSome + 1 = s.handles.countP Option.isSome := by
  obtain ⟨hlt, he⟩ := List.getElem?_eq_some_iff.mp (handle_eq_some.mp hx)
  have hpos : 0 < s.handles.countP Option.isSome :=
    List.countP_pos_iff.mpr ⟨some x, he ▸ List.getElem_mem hlt, rfl⟩
  simp only [Heap.setHandle, List.countP_set hlt, he, Option.isSome_some, Option.isSome_none,
    if_true, Bool.false_eq_true, if_false]
  omega

/-- The steps that are left do not depend on the counts. -/
theorem steps_setCount (c : Option ℤ) : steps W (s.setCount i c) = steps W s := rfl

theorem steps_recount : steps W (s.recount i) = steps W s := rfl

/-- Every run comes to its end, with no task left. -/
theorem Running.cascade (h : Running C none s₀ s W) {n : ℕ} (hn : steps W s ≤ n) :
    ∃ t, cascade C n W s = some t ∧ Running C none s₀ t [] := by
  induction n generalizing s W with
  | zero =>
    cases W with
    | nil => exact ⟨s, rfl, h⟩
    | cons T W =>
      cases T with
      | free i => simp [steps, Task.isFree] at hn
      | destroy m =>
        obtain ⟨x, k, hx, -⟩ := h.tasks m List.mem_cons_self
        have := countP_isSome_setHandle hx
        simp only [steps] at hn
        omega
  | succ n ih =>
    cases W with
    | nil => exact ⟨s, rfl, h⟩
    | cons T W =>
      cases T with
      | free i =>
        refine ih h.free ?_
        simp only [steps, List.countP_cons, Task.isFree, if_true] at hn
        rw [steps_setCount]
        simp only [steps]
        omega
      | destroy m =>
        obtain ⟨x, k, hx, -⟩ := h.tasks m List.mem_cons_self
        have hlive := countP_isSome_setHandle hx
        have hkill := h.kill hx
        simp only [steps, List.countP_cons, Task.isFree, Bool.false_eq_true, if_false] at hn
        cases hp : x.ptr with
        | none =>
          rw [hp] at hkill
          obtain ⟨t, ht, hrun⟩ := ih hkill (by simp only [steps]; omega)
          exact ⟨t, by simp [CascadingDelete.cascade, hx, hp, ht], hrun⟩
        | some i =>
          rw [hp] at hkill
          obtain ⟨new, hdec, hnext, hnew⟩ := hkill.dec
          have hfree : steps (new ++ W) ((s.setHandle m none).recount i) ≤ n := by
            rw [steps_recount]
            simp only [steps, List.countP_append]
            rcases hnew with rfl | rfl
            · simp only [List.countP_nil]
              omega
            · simp only [List.countP_append, countP_free_members, List.countP_singleton,
                Task.isFree, if_true]
              omega
          obtain ⟨t, ht, hrun⟩ := ih hnext hfree
          exact ⟨t, by simp [CascadingDelete.cascade, hx, hp, hdec, ht], hrun⟩

/-- A heap in which one reference on an object is no handle's. -/
structure Loose (C : Counter) (p : Option ℕ) (s : Heap) : Prop where
  counts : ∀ i c, s.count i = some c → c = C.wrap (s.refs i + one p i : ℕ)
  bounded : ∀ i, s.refs i + one p i ≤ C.max + 1
  live_iff : ∀ i, (s.count i).isSome ↔ 0 < s.refs i + one p i
  housed : ∀ m x k, s.handle m = some x → x.owner = some k → (s.count k).isSome

/-- The handle lies in no object that goes. -/
def Stays (s : Heap) (m : ℕ) : Prop :=
  ∀ x k, s.handle m = some x → x.owner = some k → ¬Doomed s k

/-- What is left of a heap once all doomed objects are deleted. -/
structure Remains (C : Counter) (s t : Heap) : Prop where
  exact : Exact C t
  length : t.handles.length = s.handles.length
  same : ∀ m x, t.handle m = some x → s.handle m = some x
  stays : ∀ m x, s.handle m = some x → Stays s m → t.handle m = some x
  gone : ∀ m x, s.handle m = some x → ¬Stays s m → t.handle m = none

/-- A release begins with an empty list of tasks. -/
theorem Loose.running (h : Loose C p s) : Running C p s s [] where
  counts := h.counts
  bounded := h.bounded
  live i hi := (h.live_iff i).mpr hi
  idle i hi hz := by
    have := (h.live_iff i).mp hi
    omega
  freeing i hi := absurd hi List.not_mem_nil
  housed := h.housed
  scheduled A B i hW := by simp at hW
  tasks m hm := absurd hm List.not_mem_nil
  nodup := List.nodup_nil
  same _ _ hx := hx
  born _ hi := hi
  killed m x hx hnone := by simp [hx] at hnone
  doomed k hk := by
    rcases hk with hk | ⟨hsome, hnone⟩
    · exact absurd hk List.not_mem_nil
    · simp [hnone] at hsome
  length := rfl

/-- At the end of a run, what was doomed is gone. -/
theorem Running.gone (h : Running C none s₀ t []) (hi : Doomed s₀ i) : t.count i = none := by
  induction hi with
  | @intro i hlive howned hdoomed ih =>
    have hzero : t.refs i = 0 := by
      by_contra hne
      obtain ⟨m, x, hx, hp⟩ := refs_pos_iff.mp (Nat.pos_of_ne_zero hne)
      have hx₀ := h.same m x hx
      obtain ⟨k, hk⟩ := Option.ne_none_iff_exists'.mp (howned m x hx₀ hp)
      have hhoused := h.housed m x k hx hk
      rw [ih m x k hx₀ hp hk] at hhoused
      cases hhoused
    by_contra hne
    have hfree := h.idle i (Option.isSome_iff_ne_none.mpr hne) (by rw [hzero, one_none])
    cases hfree

/-- Once nothing is left to do, what remains is as it should be. -/
theorem Running.remains (h : Running C none s₀ t []) : Remains C s₀ t where
  exact := {
    counts := fun i c hc => by simpa using h.counts i c hc
    live_iff := fun i => by
      refine ⟨fun hi => Nat.pos_of_ne_zero fun hz => ?_, fun hi => h.live i (by simpa using hi)⟩
      have hfree := h.idle i hi (by rw [hz, one_none])
      cases hfree
    housed := h.housed }
  length := h.length
  same := h.same
  stays m x hx hstays := by
    cases hm : t.handle m with
    | none =>
      obtain ⟨k, hk, hc⟩ := h.killed m x hx hm
      exact absurd (h.doomed k hc) (hstays x k hx hk)
    | some y => rw [h.same m y hm] at hx; exact hx
  gone m x hx hgone := by
    cases hm : t.handle m with
    | none => rfl
    | some y =>
      obtain rfl := Option.some.inj ((h.same m y hm).symm.trans hx)
      refine absurd (fun x k hx' hk hd => ?_) hgone
      obtain rfl := Option.some.inj (hx.symm.trans hx')
      have hhoused := h.housed m y k hm hk
      rw [h.gone hd] at hhoused
      cases hhoused

/-- Giving up a reference deletes the doomed objects and nothing else, and leaves exact
counts. -/
theorem release_spec (h : Loose C p s) : ∃ t, s.release C p = some t ∧ Remains C s t := by
  cases p with
  | none =>
    exact ⟨s, rfl, h.running.remains⟩
  | some i =>
    obtain ⟨new, hdec, hrun, hnew⟩ := h.running.dec
    have hsteps : steps (new ++ []) (s.recount i) ≤ 2 * s.handles.length + 1 := by
      have hle : s.handles.countP Option.isSome ≤ s.handles.length := List.countP_le_length
      rw [steps_recount, List.append_nil]
      simp only [steps]
      rcases hnew with rfl | rfl
      · simp only [List.countP_nil]
        omega
      · rw [List.countP_append, countP_free_members]
        simp only [List.countP_singleton, Task.isFree, if_true]
        omega
    obtain ⟨t, ht, hend⟩ := hrun.cascade hsteps
    rw [List.append_nil] at ht
    exact ⟨t, by simp [Heap.release, hdec, ht], hend.remains⟩

/-- A destroyed handle stays destroyed. -/
theorem cascade_dead {n : ℕ} (h : CascadingDelete.cascade C n W s = some t)
    (hx : s.handle m = none) : t.handle m = none := by
  induction n generalizing s W with
  | zero =>
    cases W with
    | nil => exact Option.some.inj h ▸ hx
    | cons T W => cases h
  | succ n ih =>
    cases W with
    | nil => exact Option.some.inj h ▸ hx
    | cons T W =>
      cases T with
      | free i => exact ih h hx
      | destroy k =>
        obtain ⟨y, hy, h⟩ := Option.bind_eq_some_iff.mp h
        have hdead : (s.setHandle k none).handle m = none := by
          by_cases hk : m = k
          · subst hk
            exact setHandle_self (handle_lt hy)
          · rw [setHandle_of_ne hk, hx]
        cases hp : y.ptr with
        | none =>
          simp only [hp] at h
          exact ih h hdead
        | some i =>
          simp only [hp] at h
          obtain ⟨⟨s', new⟩, hdec, h⟩ := Option.bind_eq_some_iff.mp h
          obtain ⟨c, -, hc⟩ := Option.map_eq_some_iff.mp hdec
          obtain ⟨rfl, -⟩ := Prod.mk.inj hc
          exact ih h hdead

/-- What a handle holds does not matter to a run that does not destroy it. -/
theorem cascade_setPtr {n : ℕ} (q : Option ℕ) (h : CascadingDelete.cascade C n W s = some t)
    (hm : t.handle m ≠ none) :
    CascadingDelete.cascade C n W (s.setPtr m q) = some (t.setPtr m q) := by
  induction n generalizing s W with
  | zero =>
    cases W with
    | nil => exact congrArg (fun s => some (Heap.setPtr m q s)) (Option.some.inj h)
    | cons T W => cases h
  | succ n ih =>
    cases W with
    | nil => exact congrArg (fun s => some (Heap.setPtr m q s)) (Option.some.inj h)
    | cons T W =>
      cases T with
      | free i => exact ih h
      | destroy k =>
        obtain ⟨y, hy, h⟩ := Option.bind_eq_some_iff.mp h
        have hk : k ≠ m := by
          rintro rfl
          have hdead := setHandle_self (o := none) (handle_lt hy)
          cases hp : y.ptr with
          | none =>
            simp only [hp] at h
            exact hm (cascade_dead h hdead)
          | some i =>
            simp only [hp] at h
            obtain ⟨⟨s', new⟩, hdec, h⟩ := Option.bind_eq_some_iff.mp h
            obtain ⟨c, -, hc⟩ := Option.map_eq_some_iff.mp hdec
            obtain ⟨rfl, -⟩ := Prod.mk.inj hc
            exact hm (cascade_dead h hdead)
        have hy' : (s.setPtr m q).handle k = some y := by rw [setPtr_of_ne q hk, hy]
        simp only [CascadingDelete.cascade, hy', Option.bind_eq_bind, Option.bind_some,
          setPtr_setHandle q none hk]
        cases hp : y.ptr with
        | none =>
          simp only [hp] at h
          exact ih h
        | some i =>
          simp only [hp] at h
          obtain ⟨⟨s', new⟩, hdec, h⟩ := Option.bind_eq_some_iff.mp h
          simp only [dec_setPtr, hdec, Option.map_some, Option.bind_some]
          exact ih h

/-- A release does not look at the pointer of a handle that survives it. -/
theorem release_setPtr (q : Option ℕ) (h : s.release C p = some t) (hm : t.handle m ≠ none) :
    (s.setPtr m q).release C p = some (t.setPtr m q) := by
  cases p with
  | none => exact congrArg (fun s => some (Heap.setPtr m q s)) (Option.some.inj h)
  | some i =>
    obtain ⟨⟨s', new⟩, hdec, h⟩ := Option.bind_eq_some_iff.mp h
    simp only [Heap.release, dec_setPtr, hdec, Option.map_some, Option.bind_eq_bind,
      Option.bind_some, setPtr_length]
    exact cascade_setPtr q h hm

/-- What goes depends on which objects are live, not on their counters. -/
theorem doomed_congr (hhandle : ∀ m, t.handle m = s.handle m)
    (hcount : ∀ i, (t.count i).isSome = (s.count i).isSome) (h : Doomed s i) : Doomed t i := by
  induction h with
  | @intro i hlive howned hdoomed ih =>
    refine .intro (by rw [hcount, hlive]) (fun m x hx hp => ?_) fun m x k hx hp hk => ?_
    · exact howned m x (hhandle m ▸ hx) hp
    · exact ih m x k (hhandle m ▸ hx) hp hk

/-- What stays depends on the handles and on what lives. -/
theorem stays_congr (hhandle : ∀ m, t.handle m = s.handle m)
    (hcount : ∀ i, (t.count i).isSome = (s.count i).isSome) : Stays t m ↔ Stays s m := by
  have hiff : ∀ k, Doomed t k ↔ Doomed s k := fun k =>
    ⟨doomed_congr (fun m => (hhandle m).symm) fun i => (hcount i).symm,
      doomed_congr hhandle hcount⟩
  simp only [Stays, hhandle, hiff]

/-- Nothing gets more references. -/
theorem Remains.refs_le (h : Remains C s t) (i : ℕ) : t.refs i ≤ s.refs i :=
  CascadingDelete.refs_le h.length fun m x hx _ => h.same m x hx

/-- Handles that go take their references along. -/
theorem Remains.refs_lt (h : Remains C s t) (hx : s.handle m = some x) (hp : x.ptr = some i)
    (hm : ¬Stays s m) : t.refs i < s.refs i := by
  have hgone := h.gone m x hx hm
  have hle : t.refs i ≤ (s.setHandle m none).refs i := by
    refine CascadingDelete.refs_le (by rw [setHandle_length, h.length]) fun n y hy _ => ?_
    have hn : n ≠ m := by
      rintro rfl
      rw [hgone] at hy
      cases hy
    rw [setHandle_of_ne hn]
    exact h.same n y hy
  have hset := refs_setHandle hx none i
  rw [hp, one_self, Option.bind_none, one_none] at hset
  omega

/-- If all handles on an object stay, so do its references. -/
theorem Remains.refs_eq (h : Remains C s t)
    (hm : ∀ m x, s.handle m = some x → x.ptr = some i → Stays s m) : t.refs i = s.refs i :=
  Nat.le_antisymm (h.refs_le i) (CascadingDelete.refs_le h.length.symm fun m x hx hp =>
    h.stays m x hx (hm m x hx hp))

end Runs

end KernelLib.CascadingDelete
