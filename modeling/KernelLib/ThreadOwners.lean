import KernelLib.Threads

/-!
# Who waits for a thread

What `thread`s refer to, what constructors have made and what threads have
left to do accounts for all counters, whatever the order of the steps. A
kernel thread is lost once no `thread` refers to it while it runs: nobody can
wait for it any more, and the driver must not be unloaded. Threads are lost
by destructors and by constructors that get no reference, and in no other way.
-/

namespace KernelLib.ThreadOwners

open ShareCounts StepRuns Threads

section Invariant

variable {S : Type} {s t : Sys S} {i r : S} {j : ℕ}

/-- What holds between the steps. -/
structure Inv (s : Sys S) : Prop where
  job : ∀ j, s.job j = Job.of (s.job j).ctor (s.job j).thread (refs s j)
  fits : ∀ j, Fits (s.job j).ctor (s.job j).thread (refs s j)
  unique : ∀ j, refs s j ≤ 1
  fresh : ∀ j, s.jobs ≤ j → s.job j = .new
  ctor : ∀ i ∈ s.live, ∀ j, s.owner i = .constructing j →
    (s.job j).ctor.isSome ∧ ∀ j', s.thread i = some j' → j' = j
  one : ∀ i ∈ s.live, ∀ r ∈ s.live, ∀ j,
    s.owner i = .constructing j → s.owner r = .constructing j → i = r
  busy : ∀ j, (s.job j).ctor.isSome → ∃ i ∈ s.live, s.owner i = .constructing j
  held : ∀ i ∈ s.live, ∀ j, s.thread i = some j → (s.job j).ctor.isSome → s.owner i = .constructing j
  waits : ∀ i ∈ s.live, s.owner i = .waiting → s.thread i ≠ none
  joined : ∀ j ∈ s.joined, (s.job j).thread = some .terminated ∧ (s.job j).ctor = none

/-- Before the first step. -/
theorem inv_init : Inv (Sys.init : Sys S) := by
  constructor <;> simp [Sys.init, refs, count, holders, Fits, of_new, Job.new]

/-- A thread that an object refers to has a reference. -/
theorem refs_pos (hi : i ∈ s.live) (hj : s.thread i = some j) : 0 < refs s j := count_pos hi hj

/-- `_thread` changes in idle `thread`s only, to what such `thread`s referred to. -/
def Rethreads (s : Sys S) (f : S → Option ℕ) : Prop :=
  ∀ x ∈ s.live, f x = s.thread x ∨
    Idle s x ∧ ∀ j, f x = some j → ∃ y, Idle s y ∧ s.thread y = some j

/-- Objects that refer to other threads keep the invariant if the jobs count them. -/
theorem Inv.rethread (h : Inv s) {f : S → Option ℕ} {job : ℕ → Job} (hf : Rethreads s f)
    (hctor : ∀ j, (job j).ctor = (s.job j).ctor)
    (hthread : ∀ j, (s.job j).thread = some .terminated → (job j).thread = some .terminated)
    (hjob : ∀ j, job j = Job.of (job j).ctor (job j).thread (count s.live f j))
    (hfits : ∀ j, Fits (job j).ctor (job j).thread (count s.live f j))
    (hunique : ∀ j, count s.live f j ≤ 1) (hfresh : ∀ j, s.jobs ≤ j → job j = .new) :
    Inv { s with thread := f, job := job } where
  job := hjob
  fits := hfits
  unique := hunique
  fresh := hfresh
  ctor x hx j hj := by
    obtain ⟨hc, hs⟩ := h.ctor x hx j hj
    refine ⟨(congrArg Option.isSome (hctor j)).trans hc, fun j' hj' => ?_⟩
    rcases hf x hx with he | ⟨hi, -⟩
    · exact hs j' (he.symm.trans hj')
    · exact absurd (hi.2.symm.trans hj) (by simp)
  one := h.one
  busy j hj := h.busy j ((congrArg Option.isSome (hctor j)).symm.trans hj)
  held x hx j hj hc := by
    have hc' : (s.job j).ctor.isSome := (congrArg Option.isSome (hctor j)).symm.trans hc
    rcases hf x hx with he | ⟨-, hy⟩
    · exact h.held x hx j (he.symm.trans hj) hc'
    · obtain ⟨y, hy, hyj⟩ := hy j hj
      exact absurd (hy.2.symm.trans (h.held y hy.1 j hyj hc')) (by simp)
  waits x hx hw := by
    rcases hf x hx with he | ⟨hi, -⟩
    · exact fun hn => h.waits x hx hw (he.symm.trans hn)
    · exact absurd (hi.2.symm.trans hw) (by simp)
  joined j hj := by
    obtain ⟨ht, hc⟩ := h.joined j hj
    exact ⟨hthread j ht, (hctor j).trans hc⟩

/-- A thread without references is the thread of no object. -/
theorem refs_eq_zero : refs s j = 0 ↔ ∀ i ∈ s.live, s.thread i ≠ some j :=
  Finset.card_eq_zero.trans (Finset.filter_eq_empty_iff.trans Iff.rfl)

/-- A thread that is still to come has no references. -/
theorem refs_fresh (h : Inv s) (hj : s.jobs ≤ j) : refs s j = 0 := by
  by_contra hn
  have hk := isSome_of_fits (h.fits j) (Nat.pos_of_ne_zero hn)
  rw [h.fresh j hj] at hk
  simp [Job.new] at hk

/-- The job that was set is what it was set to. -/
theorem setJob_self {b : Job} : (s.setJob j b).job j = b := Function.update_self ..

/-- Setting a job leaves the others. -/
theorem setJob_of_ne {b : Job} {j' : ℕ} (hne : j' ≠ j) : (s.setJob j b).job j' = s.job j' :=
  Function.update_of_ne hne _ _

/-- The `thread` and what is made for it belong to each other. -/
structure Turn (s : Sys S) (i : S) (j : ℕ) : Prop where
  live : i ∈ s.live
  owner : ∀ j', s.owner i = .constructing j' → j' = j
  thread : ∀ j', s.thread i = some j' → j' = j
  alone : ∀ x ∈ s.live, s.owner x = .constructing j → x = i
  sole : ∀ x ∈ s.live, s.thread x = some j → x = i
  joined : j ∉ s.joined

/-- A constructor goes on with its job. -/
theorem Inv.turn (h : Inv s) (hi : i ∈ s.live) (ho : s.owner i = .constructing j) : Turn s i j where
  live := hi
  owner j' hj' := by simpa using hj'.symm.trans ho
  thread := (h.ctor i hi j ho).2
  alone x hx hxo := h.one x hx i hi j hxo ho
  sole x hx hxj := h.one x hx i hi j (h.held x hx j hxj (h.ctor i hi j ho).1) ho
  joined hj := by simpa [(h.joined j hj).2] using (h.ctor i hi j ho).1

/-- A constructor begins with a new job. -/
theorem Inv.turn_new (h : Inv s) (hi : Idle s i) (hn : s.thread i = none) : Turn s i s.jobs := by
  have hnew := h.fresh _ le_rfl
  refine ⟨hi.1, fun j' hj' => ?_, fun j' hj' => ?_, fun x hx hxo => ?_, fun x hx hxj => ?_, fun hj => ?_⟩
  · exact absurd (hi.2.symm.trans hj') (by simp)
  · exact absurd (hn.symm.trans hj') (by simp)
  · exact absurd (h.ctor x hx _ hxo).1 (by simp [hnew, Job.new])
  · exact absurd (refs_pos hx hxj) (by simp [refs_fresh h le_rfl])
  · exact absurd (h.joined _ hj).1 (by simp [hnew, Job.new])

/-- What the owner constructs is at some point of its constructor. -/
theorem Inv.constructs (h : Inv s) {ok : Bool} (hp : Permitted s (.make i ok)) :
    ∃ j p, s.owner i = .constructing j ∧ (s.job j).ctor = some p := by
  obtain ⟨hi, hidle, hwait⟩ := hp
  cases ho : s.owner i with
  | idle => exact absurd ho hidle
  | waiting => exact absurd ho hwait
  | constructing j =>
    obtain ⟨p, hp⟩ := Option.isSome_iff_exists.mp (h.ctor i hi j ho).1
    exact ⟨j, p, rfl, hp⟩

/-- A wait ends when the thread is over. -/
theorem Inv.join (h : Inv s) (ht : (s.job j).thread = some .terminated) (hc : (s.job j).ctor = none) :
    Inv { s with joined := s.joined ++ [j] } where
  job := h.job
  fits := h.fits
  unique := h.unique
  fresh := h.fresh
  ctor := h.ctor
  one := h.one
  busy := h.busy
  held := h.held
  waits := h.waits
  joined j' hj' := by
    rcases List.mem_append.mp hj' with hj' | hj'
    · exact h.joined j' hj'
    · rw [List.mem_singleton.mp hj']
      exact ⟨ht, hc⟩

/-- A `thread` refers to a kernel thread that was created. -/
theorem Inv.isSome_of_thread (h : Inv s) (hi : i ∈ s.live) (hj : s.thread i = some j) :
    (s.job j).thread.isSome :=
  isSome_of_fits (h.fits j) (refs_pos hi hj)

/-- The kernel thread a wait has ended for. -/
theorem Inv.ended (h : Inv s) (hp : Permitted s (.waited i)) :
    ∃ j, s.thread i = some j ∧ (s.job j).thread = some .terminated ∧ (s.job j).ctor = none := by
  obtain ⟨hi, ho, hr⟩ := hp
  obtain ⟨j, hj⟩ := Option.ne_none_iff_exists'.mp (h.waits i hi ho)
  have hk := h.isSome_of_thread hi hj
  refine ⟨j, hj, by simpa [hj, Runs, hk] using hr, ?_⟩
  by_contra hc
  have hc' := h.held i hi j hj (Option.isSome_iff_ne_none.mpr hc)
  exact absurd (ho.symm.trans hc') (by simp)

variable [DecidableEq S]

/-- A new object refers to no thread. -/
theorem Inv.add (h : Inv s) (hi : i ∉ s.live) : Inv (s.add i none .idle) where
  job j := by rw [refs_add hi]; exact h.job j
  fits j := by rw [refs_add hi]; exact h.fits j
  unique j := by rw [refs_add hi]; exact h.unique j
  fresh := h.fresh
  ctor := by have := h.ctor; simp only [Sys.add]; grind
  one := by have := h.one; simp only [Sys.add]; grind
  busy j hj := by
    obtain ⟨x, hx, ho⟩ := h.busy j hj
    exact ⟨x, Finset.mem_insert_of_mem hx,
      (Function.update_of_ne (ne_of_mem_of_not_mem hx hi) _ _).trans ho⟩
  held := by have := h.held; simp only [Sys.add]; grind
  waits := by have := h.waits; simp only [Sys.add]; grind
  joined := h.joined

/-- Two objects swap their threads. -/
theorem Inv.swap (h : Inv s) (hi : Idle s i) (hr : Idle s r) : Inv (s.swap i r) := by
  have hrefs := fun j => refs_swap (j := j) hi.1 hr.1
  rw [swap_eq] at hrefs ⊢
  refine h.rethread (fun x hx => ?_) (fun _ => rfl) (fun _ => id) (fun j => ?_) (fun j => ?_)
    (fun j => ?_) h.fresh
  · by_cases hxi : x = i
    · exact .inr ⟨hxi ▸ hi, fun j hj => ⟨r, hr, by rwa [hxi, Equiv.swap_apply_left] at hj⟩⟩
    by_cases hxr : x = r
    · exact .inr ⟨hxr ▸ hr, fun j hj => ⟨i, hi, by rwa [hxr, Equiv.swap_apply_right] at hj⟩⟩
    · exact .inl (congrArg s.thread (Equiv.swap_apply_of_ne_of_ne hxi hxr))
  · exact (h.job j).trans (congrArg _ (hrefs j).symm)
  · exact (congrArg _ (hrefs j)).mpr (h.fits j)
  · exact (hrefs j).trans_le (h.unique j)

/-- What a drop does not change. -/
structure Dropped (s t : Sys S) (i : S) : Prop where
  inv : Inv t
  live : t.live = s.live
  owner : t.owner = s.owner
  thread : t.thread = Function.update s.thread i none
  ctor : ∀ j, (t.job j).ctor = (s.job j).ctor
  pc : ∀ j, (t.job j).thread = (s.job j).thread

/-- An object gives up its thread, which may be the last reference. -/
theorem Inv.drop (h : Inv s) (hi : Idle s i) (hj : s.thread i = some j) :
    ∃ t, s.drop i j = some t ∧ Dropped s t i := by
  have hrefs := refs_clear hi.1 hj
  obtain ⟨n, hn⟩ : ∃ n, refs s j = n + 1 := ⟨_, by rw [hrefs, if_pos rfl]⟩
  let b := Job.of (s.job j).ctor (s.job j).thread n
  have hb : (s.job j).dereference = some b := by
    rw [h.job j, hn]
    exact dereference_of
  have hctor : ∀ j', ((s.setJob j b).job j').ctor = (s.job j').ctor := fun j' => by
    rcases eq_or_ne j' j with rfl | hne
    · rw [setJob_self]
      rfl
    · rw [setJob_of_ne hne]
  have hthread : ∀ j', ((s.setJob j b).job j').thread = (s.job j').thread := fun j' => by
    rcases eq_or_ne j' j with rfl | hne
    · rw [setJob_self]
      rfl
    · rw [setJob_of_ne hne]
  refine ⟨(s.setJob j b).setThread i none, by rw [Sys.drop, hb]; rfl, ?_, rfl, rfl, rfl, hctor,
    hthread⟩
  refine h.rethread (fun x hx => ?_) hctor (fun j' => (hthread j').trans) (fun j' => ?_)
    (fun j' => ?_) (fun j' => (Nat.le_add_right _ _).trans ((hrefs j').symm.trans_le (h.unique j')))
    fun j' hj' => ?_
  · rcases eq_or_ne x i with rfl | hne
    · exact .inr ⟨hi, fun j hj => by simp at hj⟩
    · exact .inl (Function.update_of_ne hne _ _)
  · change _ = Job.of _ _ (refs (s.setThread i none) j')
    have hr := hrefs j'
    rcases eq_or_ne j' j with rfl | hne
    · rw [if_pos rfl, hn, Nat.succ_inj] at hr
      rw [setJob_self, ← hr]
      rfl
    · rw [if_neg hne, Nat.add_zero] at hr
      rw [setJob_of_ne hne, ← hr]
      exact h.job j'
  · change Fits _ _ (refs (s.setThread i none) j')
    have hf := h.fits j'
    rw [hctor, hthread]
    rw [hrefs j'] at hf
    split_ifs at hf with hj'
    · exact fits_of_succ hf
    · exact hf
  · -- a kernel thread that was referred to is not yet to come
    have hne : j' ≠ j := fun he => by simp [← he, refs_fresh h hj'] at hn
    rw [setJob_of_ne hne]
    exact h.fresh j' hj'

/-- A constructor that goes on adds a reference when it has got the thread. -/
theorem refs_advance {b : Job} {set : Bool} {n : ℕ} (hT : Turn s i j)
    (hset : set = true → refs s j = 0) (j' : ℕ) :
    refs (s.advance i j b set n) j' = refs s j' + if j' = j then set.toNat else 0 := by
  cases set with
  | false => simp [refs, Sys.advance]
  | true =>
    have hn : s.thread i = none := by
      by_contra hne
      obtain ⟨j', hj'⟩ := Option.ne_none_iff_exists'.mp hne
      exact (refs_pos hT.live (hT.thread j' hj' ▸ hj')).ne' (hset rfl)
    exact refs_set hT.live hn j'

/-- A constructor that goes on keeps the invariant. -/
theorem Inv.advance (h : Inv s) (hT : Turn s i j) {b : Job} (set : Bool) (n : ℕ)
    (hb : b = Job.of b.ctor b.thread (refs s j + set.toNat))
    (hfits : Fits b.ctor b.thread (refs s j + set.toNat))
    (hset : set = true → refs s j = 0 ∧ b.ctor.isSome) (hj : j < n) (hn : s.jobs ≤ n) :
    Inv (s.advance i j b set n) := by
  have hrefs := refs_advance (b := b) (n := n) hT fun hs => (hset hs).1
  refine
    { job j' := ?_, fits j' := ?_, unique j' := ?_, fresh j' hj' := ?_, ctor x hx j' ho := ?_,
      one x hx y hy j' hxo hyo := ?_, busy j' hc := ?_, held x hx j' ht hc := ?_,
      waits x hx hw := ?_, joined j' hj' := ?_ }
  · rw [hrefs]
    rcases eq_or_ne j' j with rfl | hne
    · simpa [Sys.advance] using hb
    · simpa [Sys.advance, hne] using h.job j'
  · rw [hrefs]
    rcases eq_or_ne j' j with rfl | hne
    · simpa [Sys.advance] using hfits
    · simpa [Sys.advance, hne] using h.fits j'
  · rw [hrefs]
    cases set with
    | false => simpa using h.unique j'
    | true =>
      split_ifs with he
      · rw [he, (hset rfl).1, Bool.toNat_true]
      · exact h.unique j'
  · have hj'' : n ≤ j' := hj'
    exact (Function.update_of_ne (hj.trans_le hj'').ne' _ _).trans (h.fresh j' (hn.trans hj''))
  · have := hT.thread
    have := hT.alone x hx
    have := h.ctor x hx j'
    simp only [Sys.advance, Option.isNone_iff_eq_none, Option.isSome_iff_ne_none] at this ho ⊢
    grind
  · have := h.one x hx y hy j'
    have := hT.alone x hx
    have := hT.alone y hy
    simp only [Sys.advance] at hxo hyo ⊢
    grind
  · rcases eq_or_ne j' j with rfl | hne
    · have hw : b.ctor.isSome := by simpa [Sys.advance] using hc
      exact ⟨i, hT.live, by simp [Sys.advance, Option.isSome_iff_ne_none.mp hw]⟩
    · obtain ⟨x, hx, hxo⟩ := h.busy j' (by simpa [Sys.advance, hne] using hc)
      have hxi : x ≠ i := by
        rintro rfl
        exact hne (hT.owner j' hxo)
      exact ⟨x, hx, by simpa [Sys.advance, hxi] using hxo⟩
  · have := h.held x hx j'
    have := hT.sole x hx
    have := hT.thread j'
    have := hT.owner j'
    simp only [Sys.advance, Option.isNone_iff_eq_none, Option.isSome_iff_ne_none] at *
    grind
  · have := h.waits x hx
    simp only [Sys.advance] at hw ⊢
    grind
  · have hne : j' ≠ j := fun he => hT.joined (he ▸ hj')
    simpa [Sys.advance, hne] using h.joined j' hj'

/-- A constructor begins. -/
theorem Inv.construct (h : Inv s) (hi : i ∉ s.live) :
    ∃ t, step s (.construct i) = some t ∧ Inv t := by
  have ha := h.add hi
  have hT : Turn (s.add i none .idle) i s.jobs :=
    ha.turn_new ⟨Finset.mem_insert_self .., Function.update_self ..⟩ (Function.update_self ..)
  have hr : refs (s.add i none .idle) s.jobs = 0 := refs_fresh ha le_rfl
  have hadv := ha.advance (b := { Job.new with ctor := some .ref }) hT false (s.jobs + 1)
    (by rw [hr]; rfl) (by rw [hr]; exact ⟨rfl, rfl⟩) (by simp) s.jobs.lt_succ_self (Nat.le_succ _)
  refine ⟨_, ?_, hadv⟩
  simp [step, Sys.advance, Sys.add, Sys.setJob]

/-- A constructor goes on. -/
theorem Inv.make (h : Inv s) {ok : Bool} (hp : Permitted s (.make i ok)) :
    ∃ t, step s (.make i ok) = some t ∧ Inv t := by
  obtain ⟨j, p, ho, hc⟩ := h.constructs hp
  obtain ⟨w, k, set, hm⟩ := exists_made ok (hc ▸ h.fits j)
  have hmake := hm.make
  rw [← hc, ← h.job j] at hmake
  have hj : j < s.jobs := by
    by_contra hn
    rw [h.fresh j (Nat.le_of_not_lt hn)] at hc
    cases hc
  have hset : set = true → refs s j = 0 ∧ (Job.of w k (refs s j + set.toNat)).ctor.isSome :=
    fun hs => ⟨(hm.stay hs).1, congrArg Option.isSome (hm.stay hs).2⟩
  exact ⟨_, make_eq ho hmake, h.advance (h.turn hp.1 ho) set s.jobs rfl hm.fits hset hj le_rfl⟩

/-- A thread that runs goes on. -/
theorem Inv.threadProc (h : Inv s) (hr : Runs s j) :
    ∃ t, step s (.thread j) = some t ∧ Inv t := by
  obtain ⟨k, hk, hfits⟩ := threadProc_of (h.fits j) hr.1 hr.2
  rw [← h.job j] at hk
  refine ⟨s.setJob j (Job.of (s.job j).ctor (some k) (refs s j)), by simp [step, hk], ?_⟩
  refine h.rethread (fun x _ => .inl rfl) (fun j' => ?_) (fun j' ht => ?_) (fun j' => ?_)
    (fun j' => ?_) h.unique fun j' hj' => ?_
  all_goals rcases eq_or_ne j' j with rfl | hne
  · rw [Function.update_self]
    rfl
  · rw [Function.update_of_ne hne]
  · exact absurd ht hr.2
  · rwa [Function.update_of_ne hne]
  · rw [Function.update_self]
    rfl
  · rw [Function.update_of_ne hne]
    exact h.job j'
  · rw [Function.update_self]
    exact hfits
  · rw [Function.update_of_ne hne]
    exact h.fits j'
  · rw [Runs, h.fresh j' hj'] at hr
    exact absurd hr.1 (by simp [Job.new])
  · rw [Function.update_of_ne hne]
    exact h.fresh j' hj'

/-- A wait begins or ends. -/
theorem Inv.setOwner (h : Inv s) (hi : i ∈ s.live) (ho : ∀ j, s.owner i ≠ .constructing j) {o : Owner}
    (hc : ∀ j, o ≠ .constructing j) (hw : o = .waiting → s.thread i ≠ none) :
    Inv (s.setOwner i o) where
  job := h.job
  fits := h.fits
  unique := h.unique
  fresh := h.fresh
  ctor x hx j hj := by
    rcases eq_or_ne x i with rfl | hne
    · exact absurd ((Function.update_self ..).symm.trans hj) (hc j)
    · exact h.ctor x hx j ((Function.update_of_ne hne _ _).symm.trans hj)
  one := by
    have := h.one
    simp only [Sys.setOwner]
    grind
  busy j hj := by
    obtain ⟨x, hx, hxo⟩ := h.busy j hj
    have hne : x ≠ i := fun he => ho j (he ▸ hxo)
    exact ⟨x, hx, (Function.update_of_ne hne _ _).trans hxo⟩
  held x hx j hj hcj := by
    have hxo := h.held x hx j hj hcj
    have hne : x ≠ i := fun he => ho j (he ▸ hxo)
    exact (Function.update_of_ne hne _ _).trans hxo
  waits x hx hxw := by
    rcases eq_or_ne x i with rfl | hne
    · exact hw ((Function.update_self ..).symm.trans hxw)
    · exact h.waits x hx ((Function.update_of_ne hne _ _).symm.trans hxw)
  joined := h.joined

/-- A `thread` goes that refers to nothing. -/
theorem Inv.erase (h : Inv s) (hi : Idle s i) (hn : s.thread i = none) :
    Inv { s with live := s.live.erase i } where
  job j := (h.job j).trans (congrArg _ (count_erase hn).symm)
  fits j := (congrArg _ (count_erase hn)).mpr (h.fits j)
  unique j := (count_erase hn).trans_le (h.unique j)
  fresh := h.fresh
  ctor x hx := h.ctor x (Finset.mem_of_mem_erase hx)
  one x hx y hy := h.one x (Finset.mem_of_mem_erase hx) y (Finset.mem_of_mem_erase hy)
  busy j hj := by
    obtain ⟨x, hx, hxo⟩ := h.busy j hj
    have hne : x ≠ i := by
      rintro rfl
      exact absurd (hi.2.symm.trans hxo) (by simp)
    exact ⟨x, Finset.mem_erase.mpr ⟨hne, hx⟩, hxo⟩
  held x hx := h.held x (Finset.mem_of_mem_erase hx)
  waits x hx := h.waits x (Finset.mem_of_mem_erase hx)
  joined := h.joined

/-- Giving up a thread does not look at what the objects do. -/
theorem drop_setOwner (i : S) (o : Owner) (j : ℕ) (s : Sys S) :
    (s.setOwner i o).drop i j = (s.drop i j).map (Sys.setOwner i o) := by
  simp only [Sys.drop, Option.map_map]
  rfl

/-- Every step is possible. -/
theorem Inv.step (h : Inv s) {a : Act S} (hp : Permitted s a) : ∃ t, step s a = some t ∧ Inv t := by
  cases a with
  | default i => exact ⟨_, rfl, h.add hp⟩
  | construct i => exact h.construct hp
  | make i ok => exact h.make hp
  | moveConstruct i r =>
    obtain ⟨hi, hr⟩ := hp
    have hne : i ≠ r := (ne_of_mem_of_not_mem hr.1 hi).symm
    refine ⟨_, rfl, moveConstruct_eq hne ▸ (h.add hi).swap ?_ ?_⟩
    · exact ⟨Finset.mem_insert_self .., Function.update_self ..⟩
    · exact ⟨Finset.mem_insert_of_mem hr.1, (Function.update_of_ne hne.symm _ _).trans hr.2⟩
  | moveAssign i r => exact ⟨_, rfl, h.swap hp.2 hp.1⟩
  | swap i r => exact ⟨_, rfl, h.swap hp.1 hp.2⟩
  | detach i =>
    cases hj : s.thread i with
    | none => exact ⟨s, by simp [Threads.step, hj], h⟩
    | some j =>
      have ho : (s.job j).object.isSome := by
        rw [h.job j, Job.of, isSome_counted]
        exact Nat.add_pos_right _ (refs_pos hp.1 hj)
      exact ⟨_, by simp [Threads.step, hj, ho],
        h.setOwner hp.1 (fun j' => by simp [hp.2]) (o := .waiting) (by simp) fun _ => by simp [hj]⟩
  | waited i =>
    obtain ⟨j, hj, ht, hc⟩ := h.ended hp
    have hidle : Inv (s.setOwner i .idle) :=
      h.setOwner hp.1 (fun j => by simp [hp.2.1]) (by simp) (by simp)
    obtain ⟨t, hdrop, hd⟩ := hidle.drop ⟨hp.1, Function.update_self ..⟩ hj
    rw [drop_setOwner] at hdrop
    obtain ⟨u, hu, rfl⟩ := Option.map_eq_some_iff.mp hdrop
    refine ⟨{ u.setOwner i .idle with joined := u.joined ++ [j] },
      by simp only [Threads.step, hj, hu, Option.map_some], ?_⟩
    exact hd.inv.join ((hd.pc j).trans ht) ((hd.ctor j).trans hc)
  | destroy i =>
    cases hj : s.thread i with
    | none => exact ⟨_, by simp [Threads.step, hj], h.erase hp hj⟩
    | some j =>
      obtain ⟨t, ht, hd⟩ := h.drop hp hj
      refine ⟨{ t with live := t.live.erase i }, by simp [Threads.step, hj, ht], hd.inv.erase ?_ ?_⟩
      · exact ⟨hd.live ▸ hp.1, hd.owner ▸ hp.2⟩
      · rw [hd.thread, Function.update_self]
  | thread j => exact h.threadProc hp

end Invariant

section Results

variable {S : Type} {s t : Sys S} {j : ℕ}

/-- Nothing of a job is left. -/
structure Gone (b : Job) : Prop where
  pn : b.pn = none
  functor : b.functor = false
  holder : b.holder = none
  object : b.object = none
  hThread : b.hThread = false

/-- What was made for threads is there as long as it is used, and no longer. -/
structure Accounted (s : Sys S) : Prop where
  /-- A `thread` refers to an object that exists. -/
  referenced : ∀ i ∈ s.live, ∀ j, s.thread i = some j → (s.job j).object.isSome
  /-- A thread finds its callable. -/
  usable : ∀ j, (s.job j).thread = some .begun ∨ (s.job j).thread = some .calling →
    (s.job j).holder.isSome ∧ (s.job j).functor = true
  /-- A callable is called at most once. -/
  once : ∀ j, (s.job j).calls ≤ 1
  /-- It was called where the thread is over. -/
  ended : ∀ j, (s.job j).thread = some .terminated → (s.job j).calls = 1
  /-- A thread that was waited for is over, and its callable deleted. -/
  joined : ∀ j ∈ s.joined, (s.job j).thread = some .terminated ∧ (s.job j).functor = false ∧
    (s.job j).holder = none
  /-- What neither a thread, a constructor nor a `thread` has to do with is gone. -/
  gone : ∀ j, (s.job j).ctor = none → ¬Runs s j → (∀ i ∈ s.live, s.thread i ≠ some j) →
    Gone (s.job j)

/-- The function of a thread was called once, when it returned. -/
theorem Inv.calls (h : Inv s) (j : ℕ) : (s.job j).calls = returned (s.job j).thread :=
  congrArg Job.calls (h.job j)

/-- A job with no constructor, no thread and no references. -/
theorem gone_of {k : Option Pc} (hk : byThread k = 0) (hp : byProc k = 0) :
    Gone (Job.of none k 0) := by
  constructor <;> simp [Job.of, byPtr, byHolder, byCtor, copied, opened, hk, hp]

/-- Nothing is left of a thread that is over and that no object refers to. -/
theorem Inv.gone (h : Inv s) (hc : (s.job j).ctor = none) (hr : ¬Runs s j)
    (hn : ∀ i ∈ s.live, s.thread i ≠ some j) : Gone (s.job j) := by
  rw [h.job j, hc, refs_eq_zero.mpr hn]
  cases hk : (s.job j).thread with
  | none => exact gone_of rfl rfl
  | some k =>
    have hk' : k = .terminated := by simpa [Runs, hk] using hr
    exact hk' ▸ gone_of rfl rfl

/-- The invariant accounts for the threads. -/
theorem Inv.accounted (h : Inv s) : Accounted s where
  referenced i hi j hj := by
    rw [h.job j, Job.of, isSome_counted]
    exact Nat.add_pos_right _ (refs_pos hi hj)
  usable j hk := by
    have hf := h.fits j
    rw [h.job j]
    rcases hk with hk | hk
    all_goals
      rw [hk] at hf ⊢
      rcases past_of_fits hf with hw | hw | hw | hw <;>
        simp [hw, Job.of, byHolder, byCtor, byProc, copied]
  once j := by
    rw [h.calls]
    unfold returned
    split <;> simp
  ended j hk := by rw [h.calls, hk, returned]
  joined j hj := by
    obtain ⟨hk, hc⟩ := h.joined j hj
    rw [h.job j, hk, hc]
    exact ⟨rfl, rfl, rfl⟩
  gone j hc hr hn := h.gone hc hr hn

/-- A `thread` is not let go while its kernel thread runs: it is not destroyed, and its
constructor gets the reference. -/
def Kept (s : Sys S) : Act S → Prop
  | .destroy i => ¬(s.thread i).any fun j => Runs s j
  | .make i ok =>
    match s.owner i with
    | .constructing j => (s.job j).ctor = some .reference → ok = true ∨ ¬Runs s j
    | _ => True
  | _ => True

instance decidableKept (s : Sys S) : ∀ a, Decidable (Kept s a)
  | .destroy _ => inferInstanceAs (Decidable (¬_))
  | .make i ok =>
    match h : s.owner i with
    | .constructing j =>
      decidable_of_iff ((s.job j).ctor = some .reference → ok = true ∨ ¬Runs s j) (by simp [Kept, h])
    | .idle | .waiting => isTrue (by simp [Kept, h])
  | .default _ | .construct _ | .moveConstruct _ _ | .moveAssign _ _ | .swap _ _ | .detach _
  | .waited _ | .thread _ => isTrue trivial

/-- A kernel thread runs, and no `thread` refers to it or is about to. -/
def Lost (s : Sys S) (j : ℕ) : Prop :=
  Runs s j ∧ (∀ i ∈ s.live, s.thread i ≠ some j) ∧ (s.job j).ctor ≠ some .reference

/-- A thread is lost when it runs without references and nobody is about to get one. -/
theorem lost_iff : Lost s j ↔ Runs s j ∧ refs s j = 0 ∧ (s.job j).ctor ≠ some .reference := by
  rw [Lost, refs_eq_zero]

/-- Whether it is lost depends on its references and its job. -/
theorem lost_congr (hrefs : refs t j = refs s j) (hjob : t.job j = s.job j) : Lost t j ↔ Lost s j := by
  rw [lost_iff, lost_iff, Runs, Runs, hrefs, hjob]

/-- A thread that was not created is not lost. -/
theorem not_lost_of_thread (hk : (s.job j).thread = none) : ¬Lost s j := by
  rintro ⟨⟨hs, -⟩, -⟩
  simp [hk] at hs

variable [DecidableEq S]

/-- However threads, constructors and the owners of `thread`s take turns, and whatever fails in
a constructor: every step finds what it uses, a callable is called once in each thread and gone
when its thread was waited for, and nothing is left over. -/
theorem threads_accounted {as : List (Act S)} (hp : Along Permitted step Sys.init as) :
    ∃ s, run step (Sys.init : Sys S) as = some s ∧ Accounted s := by
  obtain ⟨s, hs, h⟩ := exists_run (fun _ _ h hp => h.step hp) inv_init hp
  exact ⟨s, hs, h.accounted⟩

/-- A thread is started while another one fails to, moved to the other object and waited for. -/
def starting : List (Act Bool) :=
  [.construct true, .make true true, .make true true, .construct false, .make true true,
    .make false true, .make false false, .make true true, .thread 0, .make true true, .make true true,
    .thread 0, .make true true, .moveAssign false true, .destroy true, .detach false, .thread 0,
    .thread 0, .waited false, .destroy false]

/-- A thread is created and over before its object is gone. -/
theorem threads_accounted_starting :
    ∃ s, run step (Sys.init : Sys Bool) starting = some s ∧ Accounted s :=
  threads_accounted (show Along Permitted step Sys.init starting by decide)

/-- A kernel thread is lost after the step. -/
def Loses (s : Sys S) (a : Act S) : Prop := ∃ t j, step s a = some t ∧ Lost t j

variable {i : S}

/-- After its `thread` has dropped it, a kernel thread that still runs is lost. -/
theorem lost_drop (h : Inv s) (hd : s.drop i j = some t) (hi : i ∈ s.live) (hj : s.thread i = some j)
    (hc : s.owner i = .idle ∨ s.owner i = .waiting) (j' : ℕ) :
    Lost t j' ↔ Lost s j' ∨ j' = j ∧ Runs s j := by
  obtain ⟨b, hb, rfl⟩ := Option.map_eq_some_iff.mp hd
  obtain ⟨hbc, hbt⟩ := dereference_cases hb
  have hrefs := refs_clear hi hj j'
  change refs s j' = refs ((s.setJob j b).setThread i none) j' + _ at hrefs
  rcases eq_or_ne j' j with rfl | hne
  · have hpos := refs_pos hi hj
    have hle := h.unique j'
    rw [if_pos rfl] at hrefs
    have hctor : (s.job j').ctor ≠ some .reference := fun hr => by
      have ho := h.held i hi j' hj (hr ▸ rfl)
      rcases hc with hc | hc <;> exact absurd (hc.symm.trans ho) (by simp)
    have hz : refs ((s.setJob j' b).setThread i none) j' = 0 := by omega
    have hjob : ((s.setJob j' b).setThread i none).job j' = b := setJob_self
    simp only [lost_iff, hz, Runs, hjob, hbc, hbt]
    grind
  · rw [if_neg hne, Nat.add_zero] at hrefs
    rw [lost_congr hrefs.symm (setJob_of_ne hne)]
    simp [hne]

/-- A swap loses no thread. -/
theorem lost_swap {r : S} (hi : Idle s i) (hr : Idle s r) : Lost (s.swap i r) j ↔ Lost s j :=
  lost_congr (refs_swap hi.1 hr.1) (by rw [swap_eq])

/-- Nor does an object without one that goes. -/
theorem lost_erase (hn : s.thread i = none) : Lost { s with live := s.live.erase i } j ↔ Lost s j := by
  have hrefs : refs { s with live := s.live.erase i } j = refs s j := count_erase hn
  exact lost_congr hrefs rfl

/-- A constructor loses the kernel thread when it gets no reference. -/
theorem kept_make {ok : Bool} (h : Inv s) (hl : ∀ j, ¬Lost s j) (hp : Permitted s (.make i ok))
    (ht : step s (.make i ok) = some t) : Kept s (.make i ok) ↔ ∀ j, ¬Lost t j := by
  obtain ⟨j, p, ho, hc⟩ := h.constructs hp
  obtain ⟨w, k, set, hm⟩ := exists_made ok (hc ▸ h.fits j)
  have hmake := hm.make
  rw [← hc, ← h.job j] at hmake
  obtain rfl := Option.some.inj ((make_eq ho hmake).symm.trans ht)
  have hT := h.turn hp.1 ho
  have hrefs := refs_advance (b := Job.of w k (refs s j + set.toNat)) (n := s.jobs) hT
    fun hs => (hm.stay hs).1
  have hothers : ∀ j' ≠ j, ¬Lost (s.advance i j (Job.of w k (refs s j + set.toNat)) set s.jobs) j' :=
    fun j' hne => by
      have hr := hrefs j'
      rw [if_neg hne, Nat.add_zero] at hr
      exact (lost_congr hr (Function.update_of_ne hne _ _)).not.mpr (hl j')
  have hself : Lost (s.advance i j (Job.of w k (refs s j + set.toNat)) set s.jobs) j ↔
      (k.isSome ∧ k ≠ some .terminated) ∧ refs s j + set.toNat = 0 ∧ w ≠ some .reference := by
    have hjob : (s.advance i j (Job.of w k (refs s j + set.toNat)) set s.jobs).job j =
        Job.of w k (refs s j + set.toNat) := Function.update_self ..
    rw [lost_iff, Runs, hjob, hrefs, if_pos rfl]
    rfl
  have hall : (∀ j', ¬Lost (s.advance i j (Job.of w k (refs s j + set.toNat)) set s.jobs) j') ↔
      ¬Lost (s.advance i j (Job.of w k (refs s j + set.toNat)) set s.jobs) j := by
    refine ⟨fun hn => hn j, fun hn j' => ?_⟩
    rcases eq_or_ne j' j with rfl | hne
    · exact hn
    · exact hothers j' hne
  have hkept : Kept s (.make i ok) ↔ (p = .reference → ok = true ∨ ¬Runs s j) := by
    simp [Kept, ho, hc]
  rw [hall, hself, hkept]
  rcases hm.thread with ⟨rfl, hw⟩ | ⟨rfl, hw, rfl⟩
  · by_cases hp : p = .reference
    · have hf : Fits (some .reference) (s.job j).thread (refs s j) := hp ▸ hc ▸ h.fits j
      have hs : set = ok := Bool.eq_iff_iff.mpr (hm.set.trans (and_iff_right hp))
      simp only [hp, hs, hf.2, Runs]
      cases ok <;> simp [hw]
    · have hs : set = false := Bool.eq_false_iff.mpr fun ht => hp (hm.set.mp ht).1
      have hn := hl j
      rw [lost_iff, hc, Runs] at hn
      simp only [hs, Bool.toNat_false, Nat.add_zero]
      exact iff_of_true (fun hr => absurd hr hp) fun ⟨hr, hz, _⟩ =>
        hn ⟨hr, hz, fun he => hp (Option.some.inj he)⟩
  · simp [hw]

/-- One step loses a kernel thread exactly when it lets go of a `thread`. -/
theorem kept_iff (h : Inv s) (hl : ∀ j, ¬Lost s j) {a : Act S} (hp : Permitted s a)
    (ht : step s a = some t) : Kept s a ↔ ∀ j, ¬Lost t j := by
  cases a with
  | default i =>
    obtain rfl := Option.some.inj ht
    exact iff_of_true trivial fun j => (lost_congr (refs_add hp _) rfl).not.mpr (hl j)
  | construct i =>
    obtain rfl := Option.some.inj ht
    refine iff_of_true trivial fun j => ?_
    rcases eq_or_ne j s.jobs with rfl | hne
    · exact not_lost_of_thread (congrArg Job.thread setJob_self)
    · refine (lost_congr ?_ ?_).not.mpr (hl j)
      · exact refs_add hp (.constructing s.jobs)
      · exact setJob_of_ne hne
  | make i ok => exact kept_make h hl hp ht
  | moveConstruct i r =>
    obtain rfl := Option.some.inj ht
    have hne : i ≠ r := (ne_of_mem_of_not_mem hp.2.1 hp.1).symm
    refine iff_of_true trivial fun j => ?_
    rw [moveConstruct_eq hne, lost_swap ⟨Finset.mem_insert_self .., Function.update_self ..⟩
      ⟨Finset.mem_insert_of_mem hp.2.1, (Function.update_of_ne hne.symm _ _).trans hp.2.2⟩]
    exact (lost_congr (refs_add hp.1 _) rfl).not.mpr (hl j)
  | moveAssign i r =>
    obtain rfl := Option.some.inj ht
    exact iff_of_true trivial fun j => (lost_swap hp.2 hp.1).not.mpr (hl j)
  | swap i r =>
    obtain rfl := Option.some.inj ht
    exact iff_of_true trivial fun j => (lost_swap hp.1 hp.2).not.mpr (hl j)
  | detach i =>
    refine iff_of_true trivial fun j => ?_
    cases hj : s.thread i with
    | none =>
      obtain rfl : s = t := by simpa [Threads.step, hj] using ht
      exact hl j
    | some j' =>
      obtain ⟨-, rfl⟩ : (s.job j').object.isSome ∧ s.setOwner i .waiting = t := by
        simpa [Threads.step, hj] using ht
      exact (lost_congr rfl rfl).not.mpr (hl j)
  | waited i =>
    obtain ⟨j', hj', hk, -⟩ := h.ended hp
    obtain ⟨u, hu, rfl⟩ : ∃ u, s.drop i j' = some u ∧
        { u.setOwner i .idle with joined := u.joined ++ [j'] } = t := by
      simpa [Threads.step, hj'] using ht
    refine iff_of_true trivial fun j hlost => ?_
    have hlost' : Lost u j := hlost
    rcases (lost_drop h hu hp.1 hj' (.inr hp.2.1) j).mp hlost' with hs | ⟨-, hr⟩
    · exact hl j hs
    · exact hr.2 hk
  | destroy i =>
    cases hj : s.thread i with
    | none =>
      obtain rfl : { s with live := s.live.erase i } = t := by simpa [Threads.step, hj] using ht
      refine iff_of_true (by simp [Kept, hj]) fun j => ?_
      exact (lost_erase hj).not.mpr (hl j)
    | some j' =>
      obtain ⟨u, hu, rfl⟩ : ∃ u, s.drop i j' = some u ∧ { u with live := u.live.erase i } = t := by
        simpa [Threads.step, hj] using ht
      have hn : u.thread i = none := by
        obtain ⟨b, -, rfl⟩ := Option.map_eq_some_iff.mp hu
        exact Function.update_self ..
      have hlost : ∀ j, Lost { u with live := u.live.erase i } j ↔ Lost s j ∨ j = j' ∧ Runs s j' :=
        fun j => (lost_erase hn).trans (lost_drop h hu hp.1 hj (.inl hp.2) j)
      simp [Kept, hj, hlost, hl]
  | thread j' =>
    obtain ⟨b, hb, rfl⟩ := Option.map_eq_some_iff.mp ht
    obtain ⟨k, hk, -⟩ := threadProc_of (h.fits j') hp.1 hp.2
    rw [← h.job j', hb] at hk
    refine iff_of_true trivial fun j hlost => ?_
    rcases eq_or_ne j j' with rfl | hne
    · obtain ⟨-, hn, hc⟩ := hlost
      have hjob : ((s.setJob j b).job j).ctor = (s.job j).ctor := by
        rw [setJob_self, Option.some.inj hk]
        rfl
      exact hl j ⟨hp, hn, hjob ▸ hc⟩
    · refine hl j ((lost_congr ?_ ?_).mp hlost)
      · rfl
      · exact setJob_of_ne hne

/-- A step that keeps the threads loses none. -/
theorem inv_kept {a : Act S} (h : Inv s ∧ ∀ j, ¬Lost s j) (hp : Permitted s a) (hk : Kept s a)
    (ht : step s a = some t) : Inv t ∧ ∀ j, ¬Lost t j := by
  obtain ⟨u, hu, hinv⟩ := h.1.step hp
  obtain rfl := Option.some.inj (hu.symm.trans ht)
  exact ⟨hinv, (kept_iff h.1 h.2 hp hu).mp hk⟩

/-- It keeps them when it is none of the two steps that lose one. -/
theorem kept_iff_not_loses {a : Act S} (h : Inv s ∧ ∀ j, ¬Lost s j) (hp : Permitted s a) :
    Kept s a ↔ ¬Loses s a := by
  obtain ⟨t, ht, -⟩ := h.1.step hp
  rw [kept_iff h.1 h.2 hp ht, Loses]
  constructor
  · rintro hn ⟨u, j, hu, hj⟩
    obtain rfl := Option.some.inj (ht.symm.trans hu)
    exact hn j hj
  · exact fun hn j hj => hn ⟨t, j, ht, hj⟩

/-- In a run no thread outlives the `thread`s that refer to it exactly when none is let go
before it is over, by a destructor or by a constructor that got no reference. Then, as soon as
all `thread`s are null, every thread is over and nothing is left of any: the driver can be
unloaded. -/
theorem threads_unload {as : List (Act S)} {s : Sys S} (hp : Along Permitted step Sys.init as)
    (hs : run step Sys.init as = some s) :
    (Along Kept step Sys.init as ↔ Along (fun s a => ¬Loses s a) step Sys.init as) ∧
      (Along Kept step Sys.init as → (∀ i ∈ s.live, Idle s i ∧ s.thread i = none) →
        ∀ j, ¬Runs s j ∧ Gone (s.job j)) := by
  have hinit : Inv (Sys.init : Sys S) ∧ ∀ j, ¬Lost (Sys.init : Sys S) j :=
    ⟨inv_init, fun _ => not_lost_of_thread rfl⟩
  have hiff : Along Kept step Sys.init as ↔ Along (fun s a => ¬Loses s a) step Sys.init as :=
    along_iff_of_step (I := fun s : Sys S => Inv s ∧ ∀ j, ¬Lost s j)
      (fun s a h hp => ⟨kept_iff_not_loses h hp, fun hk t ht => inv_kept h hp hk ht⟩) hinit hp
  refine ⟨hiff, fun hk hnull j => ?_⟩
  obtain ⟨h, hl⟩ := along_invariant (fun s a t h (hpk : Permitted s a ∧ Kept s a) ht =>
    inv_kept h hpk.1 hpk.2 ht) hinit (along_and.mpr ⟨hp, hk⟩) hs
  have hn : ∀ i ∈ s.live, s.thread i ≠ some j := fun i hi hj => by simp [(hnull i hi).2] at hj
  have hc : (s.job j).ctor = none := by
    by_contra hc
    obtain ⟨i, hi, ho⟩ := h.busy j (Option.isSome_iff_ne_none.mpr hc)
    exact absurd ((hnull i hi).1.2.symm.trans ho) (by simp)
  have hr : ¬Runs s j := fun hr => hl j ⟨hr, hn, by simp [hc]⟩
  exact ⟨hr, h.gone hc hr hn⟩

/-- Nothing is left of the thread then. -/
theorem threads_unload_starting :
    ∃ s, run step (Sys.init : Sys Bool) starting = some s ∧
      ∀ j, ¬Runs s j ∧ Gone (s.job j) := by
  have hp : Along Permitted step (Sys.init : Sys Bool) starting := by decide
  have hk : Along Kept step (Sys.init : Sys Bool) starting := by decide
  have hlive : (run step (Sys.init : Sys Bool) starting).map Sys.live = some ∅ := by decide
  obtain ⟨s, hs, hl⟩ := Option.map_eq_some_iff.mp hlive
  exact ⟨s, hs, (threads_unload hp hs).2 hk (by simp [hl])⟩

end Results

end KernelLib.ThreadOwners
