import KernelLib.PoolBlocks
import KernelLib.StepRuns

/-!
# Lookaside pools

A pool of lookaside lists has one list for each size, or for each type, that
it was declared with. `Malloc` and `New` take a block from the list that the
finder selects, or from the system if that list is empty, and `Free` and
`Delete` put it back. The runtime keeps one pool for the counters and table
elements of the whole driver; `RunTimeInit` makes it and `RunTimeUnInit`
deletes it, and leaves the pointer to it as it was. Whatever the order of the
calls, every block that was taken from the system is the runtime's own, on
the list of its size, or with one user, and a call fails exactly when there
is no runtime.
-/

namespace KernelLib.LookasidePools

open PoolBlocks StepRuns

/-- What `ExAllocatePoolWithTag` hands out; the contents do not matter here. -/
abbrev Heap := Pool Unit

section Ledger

variable {h : Heap} {es es' : List (ℕ × ℕ)} {p n : ℕ}

/-- Every block that is allocated stands in the list once, with its size. -/
structure Lists (h : Heap) (es : List (ℕ × ℕ)) : Prop where
  owned : Owned h (es.map fun e => some e.1)
  sized : ∀ e ∈ es, ∃ b, h.block e.1 = some b ∧ b.bytes = e.2

theorem lists_empty : Lists Pool.empty [] := ⟨owned_empty, by simp⟩

theorem Lists.perm (hl : Lists h es) (hp : es.Perm es') : Lists h es' :=
  ⟨hl.owned.congr fun _ => ((hp.map _).count_eq _).symm, fun e he => hl.sized e (hp.mem_iff.mpr he)⟩

/-- A block comes. -/
theorem Lists.alloc (hl : Lists h es) (n : ℕ) :
    Lists (h.alloc true n).2 ((h.allocated, n) :: es) := by
  have hr := Replaces.alloc hl.owned.fresh n
  constructor
  · refine hl.owned.replace hr (fun _ hp => by simp at hp) fun p => ?_
    simp [List.count_cons]
  · rintro e (_ | ⟨_, he⟩)
    · exact ⟨_, set_block_self .., rfl⟩
    · obtain ⟨b, hb, hn⟩ := hl.sized e he
      exact ⟨b, (hr.keeps hl.owned.fresh (by simp [hb]) (by simp)).2.trans hb, hn⟩

/-- A block goes. -/
theorem Lists.free (hl : Lists h ((p, n) :: es)) : ∃ t, h.free (some p) = some t ∧ Lists t es := by
  obtain ⟨b, hb, -⟩ := hl.sized _ List.mem_cons_self
  have hr := (Replaces.refl hl.owned.fresh (d := some p) fun q hq => by
    simp [← Option.some.inj hq, hb]).drop
  refine ⟨_, free_some hb, hl.owned.replace hr (fun q hq => by simp [hq]) fun q => ?_, fun e he => ?_⟩
  · simp [List.count_cons]
  · obtain ⟨c, hc, hn⟩ := hl.sized e (List.mem_cons_of_mem _ he)
    -- the block does not stand in the rest of the list
    have hne : e.1 ≠ p := fun heq => by
      have hone := hl.owned.once p
      rw [List.map_cons, List.count_cons_self, hb, Option.isSome_some, if_pos rfl] at hone
      have hmem : some p ∈ es.map fun e => some e.1 := List.mem_map.mpr ⟨e, he, congrArg some heq⟩
      exact (List.count_pos_iff.mpr hmem).ne' (Nat.succ.inj hone)
    exact ⟨c, (set_block_of_ne _ hne).trans hc, hn⟩

end Ledger

/-- What a pool is declared with: the sizes of `LookAsideSizePool`, or the types of
`LookAsidePool`. -/
structure Layout (K : Type) where
  /-- `sizeof`. -/
  size : K → ℕ
  /-- The template arguments. -/
  args : List K
  /-- `sizeof(GlobleRuntime)`. -/
  runtime : ℕ

/-- `lookaside_t` for 64 bits. -/
def lookaside64 (runtime : ℕ) : Layout ℕ := ⟨id, [4, 36, 40], runtime⟩

/-- `lookaside_t` for 32 bits. -/
def lookaside32 (runtime : ℕ) : Layout ℕ := ⟨id, [4, 20, 24], runtime⟩

/-- A `LookasideAllocator`. -/
structure Lookaside (K : Type) where
  /-- The template argument. -/
  arg : K
  /-- The blocks on the list. -/
  free : List ℕ
  deriving DecidableEq, Repr

/-- `gInstanceGlobleRuntime`. -/
inductive Instance (K : Type) where
  /-- Null. -/
  | null
  /-- It points to a runtime with this pool. -/
  | live (block : ℕ) (pool : List (Lookaside K))
  /-- It points to a runtime that was deleted. -/
  | dangling
  deriving DecidableEq, Repr

/-- A block in use. -/
structure Held (K : Type) where
  /-- The block. -/
  block : ℕ
  /-- Its type, or size. -/
  arg : K
  /-- Whether there is an object in it that `New` has made. -/
  object : Bool
  deriving DecidableEq, Repr

/-- The driver's memory. -/
structure Sys (K : Type) where
  /-- The system's pool. -/
  heap : Heap
  /-- `gInstanceGlobleRuntime`. -/
  gInstance : Instance K
  /-- The blocks in use. -/
  held : List (Held K)

/-- A call. The flags say whether the system has memory, and whether a list has room. -/
inductive Act (K : Type) where
  /-- `RunTimeInit`. -/
  | init (ok : Bool)
  /-- `RunTimeUnInit`. -/
  | uninit
  /-- `Malloc<T>()`. -/
  | malloc (k : K) (ok : Bool)
  /-- `New<T>(...)`. -/
  | new (k : K) (ok : Bool)
  /-- `Free(p)`. -/
  | free (p : ℕ) (k : K) (room : Bool)
  /-- `Delete(p)`. -/
  | delete (p : Option ℕ) (k : K) (room : Bool)
  deriving DecidableEq, Repr

section Source

variable {K : Type}

/-- `allocate`. -/
def Lookaside.allocate (size : K → ℕ) (ok : Bool) (h : Heap) (l : Lookaside K) :
    Lookaside K × Heap × Option ℕ :=
  match l.free with
  | b :: bs => ({ l with free := bs }, h, some b)
  | [] =>
    let (p, h) := h.alloc ok (size l.arg)
    (l, h, p)

/-- `free`. -/
def Lookaside.release (p : ℕ) (room : Bool) (h : Heap) (l : Lookaside K) :
    Option (Lookaside K × Heap) :=
  if room then some ({ l with free := p :: l.free }, h)
  else (h.free (some p)).map fun h => (l, h)

/-- `~LookasideAllocator`. -/
def Lookaside.destroy (h : Heap) (l : Lookaside K) : Option Heap :=
  l.free.foldlM (fun h b => h.free (some b)) h

variable [DecidableEq K] (L : Layout K)

/-- Do something to the list that `MatchTypeFinder` and `MatchSizeTypeFinder` select. Where they
end with `void`, it does not compile. -/
def finder {R : Type} (k : K) (f : Lookaside K → Option (Lookaside K × R)) :
    List (Lookaside K) → Option (List (Lookaside K) × R)
  | [] => none
  | l :: next =>
    if l.arg = k then (f l).map fun x => (x.1 :: next, x.2)
    else (finder k f next).map fun x => (l :: x.1, x.2)

/-- `RunTimeInit`. -/
def init (ok : Bool) (s : Sys K) : Sys K :=
  match s.heap.alloc ok L.runtime with
  | (none, h) => { s with heap := h, gInstance := .null }
  | (some p, h) => { s with heap := h, gInstance := .live p (L.args.map fun k => ⟨k, []⟩) }

/-- `RunTimeUnInit`. -/
def uninit (s : Sys K) : Option (Sys K) :=
  match s.gInstance with
  | .null => some s
  | .live p pool => do
    let h ← pool.foldlM Lookaside.destroy s.heap
    let h ← h.free (some p)
    return { s with heap := h, gInstance := .dangling }
  | .dangling => none

/-- A user gets a block, if there is one. -/
def Sys.get (object : Bool) (k : K) (b : ℕ) (s : Sys K) :
    List (Lookaside K) × Heap × Option ℕ → Sys K × Option ℕ
  | (pool, h, none) => ({ s with gInstance := .live b pool, heap := h }, none)
  | (pool, h, some p) =>
    ({ s with gInstance := .live b pool, heap := h, held := ⟨p, k, object⟩ :: s.held }, some p)

/-- `Malloc`, and `New`, which makes an object in the block. -/
def malloc (object : Bool) (k : K) (ok : Bool) (s : Sys K) : Option (Sys K × Option ℕ) :=
  match s.gInstance with
  | .live b pool => (finder k (fun l => some (l.allocate L.size ok s.heap)) pool).map (s.get object k b)
  | .null | .dangling => none

/-- `Free`, and `Delete` once the object is destroyed. -/
def free (object : Bool) (p : ℕ) (k : K) (room : Bool) (s : Sys K) : Option (Sys K) :=
  match s.gInstance with
  | .live b pool => (finder k (fun l => l.release p room s.heap) pool).map fun x =>
    { s with gInstance := .live b x.1, heap := x.2, held := s.held.erase ⟨p, k, object⟩ }
  | .null | .dangling => none

/-- The driver was loaded. -/
def start : Sys K := ⟨Pool.empty, .null, []⟩

/-- Make a call. -/
def step (s : Sys K) : Act K → Option (Sys K)
  | .init ok => some (init L ok s)
  | .uninit => uninit s
  | .malloc k ok => (malloc L false k ok s).map Prod.fst
  | .new k ok => (malloc L true k ok s).map Prod.fst
  | .free p k room => free false p k room s
  | .delete none _ _ => some s
  | .delete (some p) k room => free true p k room s

/-- There is a runtime. -/
def Instance.isLive : Instance K → Bool
  | .live _ _ => true
  | .null | .dangling => false

/-- Blocks are asked for by the types of the pool, and given back once, by their type and in the
way they were taken. `RunTimeInit` is called when there is no runtime. -/
def Permitted (s : Sys K) : Act K → Prop
  | .init _ => s.gInstance.isLive = false
  | .uninit => True
  | .malloc k _ | .new k _ => k ∈ L.args
  | .free p k _ => ⟨p, k, false⟩ ∈ s.held
  | .delete p k _ => ∀ b ∈ p, ⟨b, k, true⟩ ∈ s.held

/-- The call finds a runtime, or needs none. -/
def InTime (s : Sys K) : Act K → Prop
  | .init _ | .delete none _ _ => True
  | .uninit => s.gInstance ≠ .dangling
  | .malloc _ _ | .new _ _ | .free _ _ _ | .delete (some _) _ _ => s.gInstance.isLive = true

instance decidablePermitted (s : Sys K) : ∀ a, Decidable (Permitted L s a)
  | .init _ => inferInstanceAs (Decidable (_ = false))
  | .uninit => isTrue trivial
  | .malloc _ _ | .new _ _ | .free _ _ _ => inferInstanceAs (Decidable (_ ∈ _))
  | .delete p _ _ => inferInstanceAs (Decidable (∀ b ∈ p, _))

end Source

section Blocks

variable {K : Type} (L : Layout K)

/-- The blocks on lists. -/
def cached (pool : List (Lookaside K)) : List (ℕ × ℕ) :=
  pool.flatMap fun l => l.free.map fun b => (b, L.size l.arg)

/-- The blocks of the runtime. -/
def kept : Instance K → List (ℕ × ℕ)
  | .live b pool => (b, L.runtime) :: cached L pool
  | .null | .dangling => []

/-- The blocks in use. -/
def inUse (held : List (Held K)) : List (ℕ × ℕ) := held.map fun x => (x.block, L.size x.arg)

/-- All blocks are accounted for. -/
structure Accounted (s : Sys K) : Prop where
  lists : Lists s.heap (kept L s.gInstance ++ inUse L s.held)
  args : ∀ b pool, s.gInstance = .live b pool → pool.map Lookaside.arg = L.args
  known : ∀ x ∈ s.held, x.arg ∈ L.args

variable {L} {h : Heap} {es : List (ℕ × ℕ)} {k : K} {s : Sys K} {b : ℕ} {pool : List (Lookaside K)}

/-- The blocks of one list. -/
def Lookaside.blocks (L : Layout K) (l : Lookaside K) : List (ℕ × ℕ) :=
  l.free.map fun b => (b, L.size l.arg)

theorem cached_split (pre : List (Lookaside K)) (l : Lookaside K) (post : List (Lookaside K)) :
    (cached L (pre ++ l :: post)).Perm (l.blocks L ++ cached L (pre ++ post)) := by
  simp only [cached, List.flatMap_append, List.flatMap_cons]
  exact List.perm_append_comm_assoc ..

/-- A block is held by the runtime, on one list and behind it, or in use. -/
theorem kept_split (pre : List (Lookaside K)) (l : Lookaside K) (post : List (Lookaside K))
    (es : List (ℕ × ℕ)) :
    (kept L (.live b (pre ++ l :: post)) ++ es).Perm
      (l.blocks L ++ (kept L (.live b (pre ++ post)) ++ es)) := by
  refine (((cached_split pre l post).append_right es).cons (b, L.runtime)).trans ?_
  rw [List.append_assoc]
  exact List.perm_middle.symm

/-- `~LookasideAllocator` gives its blocks back. -/
theorem lists_destroy {l : Lookaside K} (hl : Lists h (l.blocks L ++ es)) :
    ∃ t, l.destroy h = some t ∧ Lists t es := by
  obtain ⟨k, bs⟩ := l
  induction bs generalizing h with
  | nil => exact ⟨h, rfl, hl⟩
  | cons c cs ih =>
    obtain ⟨u, hu, hlu⟩ := hl.free
    obtain ⟨t, ht, hlt⟩ := ih hlu
    exact ⟨t, by rw [← ht]; simp [Lookaside.destroy, hu], hlt⟩

/-- And so do all lists of a pool. -/
theorem lists_destroy_pool (hl : Lists h (cached L pool ++ es)) :
    ∃ t, pool.foldlM Lookaside.destroy h = some t ∧ Lists t es := by
  induction pool generalizing h with
  | nil => exact ⟨h, rfl, hl⟩
  | cons l pool ih =>
    have hfirst : Lists h (l.blocks L ++ (cached L pool ++ es)) := by
      simpa [cached, Lookaside.blocks] using hl
    obtain ⟨u, hu, hlu⟩ := lists_destroy hfirst
    obtain ⟨t, ht, hlt⟩ := ih hlu
    exact ⟨t, by simp [hu, ht], hlt⟩

theorem accounted_uninit (h : Accounted L s) (hi : s.gInstance ≠ .dangling) :
    ∃ t, uninit s = some t ∧ Accounted L t := by
  cases hg : s.gInstance with
  | null => exact ⟨s, by simp [uninit, hg], h⟩
  | dangling => exact absurd hg hi
  | live b pool =>
    have hl := h.lists
    rw [hg] at hl
    obtain ⟨u, hu, hlu⟩ := lists_destroy_pool (hl.perm List.perm_middle.symm)
    obtain ⟨t, ht, hlt⟩ := hlu.free
    exact ⟨{ s with heap := t, gInstance := .dangling }, by simp [uninit, hg, hu, ht],
      hlt, nofun, h.known⟩

theorem accounted_start : Accounted L (start : Sys K) := ⟨lists_empty, nofun, nofun⟩

/-- `RunTimeInit` starts with empty lists. -/
theorem accounted_init (h : Accounted L s) (hi : s.gInstance.isLive = false) (ok : Bool) :
    Accounted L (init L ok s) := by
  have hbase : Lists s.heap (inUse L s.held) := by
    have hl := h.lists
    cases hg : s.gInstance with
    | live b pool => simp [hg, Instance.isLive] at hi
    | null | dangling => simpa [hg, kept] using hl
  cases ok with
  | false => exact ⟨hbase, nofun, h.known⟩
  | true =>
    have hcached : cached L (L.args.map fun k => (⟨k, []⟩ : Lookaside K)) = [] := by
      simp [cached, List.flatMap_map]
    refine ⟨?_, ?_, h.known⟩
    · have hnew := hbase.alloc L.runtime
      simpa [init, Pool.alloc, kept, hcached] using hnew
    · rintro _ _ ⟨⟩
      simp [Function.comp_def]

theorem not_isLive {g : Instance K} (h : g.isLive ≠ true) : g = .null ∨ g = .dangling := by
  cases g with
  | live b pool => exact absurd rfl h
  | null => exact .inl rfl
  | dangling => exact .inr rfl

variable [DecidableEq K]

/-- The finder selects a list of the pool, and goes on with what is done to it. -/
theorem exists_finder (hk : k ∈ pool.map Lookaside.arg) :
    ∃ pre l post, pool = pre ++ l :: post ∧ l.arg = k ∧
      ∀ (R : Type) (f : Lookaside K → Option (Lookaside K × R)),
        finder k f pool = (f l).map fun x => (pre ++ x.1 :: post, x.2) := by
  induction pool with
  | nil => simp at hk
  | cons l next ih =>
    by_cases hl : l.arg = k
    · exact ⟨[], l, next, rfl, hl, fun R f => by simp [finder, hl]⟩
    · obtain ⟨pre, m, post, rfl, hm, hf⟩ := ih (by simpa [Ne.symm hl] using hk)
      exact ⟨l :: pre, m, post, rfl, hm, fun R f => by simp [finder, hl, hf, Function.comp_def]⟩

theorem accounted_malloc (h : Accounted L s) (hi : s.gInstance.isLive = true) (hk : k ∈ L.args)
    (object ok : Bool) : ∃ t, malloc L object k ok s = some t ∧ Accounted L t.1 := by
  cases hg : s.gInstance with
  | null | dangling => simp [hg, Instance.isLive] at hi
  | live b pool =>
    have hargs := h.args b pool hg
    obtain ⟨pre, l, post, rfl, hl, hf⟩ := exists_finder (hargs ▸ hk)
    have hlists := h.lists.perm (hg ▸ kept_split (b := b) pre l post (inUse L s.held))
    have hknown : ∀ p, ∀ x ∈ ⟨p, k, object⟩ :: s.held, x.arg ∈ L.args := by
      rintro p x (_ | ⟨_, hx⟩)
      · exact hk
      · exact h.known x hx
    simp only [malloc, hg, hf, Option.map_some, Option.some.injEq, exists_eq_left']
    cases hb : l.free with
    | cons c cs =>
      -- the block goes from the list to the user
      have hblocks : l.blocks L = (c, L.size k) :: (⟨l.arg, cs⟩ : Lookaside K).blocks L := by
        simp [Lookaside.blocks, hb, hl]
      rw [hblocks, List.cons_append] at hlists
      have hlists' := hlists.perm (((kept_split pre ⟨l.arg, cs⟩ post _).symm.cons _).trans
        List.perm_middle.symm)
      simp only [Lookaside.allocate, hb, Sys.get]
      exact ⟨hlists', by rintro _ _ ⟨⟩; simpa using hargs, hknown c⟩
    | nil =>
      have hbase : Lists s.heap (kept L (.live b (pre ++ l :: post)) ++ inUse L s.held) := hg ▸ h.lists
      cases ok with
      | false =>
        simp only [Lookaside.allocate, hb, Sys.get, Pool.alloc, Bool.false_eq_true, if_false]
        exact ⟨hbase, by rintro _ _ ⟨⟩; exact hargs, h.known⟩
      | true =>
        simp only [Lookaside.allocate, hb, Sys.get, Pool.alloc, if_true]
        have hnew := (hbase.alloc (L.size l.arg)).perm List.perm_middle.symm
        exact ⟨hl ▸ hnew, by rintro _ _ ⟨⟩; exact hargs, hknown _⟩

theorem accounted_free (h : Accounted L s) (hi : s.gInstance.isLive = true) {object : Bool} {p : ℕ}
    (hp : ⟨p, k, object⟩ ∈ s.held) (room : Bool) :
    ∃ t, free object p k room s = some t ∧ Accounted L t := by
  cases hg : s.gInstance with
  | null | dangling => simp [hg, Instance.isLive] at hi
  | live b pool =>
    have hargs := h.args b pool hg
    obtain ⟨pre, l, post, rfl, rfl, hf⟩ := exists_finder (hargs ▸ h.known _ hp)
    have hbase : Lists s.heap (kept L (.live b (pre ++ l :: post)) ++ inUse L s.held) := hg ▸ h.lists
    -- the block that comes back
    have huse : (inUse L s.held).Perm
        ((p, L.size l.arg) :: inUse L (s.held.erase ⟨p, l.arg, object⟩)) :=
      (List.perm_cons_erase hp).map _
    have hback := hbase.perm ((huse.append_left _).trans List.perm_middle)
    have hknown : ∀ x ∈ s.held.erase ⟨p, l.arg, object⟩, x.arg ∈ L.args := fun x hx =>
      h.known x (List.mem_of_mem_erase hx)
    simp only [free, hg, hf]
    cases room with
    | true =>
      have hlists := hback.perm ((kept_split pre l post _).cons _)
      refine ⟨_, rfl, hlists.perm ?_, by rintro _ _ ⟨⟩; simpa using hargs, hknown⟩
      exact (kept_split pre ⟨l.arg, p :: l.free⟩ post _).symm
    | false =>
      obtain ⟨u, hu, hlu⟩ := hback.free
      exact ⟨{ s with
          gInstance := .live b (pre ++ l :: post)
          heap := u
          held := s.held.erase ⟨p, l.arg, object⟩ },
        by simp [Lookaside.release, hu], hlu, by rintro _ _ ⟨⟩; exact hargs, hknown⟩

/-- A call in time succeeds and keeps the accounts; another one fails. -/
theorem accounted_step (h : Accounted L s) {a : Act K} (hp : Permitted L s a) :
    (InTime s a ∧ ∃ t, step L s a = some t ∧ Accounted L t) ∨ ¬InTime s a ∧ step L s a = none := by
  have htake : ∀ object k ok, k ∈ L.args →
      (s.gInstance.isLive = true ∧
        ∃ t, (malloc L object k ok s).map Prod.fst = some t ∧ Accounted L t) ∨
      ¬s.gInstance.isLive = true ∧ (malloc L object k ok s).map Prod.fst = none := by
    intro object k ok hk
    by_cases hi : s.gInstance.isLive = true
    · obtain ⟨t, ht, hl⟩ := accounted_malloc h hi hk object ok
      exact .inl ⟨hi, t.1, by rw [ht]; rfl, hl⟩
    · refine .inr ⟨hi, ?_⟩
      rcases not_isLive hi with hg | hg <;> simp [malloc, hg]
  have hgive : ∀ object p k room, ⟨p, k, object⟩ ∈ s.held →
      (s.gInstance.isLive = true ∧ ∃ t, free object p k room s = some t ∧ Accounted L t) ∨
      ¬s.gInstance.isLive = true ∧ free object p k room s = none := by
    intro object p k room hx
    by_cases hi : s.gInstance.isLive = true
    · exact .inl ⟨hi, accounted_free h hi hx room⟩
    · refine .inr ⟨hi, ?_⟩
      rcases not_isLive hi with hg | hg <;> simp [free, hg]
  cases a with
  | init ok => exact .inl ⟨trivial, _, rfl, accounted_init h hp ok⟩
  | uninit =>
    by_cases hi : s.gInstance = .dangling
    · exact .inr ⟨fun hne => hne hi, by simp [step, uninit, hi]⟩
    · exact .inl ⟨hi, accounted_uninit h hi⟩
  | malloc k ok => exact htake false k ok hp
  | new k ok => exact htake true k ok hp
  | free p k room => exact hgive false p k room hp
  | delete p k room =>
    cases p with
    | none => exact .inl ⟨trivial, s, rfl, h⟩
    | some p => exact hgive true p k room (hp p rfl)

end Blocks

/-- Without a runtime the blocks that are allocated are those in use. -/
theorem Accounted.isSome_iff {K : Type} {L : Layout K} {s : Sys K} (h : Accounted L s)
    (hi : s.gInstance.isLive = false) (p : ℕ) :
    (s.heap.block p).isSome ↔ ∃ x ∈ s.held, x.block = p := by
  have hkept : kept L s.gInstance = [] := by
    rcases not_isLive (ne_true_of_eq_false hi) with hg | hg <;> rw [hg] <;> rfl
  have hone := h.lists.owned.once p
  rw [hkept, List.nil_append, inUse, List.map_map] at hone
  have hmem : some p ∈ s.held.map ((fun e : ℕ × ℕ => some e.1) ∘ fun x => (x.block, L.size x.arg)) ↔
      ∃ x ∈ s.held, x.block = p := by simp
  rw [← hmem, ← List.count_pos_iff, hone]
  split <;> simp_all

/-- Whatever the order of the calls, and whatever the system refuses: all calls succeed exactly
when each of them finds a runtime, and then every block that was taken from the system is the
runtime's own, or on the list of its size, or in use with its size, and that once. Without a
runtime the blocks that are allocated are those in use. -/
theorem pools_account {K : Type} [DecidableEq K] (L : Layout K) {as : List (Act K)}
    (hp : Along (Permitted L) (step L) start as) :
    ((∃ s, run (step L) start as = some s) ↔ Along InTime (step L) start as) ∧
      ∀ s, run (step L) start as = some s → Accounted L s ∧
        (s.gInstance.isLive = false → ∀ p, (s.heap.block p).isSome ↔ ∃ x ∈ s.held, x.block = p) := by
  have hstep : ∀ s a t, Accounted L s → Permitted L s a → step L s a = some t → Accounted L t := by
    intro s a t h hp ht
    rcases accounted_step h hp with ⟨-, u, hu, hl⟩ | ⟨-, hn⟩
    · exact Option.some.inj (hu.symm.trans ht) ▸ hl
    · cases hn.symm.trans ht
  constructor
  · refine ⟨fun ⟨s, hs⟩ => ?_, fun ht => ?_⟩
    · refine (along_iff_of_invariant (R := fun _ _ => True) (I := Accounted L) ?_ accounted_start hp
        hs).mpr (along_of_forall (Q := fun _ => True) fun _ _ => trivial)
      intro s a t h hp ht
      refine ⟨iff_of_true ?_ trivial, fun _ => hstep s a t h hp ht⟩
      rcases accounted_step h hp with ⟨hi, -⟩ | ⟨-, hn⟩
      · exact hi
      · cases hn.symm.trans ht
    · obtain ⟨s, hs, -⟩ := exists_run (I := Accounted L) (fun s a h hpt => by
        rcases accounted_step h hpt.1 with ⟨-, hu⟩ | ⟨hn, -⟩
        · exact hu
        · exact absurd hpt.2 hn) accounted_start (along_and.mpr ⟨hp, ht⟩)
      exact ⟨s, hs⟩
  · intro s hs
    have h := along_invariant hstep accounted_start hp hs
    exact ⟨h, h.isSome_iff⟩

/-- A driver is loaded. A counter is deleted, and its block taken again while the system has no
memory; a table element is still in use when the driver is unloaded. -/
def loading : List (Act ℕ) :=
  [.init true, .new 4 true, .malloc 40 true, .delete (some 1) 4 true, .malloc 4 false, .free 1 4 false,
    .uninit]

theorem pools_account_loading :
    ∃ s, run (step (lookaside64 384)) start loading = some s ∧ Accounted (lookaside64 384) s ∧
      ∀ p, (s.heap.block p).isSome ↔ ∃ x ∈ s.held, x.block = p := by
  have hp : Along (Permitted (lookaside64 384)) (step (lookaside64 384)) start loading := by decide
  have hend : (run (step (lookaside64 384)) start loading).map Sys.gInstance = some .dangling := by
    decide
  obtain ⟨s, hs, hg⟩ := Option.map_eq_some_iff.mp hend
  obtain ⟨hacc, hblocks⟩ := (pools_account (lookaside64 384) hp).2 s hs
  exact ⟨s, hs, hacc, hblocks (by rw [hg]; rfl)⟩

end KernelLib.LookasidePools
