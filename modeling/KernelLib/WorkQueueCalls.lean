import KernelLib.WorkQueueThreads

/-!
# What the calls on the work queue return

Calls are numbered, so that what one of them recorded can be told from what
the others did. What a call of `enque`, `emptyEnque` or `deque` returns
agrees with what it recorded, whatever the other threads do in between.
-/

namespace KernelLib.WorkQueueCalls

open QueueRing WorkQueueThreads Function

variable {T V : Type}

/-- The call that a thread is in. -/
def callOf : Pc V → Option ℕ
  | .idle => none
  | .enque c _ | .enqued c _ _ | .emptyEnque c _ | .emptyEnqued c _ | .clear c | .cleared c
  | .unlink c _ | .delete c _ _ | .deque c | .wait c | .test c | .dequed c _ | .goExit c
  | .setExit c _ => some c

/-- What a call returns agrees with the record: an `enque` or `emptyEnque` that
returns false has added nothing, and `deque` never returns `E_FALSE`. -/
def Settled (s : Sys T V) (c : ℕ) : Ret V → Prop
  | .added ok => ok = true ↔ c ∈ s.accepted.map Prod.fst
  | .dequed rt o => rt ≠ .fail ∧ (rt = .ok ↔ o.isSome) ∧
      ∀ v, o = some v ↔ ∃ d ∈ s.delivered, d.call = c ∧ d.value = v
  | .cleared | .exit _ => True

/-- Nothing is recorded of this call. -/
def Unrecorded (s : Sys T V) (c : ℕ) : Prop :=
  c ∉ s.accepted.map Prod.fst ∧ ∀ d ∈ s.delivered, d.call ≠ c

/-- What the locals of a call say about the record. -/
def Agrees (s : Sys T V) : Pc V → Prop
  | .enque c _ | .emptyEnque c _ | .deque c | .wait c | .test c => Unrecorded s c
  | .enqued c _ ok | .emptyEnqued c ok => Settled s c (.added ok)
  | .unlink c r | .delete c r _ => Settled s c r
  | .dequed c o => Settled s c (.dequed (if o.isSome then .ok else .fail) o)
  | _ => True

/-- The calls are told apart, and what each one returned or is about to return is right. -/
structure Calls (s : Sys T V) : Prop where
  lt : ∀ t c, callOf (s.pc t) = some c → c < s.calls
  distinct : ∀ t u c, callOf (s.pc t) = some c → callOf (s.pc u) = some c → t = u
  accepted : ∀ x ∈ s.accepted, x.1 < s.calls
  delivered : ∀ d ∈ s.delivered, d.call < s.calls
  returned : ∀ x ∈ s.returned, x.1 < s.calls ∧ Settled s x.1 x.2 ∧ ∀ t, callOf (s.pc t) ≠ some x.1
  agrees : ∀ t, Agrees s (s.pc t)
  once : (s.accepted.map Prod.fst).Nodup

variable {s s' : Sys T V} {t : T} {c : ℕ} {p : Pc V}

/-- The record of a call is not changed by the entries of another. -/
theorem settled_congr {b : ℕ} (ha : b ∈ s'.accepted.map Prod.fst ↔ b ∈ s.accepted.map Prod.fst)
    (hd : ∀ d : Delivery V, d.call = b → (d ∈ s'.delivered ↔ d ∈ s.delivered)) (r : Ret V) :
    Settled s' b r ↔ Settled s b r := by
  cases r with
  | added ok => rw [Settled, Settled, ha]
  | cleared => rfl
  | dequed rt o =>
    unfold Settled
    refine and_congr_right' (and_congr_right' (forall_congr' fun v => iff_congr Iff.rfl ?_))
    constructor
    · rintro ⟨d, hm, hc, hv⟩
      exact ⟨d, (hd d hc).mp hm, hc, hv⟩
    · rintro ⟨d, hm, hc, hv⟩
      exact ⟨d, (hd d hc).mpr hm, hc, hv⟩
  | exit rt => rfl

theorem agrees_congr {b : ℕ} (ha : b ∈ s'.accepted.map Prod.fst ↔ b ∈ s.accepted.map Prod.fst)
    (hd : ∀ d : Delivery V, d.call = b → (d ∈ s'.delivered ↔ d ∈ s.delivered))
    (hp : callOf p = some b) : Agrees s' p ↔ Agrees s p := by
  have hu : Unrecorded s' b ↔ Unrecorded s b := by
    unfold Unrecorded
    rw [ha]
    refine and_congr_right' ⟨fun h d hm hc => ?_, fun h d hm hc => ?_⟩
    · exact h d ((hd d hc).mpr hm) hc
    · exact h d ((hd d hc).mp hm) hc
  have hs := settled_congr ha hd
  cases p <;> simp only [callOf, Option.some.injEq, reduceCtorEq] at hp <;> subst hp <;>
    simp only [Agrees, hu, hs]

variable [DecidableEq T]

/-- A step of a call that records entries of its own, if any, and goes on or returns. -/
theorem calls_go (h : Calls s) (hc : callOf (s.pc t) = some c) (hcalls : s'.calls = s.calls)
    (hpc : s'.pc = update s.pc t p) (xs : List (ℕ × V)) (ds : List (Delivery V))
    (haccepted : s'.accepted = s.accepted ++ xs) (hxs : ∀ x ∈ xs, x.1 = c)
    (hdelivered : s'.delivered = s.delivered ++ ds) (hds : ∀ d ∈ ds, d.call = c)
    (hreturned : callOf p = some c ∧ s'.returned = s.returned ∨
      p = .idle ∧ ∃ r, s'.returned = s.returned ++ [(c, r)] ∧ Settled s' c r)
    (hagrees : Agrees s' p) (honce : (s'.accepted.map Prod.fst).Nodup) : Calls s' := by
  have hsub : ∀ b, callOf p = some b → b = c := by
    intro b hb
    rcases hreturned with ⟨hp, -⟩ | ⟨rfl, -⟩
    · exact Option.some.inj (hb.symm.trans hp)
    · cases hb
  have hold : ∀ u b, callOf (s'.pc u) = some b → callOf (s.pc u) = some b := by
    intro u b hb
    rw [hpc] at hb
    by_cases hut : u = t
    · subst hut
      rw [update_self] at hb
      rw [hsub b hb, hc]
    · rwa [update_of_ne hut] at hb
  have ha : ∀ b, b ≠ c → (b ∈ s'.accepted.map Prod.fst ↔ b ∈ s.accepted.map Prod.fst) := by
    intro b hb
    rw [haccepted, List.map_append, List.mem_append, or_iff_left]
    intro hm
    obtain ⟨x, hx, rfl⟩ := List.mem_map.mp hm
    exact hb (hxs x hx)
  have hd : ∀ b, b ≠ c → ∀ d : Delivery V, d.call = b → (d ∈ s'.delivered ↔ d ∈ s.delivered) := by
    rintro b hb d rfl
    rw [hdelivered, List.mem_append, or_iff_left]
    exact fun hm => hb (hds d hm)
  constructor
  case lt =>
    intro u b hb
    rw [hcalls]
    exact h.lt u b (hold u b hb)
  case distinct => exact fun u w b hu hw => h.distinct u w b (hold u b hu) (hold w b hw)
  case accepted =>
    intro x hx
    rw [haccepted, List.mem_append] at hx
    rw [hcalls]
    refine hx.elim (h.accepted x) fun hx => ?_
    rw [hxs x hx]
    exact h.lt t c hc
  case delivered =>
    intro d hm
    rw [hdelivered, List.mem_append] at hm
    rw [hcalls]
    refine hm.elim (h.delivered d) fun hm => ?_
    rw [hds d hm]
    exact h.lt t c hc
  case returned =>
    -- what was returned before is of other calls
    have hbefore : ∀ x ∈ s.returned,
        x.1 < s'.calls ∧ Settled s' x.1 x.2 ∧ ∀ u, callOf (s'.pc u) ≠ some x.1 := by
      intro x hx
      obtain ⟨hlt, hset, hne⟩ := h.returned x hx
      have hxc : x.1 ≠ c := fun hx => hne t (hx ▸ hc)
      refine ⟨hcalls ▸ hlt, (settled_congr (ha _ hxc) (hd _ hxc) x.2).mpr hset, ?_⟩
      exact fun u hu => hne u (hold u _ hu)
    intro x hx
    rcases hreturned with ⟨-, hr⟩ | ⟨rfl, r, hr, hset⟩
    · exact hbefore x (hr ▸ hx)
    · rw [hr, List.mem_append, List.mem_singleton] at hx
      rcases hx with hx | rfl
      · exact hbefore x hx
      · refine ⟨hcalls ▸ h.lt t c hc, hset, fun u hu => ?_⟩
        have hut := h.distinct u t c (hold u c hu) hc
        rw [hut, hpc, update_self] at hu
        cases hu
  case agrees =>
    intro u
    rw [hpc]
    by_cases hut : u = t
    · rw [hut, update_self]
      exact hagrees
    · rw [update_of_ne hut]
      cases hb : callOf (s.pc u) with
      | none =>
        cases hpu : s.pc u <;> rw [hpu] at hb <;> cases hb
        trivial
      | some b =>
        have hbc : b ≠ c := by
          rintro rfl
          exact hut (h.distinct u t b hb hc)
        exact (agrees_congr (ha b hbc) (hd b hbc) hb).mpr (h.agrees u)
  case once => exact honce

/-- A new call. -/
theorem calls_begin (h : Calls s) (hpc : s.pc t = .idle) {p : ℕ → Pc V}
    (hp : callOf (p s.calls) = some s.calls)
    (hagrees : Unrecorded s s.calls → Agrees s (p s.calls)) : Calls (s.begin t p) := by
  have hnew : Unrecorded s s.calls := by
    constructor
    · intro hm
      obtain ⟨x, hx, he⟩ := List.mem_map.mp hm
      exact (h.accepted x hx).ne he
    · exact fun d hd => (h.delivered d hd).ne
  have hcase : ∀ u b, callOf ((s.begin t p).pc u) = some b →
      u = t ∧ b = s.calls ∨ u ≠ t ∧ callOf (s.pc u) = some b := by
    intro u b hb
    by_cases hut : u = t
    · subst hut
      simp only [Sys.begin_pc, update_self, hp] at hb
      exact .inl ⟨rfl, (Option.some.inj hb).symm⟩
    · exact .inr ⟨hut, by simpa [hut] using hb⟩
  constructor
  case lt =>
    intro u b hb
    rw [Sys.begin_calls]
    rcases hcase u b hb with ⟨-, rfl⟩ | ⟨-, hb⟩
    · exact Nat.lt_succ_self _
    · exact (h.lt u b hb).trans (Nat.lt_succ_self _)
  case distinct =>
    intro u w b hu hw
    rcases hcase u b hu with ⟨hut, hb⟩ | ⟨-, hu'⟩ <;> rcases hcase w b hw with ⟨hwt, hb'⟩ | ⟨-, hw'⟩
    · rw [hut, hwt]
    · exact absurd (h.lt w b hw') (by rw [hb]; exact lt_irrefl _)
    · exact absurd (h.lt u b hu') (by rw [hb']; exact lt_irrefl _)
    · exact h.distinct u w b hu' hw'
  case accepted => exact fun x hx => (h.accepted x hx).trans (Nat.lt_succ_self _)
  case delivered => exact fun d hd => (h.delivered d hd).trans (Nat.lt_succ_self _)
  case returned =>
    intro x hx
    obtain ⟨hlt, hset, hne⟩ := h.returned x hx
    refine ⟨hlt.trans (Nat.lt_succ_self _), hset, fun u hu => ?_⟩
    rcases hcase u _ hu with ⟨-, he⟩ | ⟨-, hu⟩
    · exact hlt.ne he
    · exact hne u hu
  case agrees =>
    intro u
    have hsame : ∀ q, Agrees (s.begin t p) q ↔ Agrees s q := fun q => by cases q <;> rfl
    rw [hsame]
    by_cases hut : u = t
    · subst hut
      simpa using hagrees hnew
    · simpa [hut] using h.agrees u
  case once => exact h.once

/-- A step of a call that leaves the record as it is. -/
theorem calls_stay (h : Calls s) (hc : callOf (s.pc t) = some c) (hcalls : s'.calls = s.calls)
    (hpc : s'.pc = update s.pc t p) (haccepted : s'.accepted = s.accepted)
    (hdelivered : s'.delivered = s.delivered)
    (hreturned : callOf p = some c ∧ s'.returned = s.returned ∨
      p = .idle ∧ ∃ r, s'.returned = s.returned ++ [(c, r)] ∧ Settled s c r)
    (hagrees : Agrees s p) : Calls s' := by
  have hset : ∀ b r, Settled s' b r ↔ Settled s b r :=
    fun b r => settled_congr (by rw [haccepted]) (fun d _ => by rw [hdelivered]) r
  refine calls_go h hc hcalls hpc [] [] (by simpa using haccepted) (by simp)
    (by simpa using hdelivered) (by simp) ?_ ?_ (haccepted ▸ h.once)
  · simpa only [hset] using hreturned
  · cases hb : callOf p with
    | none =>
      cases p <;> cases hb
      trivial
    | some b => exact (agrees_congr (by rw [haccepted]) (fun d _ => by rw [hdelivered]) hb).mpr hagrees

/-- The section of `enque` or `emptyEnque`. -/
theorem calls_accept (h : Calls s) (hc : callOf (s.pc t) = some c) (hu : Unrecorded s c)
    (hcalls : s'.calls = s.calls) (hpc : s'.pc = update s.pc t p) {v : V} {ok : Bool}
    (haccepted : s'.accepted = s.accepted ++ if ok then [(c, v)] else [])
    (hdelivered : s'.delivered = s.delivered) (hreturned : s'.returned = s.returned)
    (hp : callOf p = some c) (hagrees : Settled s' c (.added ok) → Agrees s' p) : Calls s' := by
  refine calls_go h hc hcalls hpc _ [] haccepted ?_ (by simpa using hdelivered) (by simp)
    (.inl ⟨hp, hreturned⟩) (hagrees ?_) ?_
  · intro x hx
    cases ok <;> simp_all
  · unfold Settled
    rw [haccepted]
    cases ok with
    | true => simp
    | false => simpa using hu.1
  · rw [haccepted]
    cases ok with
    | true =>
      rw [if_pos rfl, List.map_append, List.nodup_append]
      refine ⟨h.once, by simp, fun a ha b hb hab => ?_⟩
      simp only [List.map_cons, List.map_nil, List.mem_singleton] at hb
      exact hu.1 (hb ▸ hab ▸ ha)
    | false => simpa using h.once

/-- After its test for emptiness `deque` always gets an element. -/
theorem dequeLocked_some {m m' : Heap (Queue T) V} {o : Option (ℕ × V)}
    (h : dequeLocked m = some (some o, m')) : ∃ x, o = some x := by
  unfold dequeLocked at h
  cases he : QueueRing.empty .shared m with
  | none => simp [he] at h
  | some b =>
    cases b with
    | true => simp [he] at h
    | false =>
      simp only [he, Option.bind_eq_bind, Option.bind_some, Bool.false_eq_true, if_false] at h
      obtain ⟨⟨o', m''⟩, hpop, heq⟩ := Option.bind_eq_some_iff.mp h
      obtain rfl : o' = o := by simpa using congrArg (fun x => x.map Prod.fst) heq
      simp only [popFront, he, Option.bind_eq_bind, Option.bind_some, Bool.false_eq_true,
        if_false] at hpop
      obtain ⟨⟨i, m₁⟩, -, hpop⟩ := Option.bind_eq_some_iff.mp hpop
      obtain ⟨v, -, hpop⟩ := Option.bind_eq_some_iff.mp hpop
      obtain ⟨m₂, -, hpop⟩ := Option.bind_eq_some_iff.mp hpop
      exact ⟨(i, v), (Prod.mk.inj (Option.some.inj hpop)).1.symm⟩

omit [DecidableEq T] in
/-- The memory has no part in it. -/
theorem calls_setHeap (h : Calls s) (m : Heap (Queue T) V) : Calls (s.setHeap m) := by
  have hset : ∀ b r, Settled (s.setHeap m) b r ↔ Settled s b r :=
    fun _ r => settled_congr Iff.rfl (fun _ _ => Iff.rfl) r
  have hsame : ∀ p, Agrees (s.setHeap m) p ↔ Agrees s p := fun p => by cases p <;> rfl
  refine ⟨h.lt, h.distinct, h.accepted, h.delivered, ?_, ?_, h.once⟩
  · intro x hx
    rw [hset]
    exact h.returned x hx
  · intro t
    rw [hsame]
    exact h.agrees t

/-- A call keeps the calls told apart. -/
theorem calls_call (h : Calls s) (hpc : s.pc t = .idle) (op : Call V) (hs : call t s op = some s') :
    Calls s' := by
  cases op with
  | enque v =>
    obtain rfl := Option.some.inj hs
    exact calls_begin h hpc rfl id
  | emptyEnque v =>
    obtain ⟨m, -, rfl⟩ := Option.map_eq_some_iff.mp hs
    exact calls_begin (calls_setHeap h m) hpc rfl id
  | clear =>
    obtain ⟨m, -, rfl⟩ := Option.map_eq_some_iff.mp hs
    exact calls_begin (calls_setHeap h m) hpc rfl fun _ => trivial
  | deque =>
    obtain rfl := Option.some.inj hs
    exact calls_begin h hpc rfl id
  | goExit =>
    obtain rfl := Option.some.inj hs
    exact calls_begin h hpc rfl fun _ => trivial

/-- So does every later step of a call. -/
theorem calls_next (h : Calls s) {allocated : Bool} (hs : go t allocated s = some s') :
    Calls s' := by
  have hagrees := h.agrees t
  unfold go at hs
  cases hp : s.pc t with
  | idle =>
    rw [hp] at hs
    cases hs
  | enque c v =>
    rw [hp] at hs hagrees
    obtain ⟨x, -, rfl⟩ := Option.map_eq_some_iff.mp hs
    exact calls_accept (p := .enqued c x.1.1 x.1.2) h (by rw [hp]; rfl) hagrees rfl rfl rfl rfl rfl
      rfl id
  | enqued c empty ok =>
    rw [hp] at hs hagrees
    obtain rfl := Option.some.inj hs
    exact calls_stay (p := .idle) h (by rw [hp]; rfl) rfl rfl rfl rfl
      (.inr ⟨rfl, .added ok, rfl, hagrees⟩) trivial
  | emptyEnque c v =>
    rw [hp] at hs hagrees
    obtain ⟨x, -, rfl⟩ := Option.map_eq_some_iff.mp hs
    exact calls_accept (p := .emptyEnqued c x.1) h (by rw [hp]; rfl) hagrees rfl rfl rfl rfl rfl
      rfl id
  | emptyEnqued c ok =>
    rw [hp] at hs hagrees
    obtain rfl := Option.some.inj hs
    exact calls_stay (p := .unlink c (.added ok)) h (by rw [hp]; rfl) rfl rfl rfl rfl
      (.inl ⟨rfl, rfl⟩) hagrees
  | clear c =>
    rw [hp] at hs
    obtain ⟨m, -, rfl⟩ := Option.map_eq_some_iff.mp hs
    exact calls_stay (p := .cleared c) h (by rw [hp]; rfl) rfl rfl rfl rfl (.inl ⟨rfl, rfl⟩) trivial
  | cleared c =>
    rw [hp] at hs
    obtain rfl := Option.some.inj hs
    exact calls_stay (p := .unlink c .cleared) h (by rw [hp]; rfl) rfl rfl rfl rfl (.inl ⟨rfl, rfl⟩)
      trivial
  | unlink c r =>
    rw [hp] at hs hagrees
    obtain ⟨⟨o, m⟩, -, rfl⟩ := Option.map_eq_some_iff.mp hs
    cases o with
    | none =>
      exact calls_stay (p := .idle) h (by rw [hp]; rfl) rfl rfl rfl rfl
        (.inr ⟨rfl, r, rfl, hagrees⟩) trivial
    | some i =>
      exact calls_stay (p := .delete c r i) h (by rw [hp]; rfl) rfl rfl rfl rfl (.inl ⟨rfl, rfl⟩)
        hagrees
  | delete c r i =>
    rw [hp] at hs hagrees
    obtain ⟨m, -, rfl⟩ := Option.map_eq_some_iff.mp hs
    exact calls_stay (p := .unlink c r) h (by rw [hp]; rfl) rfl rfl rfl rfl (.inl ⟨rfl, rfl⟩) hagrees
  | deque c =>
    rw [hp] at hs hagrees
    obtain ⟨⟨o, m⟩, hdeq, rfl⟩ := Option.map_eq_some_iff.mp hs
    cases o with
    | none =>
      exact calls_stay (p := .wait c) h (by rw [hp]; rfl) rfl rfl rfl rfl (.inl ⟨rfl, rfl⟩) hagrees
    | some o =>
      obtain ⟨⟨i, v⟩, rfl⟩ := dequeLocked_some hdeq
      refine calls_go (p := .dequed c (some v)) h (by rw [hp]; rfl) rfl rfl []
        [⟨c, i, v⟩] (by simp) (by simp) (by simp) (by simp) (.inl ⟨rfl, rfl⟩) ?_
        (by simpa using h.once)
      refine ⟨by simp, by simp, fun w => ?_⟩
      constructor
      · intro hw
        exact ⟨⟨c, i, v⟩, by simp, rfl, Option.some.inj hw⟩
      · rintro ⟨d, hd, hdc, rfl⟩
        simp only [Sys.setPc_delivered, Sys.deliver_delivered, Sys.setHeap_delivered,
          Option.map_some, Option.toList_some, List.mem_append, List.mem_singleton] at hd
        rcases hd with hd | rfl
        · exact absurd hdc (hagrees.2 d hd)
        · rfl
  | wait c =>
    rw [hp] at hs hagrees
    obtain rfl := Option.some.inj hs
    exact calls_stay (p := .test c) h (by rw [hp]; rfl) rfl rfl rfl rfl (.inl ⟨rfl, rfl⟩) hagrees
  | test c =>
    rw [hp] at hs hagrees
    cases he : s.exit with
    | true =>
      simp only [he, if_true, Option.some.injEq] at hs
      subst hs
      refine calls_stay (p := .idle) h (by rw [hp]; rfl) rfl rfl rfl rfl
        (.inr ⟨rfl, .dequed .exit none, rfl, ?_⟩) trivial
      refine ⟨by simp, by simp, fun v => ?_⟩
      constructor
      · intro hv
        cases hv
      · rintro ⟨d, hd, hdc, -⟩
        exact absurd hdc (hagrees.2 d hd)
    | false =>
      simp only [he, Bool.false_eq_true, if_false, Option.some.injEq] at hs
      subst hs
      exact calls_stay (p := .deque c) h (by rw [hp]; rfl) rfl rfl rfl rfl (.inl ⟨rfl, rfl⟩) hagrees
  | dequed c o =>
    rw [hp] at hs hagrees
    obtain rfl := Option.some.inj hs
    exact calls_stay (p := .idle) h (by rw [hp]; rfl) rfl rfl rfl rfl
      (.inr ⟨rfl, _, rfl, hagrees⟩) trivial
  | goExit c =>
    rw [hp] at hs
    obtain rfl := Option.some.inj hs
    exact calls_stay (p := .setExit c s.exit) h (by rw [hp]; rfl) rfl rfl rfl rfl
      (.inl ⟨rfl, rfl⟩) trivial
  | setExit c rt =>
    rw [hp] at hs
    obtain rfl := Option.some.inj hs
    exact calls_stay (p := .idle) h (by rw [hp]; rfl) rfl rfl rfl rfl
      (.inr ⟨rfl, .exit rt, rfl, trivial⟩) trivial

end KernelLib.WorkQueueCalls
