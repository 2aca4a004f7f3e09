import KernelLib.VectorCalls

/-!
# The owners of buffers

A block of the pool belongs to the vector whose `_data` it is. Every call hands
blocks on from one owner to the next but one: the move from a vector of another
pool type copies the bytes into a block of its own, clears the pointer of the
other vector and frees nothing. An assignment across pool types is a
construction across them, a swap and a destruction.
-/

namespace KernelLib.VectorOwners

open PoolBlocks VectorItems VectorMethods VectorModel VectorSteps VectorCalls StepRuns

variable {V : Type} {w v r p : ℕ} {s t : State V} {a : Model V} {lost : List (Option ℕ)}
  {x y : Vec} {onto : V → Option V} {call : Call V} {calls : List (Call V)}

/-- The buffers of the live vectors are the blocks of the pool, and none is shared. -/
structure OneOwner (w : ℕ) (onto : V → Option V) (s : State V) : Prop where
  /-- A block is the `_data` of exactly one vector. -/
  owned : ∀ p, (s.heap.pool.block p).isSome → ∃! v, ∃ x, s.vec v = some x ∧ x.data = some p
  /-- A `_data` has not been freed. -/
  allocated : ∀ v x p, s.vec v = some x → x.data = some p → (s.heap.pool.block p).isSome
  /-- Each vector can be destroyed, and this frees its block. -/
  freed : ∀ v x, s.vec v = some x → ∃ t, next w onto s (.destroy v) = some t ∧
    ∀ p, x.data = some p → t.heap.pool.block p = none
  /-- Without vectors there are no blocks. -/
  none_left : (∀ v, s.vec v = none) → ∀ p, s.heap.pool.block p = none

/-- The state after a call has one owner for each block. -/
def Owns (w : ℕ) (onto : V → Option V) (s : State V) (call : Call V) : Prop :=
  ∀ t, next w onto s call = some t → OneOwner w onto t

/-- A move from a vector of another pool type that has a buffer, once the new one
is granted. -/
def Leaks (s : State V) : Call V → Prop
  | .moveAcross r true => ∃ y, s.vec r = some y ∧ y.data.isSome
  | _ => False

/-- A pointer among the owners is that of a vector, or was lost. -/
theorem exists_vec_of_mem (hp : some p ∈ buffers s.vectors ++ lost) (hl : some p ∉ lost) :
    ∃ v x, s.vec v = some x ∧ x.data = some p := by
  obtain ⟨o, ho, hd⟩ := List.mem_map.mp ((List.mem_append.mp hp).resolve_right hl)
  obtain ⟨v, hv⟩ := List.mem_iff_getElem?.mp ho
  obtain ⟨x, rfl, hx⟩ := Option.bind_eq_some_iff.mp hd
  exact ⟨v, x, by rw [State.vec, hv, Option.join_some], hx⟩

/-- Where no block was lost, each has its owner. -/
theorem oneOwner_of_sound (hw : 0 < w) (hs : Sound w s a lost) (hl : ∀ p, some p ∉ lost) :
    OneOwner w onto s := by
  have hmem : ∀ p, (s.heap.pool.block p).isSome → some p ∈ buffers s.vectors ++ lost := by
    intro p hp
    rw [← List.count_pos_iff, hs.owned.once, if_pos hp]
    exact Nat.one_pos
  refine ⟨fun p hp => ?_, fun v x p hx hd => ?_, fun v x hx => ?_, fun hnone p => ?_⟩
  · obtain ⟨v, x, hx, hd⟩ := exists_vec_of_mem (hmem p hp) (hl p)
    refine ⟨v, ⟨x, hx, hd⟩, ?_⟩
    rintro u ⟨y, hy, hd'⟩
    by_contra hne
    exact hs.data_ne hy hx hne p hd hd'
  · exact hs.owned.live (List.mem_of_getElem? ((getElem?_owners hx lost).trans (congrArg some hd)))
  · obtain ⟨m, -, hk⟩ := hs.exists_model hx
    obtain ⟨h', hd, hrep, -, -⟩ := destroy_spec hw hs.fresh hk
    refine ⟨⟨h', s.vectors.set v none⟩, ?_, fun p hp => ?_⟩
    · simp only [next, VectorItems.step, hx, hd, Option.bind_eq_bind, Option.bind_some]
      rfl
    · exact hrep.gone (by simp [hp]) p hp
  · by_contra hp
    rw [← ne_eq, Option.ne_none_iff_isSome] at hp
    obtain ⟨v, x, hx, -⟩ := exists_vec_of_mem (hmem p hp) (hl p)
    rw [hnone v] at hx
    cases hx

/-- A block that was lost has no owner. -/
theorem not_oneOwner_of_lost (hs : Sound w s a lost) (hp : some p ∈ lost) :
    ¬OneOwner w onto s := by
  intro h
  have hmem : some p ∈ buffers s.vectors ++ lost := List.mem_append_right _ hp
  obtain ⟨v, ⟨x, hx, hd⟩, -⟩ := h.owned p (hs.owned.live hmem)
  -- it would be both in a vector and among the lost ones
  obtain ⟨i, hi⟩ := List.mem_iff_getElem?.mp hp
  have hlast : (buffers s.vectors ++ lost)[(buffers s.vectors).length + i]? = some (some p) := by
    rw [List.getElem?_append_right (Nat.le_add_right _ _), Nat.add_sub_cancel_left, hi]
  have hfirst := (getElem?_owners hx lost).trans (congrArg some hd)
  have hlt : v < (buffers s.vectors).length := by simpa [buffers] using lt_of_vec hx
  have := hs.owned.unique hfirst hlast
  omega

/-- Only the move across pool types takes a buffer from its owner. -/
theorem leaks_of_mem_leaked (hp : some p ∈ leaked s call) : Leaks s call := by
  cases call with
  | moveAcross r ok =>
    cases ok with
    | false => simp [leaked] at hp
    | true =>
      rw [leaked, Option.mem_toList, Option.map_eq_some_iff] at hp
      obtain ⟨y, hy, hd⟩ := hp
      exact ⟨y, hy, Option.isSome_iff_exists.mpr ⟨p, hd⟩⟩
  | _ => simp [leaked] at hp

/-- A call that takes no buffer from its owner loses none. -/
theorem not_mem_lost (hl : ∀ p, some p ∉ lost) (hleaks : ¬Leaks s call) (p : ℕ) :
    some p ∉ leaked s call ++ lost := by
  intro hp
  rcases List.mem_append.mp hp with hp | hp
  · exact hleaks (leaks_of_mem_leaked hp)
  · exact hl p hp

/-- A call keeps one owner for each block unless it leaks one. -/
theorem owns_iff (hw : 0 < w) (hs : Sound w s a lost) (hl : ∀ p, some p ∉ lost)
    (hp : call.Proper s) : Owns w onto s call ↔ ¬Leaks s call := by
  constructor
  · intro howns hleaks
    obtain ⟨r, rfl, y, hy, hd⟩ : ∃ r, call = .moveAcross r true ∧
        ∃ y, s.vec r = some y ∧ y.data.isSome := by
      cases call with
      | moveAcross r ok =>
        cases ok with
        | false => exact hleaks.elim
        | true => exact ⟨r, rfl, hleaks⟩
      | _ => exact hleaks.elim
    obtain ⟨p, hd⟩ := Option.isSome_iff_exists.mp hd
    obtain ⟨m, -, hk⟩ := hs.exists_model hy
    obtain ⟨x', r', u, hmove, -⟩ := moveAcross_spec hw hs.fresh hk true
    have ht : next w onto s (.moveAcross r true) =
        some ⟨s.heap.withPool u, s.vectors.set r (some r') ++ [some x']⟩ := by
      simp only [next, hy, hmove, Option.bind_eq_bind, Option.bind_some, Option.pure_def]
    obtain ⟨b, hb⟩ := (hs.settles hw hp ht).owned
    have hmem : some p ∈ leaked s (.moveAcross r true) ++ lost := by simp [leaked, hy, hd]
    exact not_oneOwner_of_lost hb hmem (howns _ ht)
  · intro hleaks t ht
    obtain ⟨b, hb⟩ := (hs.settles hw hp ht).owned
    exact oneOwner_of_sound hw hb (not_mem_lost hl hleaks)

/-- In every run each block has exactly one owner in every state reached, so that
each is freed once, if and only if no buffer is moved to another pool type. -/
theorem owns_along_iff (hw : 0 < w) (hp : Along Call.Proper (next w onto) State.empty calls) :
    Along (Owns w onto) (next w onto) State.empty calls ↔
      Along (fun s call => ¬Leaks s call) (next w onto) State.empty calls := by
  refine along_iff_of_step (I := fun s => ∃ a lost, Sound w s a lost ∧ ∀ p, some p ∉ lost) ?_
    ⟨_, _, sound_empty, fun _ => List.not_mem_nil⟩ hp
  rintro s call ⟨a, lost, hs, hl⟩ hproper
  have hiff : Owns w onto s call ↔ ¬Leaks s call := owns_iff hw hs hl hproper
  refine ⟨hiff, fun howns t ht => ?_⟩
  obtain ⟨b, hb⟩ := (hs.settles hw hproper ht).owned
  exact ⟨b, _, hb, not_mem_lost hl (hiff.mp howns)⟩

/-- A vector is copied, its copy is taken over and exchanged, a move across pool
types is refused, and all are destroyed. -/
def copiedAndMoved : List (Call ℕ) :=
  [.construct 1 true, .method 0 (.pushBack (.value 7) true), .copyConstruct 0 true,
    .moveConstruct 1, .swap 0 2, .moveAcross 2 false, .destroy 0, .destroy 1, .destroy 2, .destroy 3]

theorem owns_along_iff_copiedAndMoved :
    (run (next 4 some) State.empty copiedAndMoved).isSome ∧
      Along (Owns 4 some) (next 4 some) State.empty copiedAndMoved := by
  refine ⟨rfl, (owns_along_iff (by decide) ?_).2 ?_⟩
  · simp [copiedAndMoved, Along, Call.Proper, Method.Proper, Ref.Proper]
  · simp [copiedAndMoved, Along, Leaks]

/-- The block of a vector that was moved to another pool type is nobody's. -/
theorem moveAcross_loses : ∃ s : State ℕ, Reached 4 some [.construct 1 true, .moveAcross 0 true] s ∧
    ¬OneOwner 4 some s := by
  refine ⟨_, ⟨by simp [Along, Call.Proper], rfl⟩, fun h => ?_⟩
  obtain ⟨v, ⟨x, hx, hd⟩, -⟩ := h.owned 0 rfl
  rcases v with _ | _ | v
  · obtain rfl := Option.some.inj hx
    cases hd
  · obtain rfl := Option.some.inj hx
    cases hd
  · cases hx

end KernelLib.VectorOwners
