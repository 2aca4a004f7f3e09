import KernelLib.VectorCalls

/-!
# Copy assignment of vectors

`operator=(const vector& r)` constructs a copy, swaps it in and destroys what
was there. A copy that gets no buffer is empty, and it is swapped in as well.
-/

namespace KernelLib.VectorAssign

open PoolBlocks VectorItems VectorMethods VectorModel VectorSteps VectorCalls Word32 StepRuns

variable {V : Type} {w v r : ℕ} {s : State V} {a : Model V} {lost : List (Option ℕ)} {x y : Vec}
  {onto : V → Option V} {calls : List (Call V)}

/-- After `v = r` the contents are those of `r`, or the old ones if the pool
refused. Another `r` is unchanged. What `v` does not hold any more was destroyed
once, and its buffer was freed. -/
structure AllOrNothing (w : ℕ) (ok : Bool) (v r : ℕ) (s t : State V) : Prop where
  contents : contents w t v = contents w s r ∨ ok = false ∧ contents w t v = contents w s v
  source : r ≠ v → t.vec r = s.vec r ∧ elements w t r = elements w s r
  elements : ∀ old new, elements w s v = some old → elements w t v = some new →
    ∀ e ∈ old, e ∉ new → t.heap.destroyed.count e.1 = 1
  buffer : ∀ x x' p, s.vec v = some x → t.vec v = some x' → x.data = some p →
    x'.data = some p ∨ (s.heap.pool.block p).isSome ∧ t.heap.pool.block p = none

/-- The assignment comes back, and it loses the contents of `v` when the copy of
something gets no buffer and there is something to lose. -/
theorem assign_iff (hw : 0 < w) (hs : Sound w s a lost) (hx : s.vec v = some x)
    (hy : s.vec r = some y) (ok : Bool) :
    ∃ t, next w onto s (.copyAssign v r ok) = some t ∧
      (AllOrNothing w ok v r s t ↔ ok = true ∨ y.size = 0 ∨ x.size = 0) := by
  obtain ⟨m, hm, hk⟩ := hs.exists_model hx
  obtain ⟨m', hm', hk'⟩ := hs.exists_model hy
  obtain ⟨x', h', hc, hacts⟩ := copyAssign_spec (a := a) hw hs.fresh hk hk' hs.constructed ok
  have ht : next w onto s (.copyAssign v r ok) = some ⟨h', s.vectors.set v (some x')⟩ := by
    simp only [next, VectorItems.step, hx, hy, Option.bind_eq_bind, Option.bind_some, hc,
      Option.map_some]
    rfl
  refine ⟨_, ht, ?_⟩
  have hput := hs.put hx hacts (hs.accounted.put hm fun i => by
    rw [ids_copyOf, List.count_reverse]
    omega)
  have hv := lt_of_vec hx
  have hx' : (⟨h', s.vectors.set v (some x')⟩ : State V).vec v = some x' := by
    rw [vec_set hv, if_pos rfl]
  have hnew := elements_eq hw hx' hacts.kept
  have hafter : contents w ⟨h', s.vectors.set v (some x')⟩ v =
      some (if ok then m'.values else []) := by
    rw [contents_eq hw hx' hacts.kept]
    cases ok with
    | false => rfl
    | true => exact congrArg some (map_snd_numbered _ _)
  have hsize : ∀ {z : Vec} {n : Contents V}, Kept w s.heap.pool z n → (z.size = 0 ↔ n.values = []) :=
    fun hkept => by simp [hkept.size, Contents.values]
  refine ⟨fun h => ?_, fun h => ⟨?_, fun hne => ?_, fun old new ho hn e he hgone => ?_,
    fun z z' p hz hz' hp => ?_⟩⟩
  · have hcontents := h.contents
    rw [hafter, hs.contents_eq hw hy hm', hs.contents_eq hw hx hm] at hcontents
    cases ok with
    | true => exact .inl rfl
    | false =>
      rcases hcontents with hr | ⟨-, hv⟩
      · exact .inr (.inl ((hsize hk').mpr (Option.some.inj hr).symm))
      · exact .inr (.inr ((hsize hk).mpr (Option.some.inj hv).symm))
  · rw [hafter, hs.contents_eq hw hy hm', hs.contents_eq hw hx hm]
    cases ok with
    | true => exact .inl rfl
    | false =>
      rcases h with h | hr | hv
      · simp at h
      · exact .inl (congrArg some ((hsize hk').mp hr).symm)
      · exact .inr ⟨rfl, congrArg some ((hsize hk).mp hv).symm⟩
  · have hr : (⟨h', s.vectors.set v (some x')⟩ : State V).vec r = s.vec r := by
      rw [vec_set hv, if_neg hne]
    obtain ⟨n, hn, hkn⟩ := hput.exists_model (hr.trans hy)
    rw [Model.vec, Model.put, join_set (hs.length ▸ hv), if_neg hne, ← Model.vec, hm'] at hn
    obtain rfl := Option.some.inj hn
    exact ⟨hr, (elements_eq hw (hr.trans hy) hkn).trans (hs.elements_eq hw hy hm').symm⟩
  · rw [hs.elements_eq hw hx hm] at ho
    obtain rfl := Option.some.inj ho
    refine List.count_eq_one_of_mem hput.destroyed_nodup ?_
    rw [hacts.destroyed]
    exact List.mem_append_right _ (List.mem_reverse.mpr (List.mem_map_of_mem he))
  · obtain rfl := Option.some.inj (hx.symm.trans hz)
    obtain rfl := Option.some.inj (hx'.symm.trans hz')
    by_cases hsame : x'.data = some p
    · exact .inl hsame
    · exact .inr ⟨hk.live p hp, hacts.replaces.gone (fun hd => hsame (hd.trans hp)) p hp⟩

/-- `v = r` in any state that calls reach: all or nothing unless the pool refuses,
`r` is not empty and `v` has something to lose. -/
theorem allOrNothing_iff (hw : 0 < w) (hr : Reached w onto calls s) (hx : s.vec v = some x)
    (hy : s.vec r = some y) (ok : Bool) :
    ∃ t, next w onto s (.copyAssign v r ok) = some t ∧
      (AllOrNothing w ok v r s t ↔ ok = true ∨ y.size = 0 ∨ x.size = 0) := by
  obtain ⟨a, lost, hs⟩ := hr.sound hw
  exact assign_iff hw hs hx hy ok

/-- Two vectors with one element each. -/
def onePlusOne : List (Call ℕ) :=
  [.construct 1 true, .method 0 (.pushBack (.value 7) true), .copyConstruct 0 true]

theorem onePlusOne_reached : ∃ s, Reached 4 some onePlusOne s ∧ s.vec 0 = some ⟨some 0, 1, 1⟩ ∧
    s.vec 1 = some ⟨some 1, 1, 1⟩ :=
  ⟨_, ⟨by simp [onePlusOne, Along, Call.Proper, Method.Proper, Ref.Proper], rfl⟩, rfl, rfl⟩

theorem allOrNothing_iff_onePlusOne : ∃ s t, Reached 4 some onePlusOne s ∧
    next 4 some s (.copyAssign 0 1 true) = some t ∧ AllOrNothing 4 true 0 1 s t := by
  obtain ⟨s, hs, h₀, h₁⟩ := onePlusOne_reached
  obtain ⟨t, ht, hiff⟩ := allOrNothing_iff (by decide) hs h₀ h₁ true
  exact ⟨s, t, hs, ht, hiff.mpr (.inl rfl)⟩

/-- The copy gets no buffer, and the seven is gone. -/
theorem refused_copy_empties : ∃ s t, Reached 4 some onePlusOne s ∧
    next 4 some s (.copyAssign 0 1 false) = some t ∧ ¬AllOrNothing 4 false 0 1 s t :=
  ⟨_, _, ⟨by simp [onePlusOne, Along, Call.Proper, Method.Proper, Ref.Proper], rfl⟩, rfl,
    fun h => absurd h.contents (by decide)⟩

end KernelLib.VectorAssign
