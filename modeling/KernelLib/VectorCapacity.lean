import KernelLib.VectorCalls

/-!
# Capacities and the bytes behind them

A capacity times the element size is the memory of a vector as long as this
product and the growth rule are computed without wrapping. Which calls ask
for a buffer, and which compute the growth rule, is said from the state before.
-/

namespace KernelLib.VectorCapacity

open PoolBlocks VectorItems VectorMethods VectorModel VectorGaps VectorSteps VectorCalls Word32 StepRuns

variable {V : Type} {w : ℕ} {s t : State V} {a : Model V} {lost : List (Option ℕ)}
  {call : Call V} {onto : V → Option V} {calls : List (Call V)}

/-- The capacity is not larger than the memory that was requested. -/
def Covers (w : ℕ) (u : Pool (ℕ × V)) (x : Vec) : Prop :=
  match x.data with
  | none => x.capacity = 0
  | some p => ∃ b, u.block p = some b ∧ x.capacity * w ≤ b.bytes

/-- No vector has a capacity larger than its memory. -/
def Backed (w : ℕ) (s : State V) : Prop := ∀ v x, s.vec v = some x → Covers w s.heap.pool x

/-- The capacity that a call computes the growth rule for. -/
def grows (s : State V) : Call V → Option ℕ
  | .constructList xs _ => if xs = [] then none else some 0
  | .method v m => (s.vec v).bind fun x =>
    match m with
    | .pushBack _ _ => if x.size < x.capacity then none else some x.capacity
    | .insert pos _ _ => if x.size < pos ∨ x.size < x.capacity then none else some x.capacity
    | .insertRange _ xs _ => if xs = [] then none else some x.capacity
    | _ => none
  | _ => none

/-- The growth rule gives more than there was, and every vector is backed by its
memory when the call comes back. -/
def Sizes (w : ℕ) (onto : V → Option V) (s : State V) (call : Call V) : Prop :=
  (∀ c, grows s call = some c → c < growth c) ∧ ∀ t, next w onto s call = some t → Backed w t

/-- The next capacity and the bytes of a granted buffer can be counted in 32 bits. -/
def Counted (w : ℕ) (s : State V) (call : Call V) : Prop :=
  (∀ c, grows s call = some c → grown c < 2 ^ 32) ∧
    ∀ n, request s call = some (n, true) → n * w < 2 ^ 32

/-- The growth rule wraps exactly when its result does not fit. -/
theorem lt_growth_iff {c : ℕ} : c < growth c ↔ grown c < 2 ^ 32 := by
  refine ⟨fun h => ?_, fun h => growth_eq h ▸ lt_grown c⟩
  have hlt := growth_lt c
  unfold growth at h
  unfold grown
  split_ifs at h ⊢ with h₀ h₁
  · by_contra hge
    have hwrap : u32 (c + 1024) = c + 1024 - 2 ^ 32 := by
      have hc : c < 2 ^ 32 := h.trans (u32_lt _)
      unfold u32
      omega
    omega
  · omega
  · decide

/-- Wrapping leaves a number that is in bounds, and makes any other one smaller. -/
theorem u32_ge_iff {n : ℕ} : n ≤ u32 n ↔ n < 2 ^ 32 :=
  ⟨fun h => h.trans_lt (u32_lt n), fun h => (u32_of_lt h).ge⟩

/-- A buffer covers the capacity when its bytes did not wrap. -/
theorem covers_iff {u : Pool (ℕ × V)} {x : Vec} {m : Contents V} (hk : Kept w u x m) :
    Covers w u x ↔ x.capacity * w < 2 ^ 32 := by
  rw [hk.capacity]
  rcases hk.buffer with ⟨hd, hz⟩ | ⟨p, b, hd, hb, hbytes, -⟩
  · simp [Covers, hd, hk.capacity, hz]
  · simp only [Covers, hd, hb, Option.some.injEq, exists_eq_left', hbytes, hk.capacity]
    exact u32_ge_iff

/-- All vectors are backed when none of their sizes in bytes wraps. -/
theorem backed_iff (hs : Sound w s a lost) :
    Backed w s ↔ ∀ v x, s.vec v = some x → x.capacity * w < 2 ^ 32 := by
  refine forall_congr' fun v => forall_congr' fun x => imp_congr_right fun hx => ?_
  obtain ⟨m, -, hk⟩ := hs.exists_model hx
  exact covers_iff hk

/-- A call that came back left every vector backed when what was granted to it is counted. -/
theorem backed_next_iff (hw : 0 < w) (hs : Sound w s a lost) (hb : Backed w s)
    (hp : call.Proper s) (ht : next w onto s call = some t) :
    Backed w t ↔ ∀ n, request s call = some (n, true) → n * w < 2 ^ 32 := by
  have hr := hs.returns hw hp ht
  obtain ⟨b, lost', hs'⟩ := hr.sound
  rw [backed_iff hs']
  rw [backed_iff hs] at hb
  refine ⟨fun hall n hn => ?_, fun hreq u y hy => ?_⟩
  · obtain ⟨u, y, hy, rfl⟩ := hr.granted n hn
    exact hall u y hy
  · rcases hr.capacities u y hy with hz | ⟨u', y', hy', hcap⟩ | hnew
    · simp [hz]
    · exact hcap ▸ hb u' y' hy'
    · exact hreq _ hnew

/-- A call whose sizes do not wrap asks for what it needs. -/
theorem counted_sizes (hw : 0 < w) (hs : Sound w s a lost) (hb : Backed w s) (hp : call.Proper s)
    (hc : Counted w s call) : Sizes w onto s call :=
  ⟨fun c hg => lt_growth_iff.mpr (hc.1 c hg), fun _ ht => (backed_next_iff hw hs hb hp ht).mpr hc.2⟩

/-- It asks for that only then. -/
theorem sizes_iff_counted (hw : 0 < w) (hs : Sound w s a lost) (hb : Backed w s)
    (hp : call.Proper s) (ht : next w onto s call = some t) :
    Sizes w onto s call ↔ Counted w s call :=
  ⟨fun hz => ⟨fun c hg => lt_growth_iff.mp (hz.1 c hg),
    (backed_next_iff hw hs hb hp ht).mp (hz.2 t ht)⟩, counted_sizes hw hs hb hp⟩

/-- Before the first call. -/
theorem backed_empty : Backed w (State.empty : State V) := fun _ _ hx => by
  simp [State.vec, State.empty] at hx

/-- In a run whose buffers and capacities are counted in 32 bits the growth rule
always gives more, and no capacity is ever larger than the memory behind it. In a
run that was completed this is so in no other case. -/
theorem sizes_along_iff (hw : 0 < w) (hp : Along Call.Proper (next w onto) State.empty calls) :
    (Along (Counted w) (next w onto) State.empty calls →
      Along (Sizes w onto) (next w onto) State.empty calls) ∧
    ∀ s, run (next w onto) State.empty calls = some s →
      (Along (Sizes w onto) (next w onto) State.empty calls ↔
        Along (Counted w) (next w onto) State.empty calls) := by
  have hstep : ∀ (s t : State V) call, (∃ a lost, Sound w s a lost) ∧ Backed w s →
      call.Proper s → Sizes w onto s call → next w onto s call = some t →
      (∃ a lost, Sound w t a lost) ∧ Backed w t := by
    rintro s t call ⟨⟨a, lost, hs⟩, -⟩ hcall hsizes ht
    exact ⟨(hs.returns hw hcall ht).sound, hsizes.2 t ht⟩
  have hstart : (∃ a lost, Sound w (State.empty : State V) a lost) ∧
      Backed w (State.empty : State V) :=
    ⟨⟨_, _, sound_empty⟩, backed_empty⟩
  refine ⟨fun hc => ?_, fun s hrun => ?_⟩
  · refine along_of_invariant (I := fun s => (∃ a lost, Sound w s a lost) ∧ Backed w s) ?_ hstart
      (along_and.mpr ⟨hp, hc⟩)
    rintro s call hI ⟨hcall, hcounted⟩
    obtain ⟨a, lost, hs⟩ := hI.1
    have hsizes : Sizes w onto _ _ := counted_sizes hw hs hI.2 hcall hcounted
    exact ⟨hsizes, fun t ht => hstep s t call hI hcall hsizes ht⟩
  · refine along_iff_of_invariant (I := fun s => (∃ a lost, Sound w s a lost) ∧ Backed w s)
      (fun s call t hI hcall ht => ⟨?_, fun hsizes => ?_⟩) hstart hp hrun
    · obtain ⟨a, lost, hs⟩ := hI.1
      exact sizes_iff_counted hw hs hI.2 hcall ht
    · exact hstep s t call hI hcall hsizes ht

/-- A vector of one element that grows. -/
def growOnce : List (Call ℕ) :=
  [.construct 1 true, .method 0 (.pushBack (.value 7) true), .method 0 (.pushBack (.value 8) true),
    .method 0 (.reserve 5 true)]

/-- A vector that grows once, with sizes in bounds. -/
theorem sizes_along_iff_growOnce :
    Along (Sizes 4 some) (next 4 some) State.empty growOnce ↔
      Along (Counted 4) (next 4 some) State.empty growOnce := by
  obtain ⟨s, hs⟩ : ∃ s, run (next 4 some) State.empty growOnce = some s := ⟨_, rfl⟩
  exact (sizes_along_iff (by decide) (by simp [growOnce, Along, Call.Proper, Method.Proper,
    Ref.Proper])).2 s hs

/-- A vector for 2³⁰ + 1 elements of four bytes gets a block of four bytes. -/
theorem capacity_exceeds_block :
    ∃ s : State ℕ, Reached 4 some [.construct (2 ^ 30 + 1) true] s ∧ ¬Backed 4 s := by
  refine ⟨_, ⟨by simp [Along, Call.Proper], rfl⟩, fun hb => ?_⟩
  obtain ⟨b, hblock, hle⟩ := hb 0 ⟨some 0, 2 ^ 30 + 1, 0⟩ rfl
  obtain rfl := Option.some.inj hblock
  exact absurd hle (by decide)

end KernelLib.VectorCapacity
