import KernelLib.VectorGaps

/-!
# What a range insertion reads

The elements of a range are constructed one after the other while they are read.
An iterator of the vector itself gives the slot that it counts to in the buffer
of that time: an old element in front of the position, one of the range that was
constructed already, what lies in the slots still to be constructed, or an old
element that was moved behind the range. A pointer into the vector gives the
same as long as the buffer is not replaced.
-/

namespace KernelLib.VectorRanges

open PoolBlocks VectorItems VectorMethods VectorModel VectorGaps Word32

variable {V : Type} {w n i k bytes : ℕ} {h h' : Heap V} {t t' : Pool (ℕ × V)} {d q : Option ℕ}
  {us vs : List (ℕ × V)}

/-- What a reference leads to while the range is constructed. -/
inductive Sight (V : Type) where
  /-- A value that stays as it is. -/
  | value (z : V)
  /-- A slot of the buffer. -/
  | slot (i : ℕ)
  /-- The buffer that was freed. -/
  | gone

/-- What is there with `us` in front of the free slots, `vs` behind them and `hole` in them. -/
def Sight.get (hole : ℕ → Option V) (us vs : List V) (n : ℕ) : Sight V → Option V
  | .value z => some z
  | .slot i =>
    if i < us.length then us[i]? else if i < us.length + n then hole i
    else vs[i - (us.length + n)]?
  | .gone => none

/-- The values that the loop meets. -/
def collect (hole : ℕ → Option V) (vs : List V) : List V → List (Sight V) → Option (List V)
  | _, [] => some []
  | us, y :: ys => do
    let z ← y.get hole us vs (ys.length + 1)
    let zs ← collect hole vs (us ++ [z]) ys
    return z :: zs

/-- Values are met as they are. -/
theorem collect_values (hole : ℕ → Option V) (front back xs : List V) :
    collect hole back front (xs.map .value) = some xs := by
  induction xs generalizing front with
  | nil => rfl
  | cons x xs ih => simp [collect, Sight.get, ih]

/-- What a reference is seen as: nothing of it changes while the buffer `d` is filled. -/
def Sees (w : ℕ) (t : Pool (ℕ × V)) (d : Option ℕ) (total : ℕ) : Arg V → Sight V → Prop
  | .outside z, .value z' => z = z'
  | .slot q i, .value z => q ≠ d ∧ ∃ e, t.read w q i = some (e, z)
  | .slot q i, .slot k => q = d ∧ i = k ∧ i < total
  | .slot q i, .gone => q ≠ d ∧ t.read w q i = none
  | .outside _, _ => False

/-- The free slots hold what `hole` says. -/
def Hole (w : ℕ) (t : Pool (ℕ × V)) (d : Option ℕ) (i n : ℕ) (hole : ℕ → Option V) (total : ℕ) :
    Prop := ∀ k, i ≤ k → k < i + n → k < total → (t.read w d k).map Prod.snd = hole k

theorem read_frame (hw : Writes t t' d) (hq : q ≠ d) (i : ℕ) : t'.read w q i = t.read w q i :=
  read_congr fun p hp => hw.frame p fun hd => hq (hp.trans hd.symm)

theorem Sees.mono {y : Arg V} {e : Sight V} {total : ℕ} (hs : Sees w t d total y e)
    (hw : Writes t t' d) : Sees w t' d total y e := by
  cases y with
  | outside z => cases e <;> exact hs
  | slot q i =>
    cases e with
    | value z => exact ⟨hs.1, by rw [read_frame hw hs.1]; exact hs.2⟩
    | slot k => exact hs
    | gone => exact ⟨hs.1, by rw [read_frame hw hs.1]; exact hs.2⟩

/-- A construction leaves the other slots alone. -/
theorem read_construct {y : Arg V} (hc : h.construct w d i y = some h') (hk : k ≠ i) :
    h'.pool.read w q k = h.pool.read w q k := by
  obtain ⟨z, p, b, -, -, hb, -, hpool⟩ := construct_some hc
  rw [hpool]
  cases q with
  | none => rfl
  | some q =>
    by_cases hq : q = p
    · subst hq
      simp [Pool.read, Pool.deref, hb, Block.put, Function.update_of_ne hk]
    · simp [Pool.read, Pool.deref, set_block_of_ne _ hq]

/-- What is seen is what is read. -/
theorem Sees.valueOf {y : Arg V} {e : Sight V} {hole : ℕ → Option V} {total : ℕ}
    (hs : Sees w h.pool d total y e) (ho : Gap w h.pool d bytes us vs n)
    (hh : Hole w h.pool d us.length n hole total) (htotal : total ≤ us.length + n + vs.length) :
    h.valueOf w y = e.get hole (us.map Prod.snd) (vs.map Prod.snd) n := by
  cases y with
  | outside z =>
    cases e with
    | value z' => exact congrArg some hs
    | slot | gone => exact hs.elim
  | slot q k =>
    cases e with
    | value z =>
      obtain ⟨-, e, he⟩ := hs
      simp [Heap.valueOf, he, Sight.get]
    | gone => simp [Heap.valueOf, hs.2, Sight.get]
    | slot k' =>
      obtain ⟨rfl, rfl, hk⟩ := hs
      rw [Sight.get, List.length_map]
      split
      · rename_i hlt
        rw [ho.reads.valueOf_slot hlt]
        simp [hlt]
      · rename_i hge
        split
        · rename_i hlt
          exact hh k (by omega) hlt hk
        · rename_i hge'
          have hread := ho.reads_rest (k - (us.length + n)) (by omega)
          rw [show us.length + n + (k - (us.length + n)) = k by omega] at hread
          rw [Heap.valueOf, hread]
          have hlt : k - (us.length + n) < vs.length := by omega
          simp [hlt]

/-- The loop over a range constructs what it meets, or reads what is not there. -/
theorem constructItems_collect {ys : List (Item V)} {seen : List (Sight V)}
    {hole : ℕ → Option V} {total : ℕ}
    (hseen : List.Forall₂ (fun y e => Sees w h.pool d total (y.read d) e) ys seen)
    (ho : Gap w h.pool d bytes us vs ys.length)
    (hh : Hole w h.pool d us.length ys.length hole total)
    (htotal : total ≤ us.length + ys.length + vs.length) :
    match collect hole (vs.map Prod.snd) (us.map Prod.snd) seen with
    | some zs => zs.length = ys.length ∧ ∃ t, constructItems w d us.length ys h =
        some ⟨t, h.constructed + ys.length, h.destroyed⟩ ∧
        Gap w t d bytes (us ++ numbered h.constructed zs) vs 0 ∧ Writes h.pool t d
    | none => constructItems w d us.length ys h = none := by
  induction ys generalizing h us seen with
  | nil =>
    cases hseen
    exact ⟨rfl, h.pool, rfl, by simpa using ho, .refl _ _⟩
  | cons y ys ih =>
    cases hseen with | @cons _ e _ seen hye hrest =>
    rw [List.length_cons] at ho hh htotal
    obtain ⟨f, hcons, hgap⟩ := ho.construct (y.read d)
    have hvalue := hye.valueOf ho hh htotal
    have hlen := hrest.length_eq
    rw [collect, ← hlen, ← hvalue]
    cases hz : h.valueOf w (y.read d) with
    | none =>
      rw [hz] at hcons
      simp [constructItems, hcons]
    | some z =>
      rw [hz, Option.map_some] at hcons
      obtain ⟨ho₁, hw₁⟩ := hgap z
      have hh₁ : Hole w (f z) d (us ++ [(h.constructed, z)]).length ys.length hole total := by
        intro k hk hlt hkt
        rw [List.length_append, List.length_singleton] at hk hlt
        have hread := read_construct (q := d) hcons (k := k) (by omega)
        dsimp only at hread
        rw [hread]
        exact hh k (by omega) (by omega) hkt
      have hrec := ih (h := ⟨f z, h.constructed + 1, h.destroyed⟩)
        (hrest.imp fun _ _ hs => hs.mono hw₁) ho₁ hh₁
        (by simp only [List.length_append, List.length_singleton]; omega)
      rw [List.map_append, List.map_singleton, List.length_append, List.length_singleton] at hrec
      simp only [Option.bind_eq_bind, Option.bind_some]
      cases hc : collect hole (vs.map Prod.snd) (us.map Prod.snd ++ [z]) seen with
      | none =>
        rw [hc] at hrec
        simp only [Option.bind_none, constructItems, hcons, Option.bind_eq_bind, Option.bind_some]
        exact hrec
      | some zs =>
        rw [hc] at hrec
        obtain ⟨hzs, t, ht, ho₂, hw₂⟩ := hrec
        refine ⟨by simp [hzs], t, ?_, ?_, hw₁.trans hw₂⟩
        · simp only [constructItems, hcons, Option.bind_eq_bind, Option.bind_some, ht, List.length_cons]
          congr 2
          omega
        · rw [numbered_cons]
          simpa using ho₂

/-- What the loop meets, element by element. -/
theorem collect_eq_some {hole : ℕ → Option V} {front back : List V} {seen : List (Sight V)}
    {zs : List V} :
    collect hole back front seen = some zs ↔ zs.length = seen.length ∧
      ∀ (j : ℕ) (e : Sight V), seen[j]? = some e →
        e.get hole (front ++ zs.take j) back (seen.length - j) = zs[j]? := by
  induction seen generalizing front zs with
  | nil => cases zs <;> simp [collect]
  | cons e seen ih =>
    cases zs with
    | nil => simp [collect, Option.bind_eq_some_iff]
    | cons z zs =>
      have hrest : ∀ j, front ++ [z] ++ zs.take j = front ++ (z :: zs).take (j + 1) := by simp
      simp only [collect, Option.bind_eq_bind, Option.bind_eq_some_iff, Option.pure_def,
        Option.some.injEq, List.cons.injEq]
      constructor
      · rintro ⟨z', hz, zs', hzs, rfl, rfl⟩
        obtain ⟨hlen, hget⟩ := ih.mp hzs
        refine ⟨by simp [hlen], fun j e' he => ?_⟩
        cases j with
        | zero =>
          obtain rfl : e = e' := by simpa using he
          simpa using hz
        | succ j =>
          have hj := hget j e' (by simpa using he)
          rw [hrest] at hj
          simpa [Nat.add_sub_add_right] using hj
      · rintro ⟨hlen, hget⟩
        have hz := hget 0 e rfl
        refine ⟨z, by simpa using hz, zs, ih.mpr ⟨by simpa using hlen, fun j e' he => ?_⟩, rfl, rfl⟩
        have hj := hget (j + 1) e' (by simpa using he)
        rw [hrest]
        simpa [Nat.add_sub_add_right] using hj

end KernelLib.VectorRanges
