import KernelLib.VectorSteps
import KernelLib.StepRuns

/-!
# Runs of calls on vectors

What holds of all vectors whenever calls have returned. Each live vector keeps
a list in a buffer of the bytes that were asked for, wrapped or not; buffers
are owned once; every element that was constructed is in one list or was
destroyed. The move from another pool type leaves a buffer without an owner.

A call that comes back keeps this, whatever its argument was. No capacity is
assumed to be countable in bytes here.
-/

namespace KernelLib.VectorCalls

open PoolBlocks VectorItems VectorMethods VectorModel VectorGaps VectorSteps Word32 StepRuns

variable {V : Type} {w v r : ℕ} {h' : Heap V} {s s' : State V} {a : Model V} {x x' y : Vec}
  {m m' : Contents V} {made : ℕ} {ended : List ℕ} {lost : List (Option ℕ)} {onto : V → Option V}

section Soundness

/-- A vector keeps what its model holds; a destroyed one has no model. -/
def Agrees (w : ℕ) (t : Pool (ℕ × V)) : Option Vec → Option (Contents V) → Prop
  | some x, some m => Kept w t x m
  | none, none => True
  | _, _ => False

/-- All vectors keep their models. The blocks of the pool are their buffers and
those that no vector has any more. -/
structure Sound (w : ℕ) (s : State V) (a : Model V) (lost : List (Option ℕ)) : Prop where
  length : s.vectors.length = a.vectors.length
  kept : ∀ i, Agrees w s.heap.pool (s.vec i) (a.vec i)
  owned : Owned s.heap.pool (buffers s.vectors ++ lost)
  constructed : s.heap.constructed = a.constructed
  destroyed : s.heap.destroyed = a.destroyed
  accounted : Accounted a

/-- Blocks that are still to come are not allocated. -/
theorem Sound.fresh (hs : Sound w s a lost) : s.heap.pool.Fresh := hs.owned.fresh

/-- Before the first call. -/
theorem sound_empty : Sound w (State.empty : State V) Model.empty [] :=
  ⟨rfl, fun _ => trivial, owned_empty, rfl, rfl, accounted_empty⟩

/-- A vector of the state is kept by one of the model. -/
theorem Sound.exists_model (hs : Sound w s a lost) (hx : s.vec v = some x) :
    ∃ m, a.vec v = some m ∧ Kept w s.heap.pool x m := by
  have hk := hs.kept v
  rw [hx] at hk
  cases hm : a.vec v with
  | none => simp [hm, Agrees] at hk
  | some m => exact ⟨m, rfl, by simpa [hm, Agrees] using hk⟩

/-- It is kept by the one at its place. -/
theorem Sound.kept_of_vec (hs : Sound w s a lost) (hx : s.vec v = some x) (hm : a.vec v = some m) :
    Kept w s.heap.pool x m := by
  have hk := hs.kept v
  rwa [hx, hm] at hk

/-- A vector agrees with its model as long as its block does not change. -/
theorem Agrees.congr {t t' : Pool (ℕ × V)} {o : Option Vec} {om : Option (Contents V)}
    (ha : Agrees w t o om) (hb : ∀ p, o.bind Vec.data = some p → t'.block p = t.block p) :
    Agrees w t' o om := by
  cases o with
  | none => cases om <;> exact ha
  | some x =>
    cases om with
    | none => exact ha
    | some m => exact Kept.congr ha hb

/-- The buffer of a live vector among the owners. -/
theorem getElem?_owners (hx : s.vec v = some x) (lost : List (Option ℕ)) :
    (buffers s.vectors ++ lost)[v]? = some x.data := by
  rw [List.getElem?_append_left (by simpa [buffers] using lt_of_vec hx), getElem?_buffers hx]

/-- The buffer of a vector is at its place among the owners. -/
theorem owners_of_join {p i : ℕ} (hi : (s.vec i).bind Vec.data = some p) (lost : List (Option ℕ)) :
    (buffers s.vectors ++ lost)[i]? = some (some p) := by
  obtain ⟨x, hx, hp⟩ := Option.bind_eq_some_iff.mp hi
  rw [getElem?_owners hx, hp]

/-- Different vectors have different buffers. -/
theorem Sound.data_ne (hs : Sound w s a lost) (hx : s.vec v = some x) (hy : s.vec r = some y)
    (hne : v ≠ r) : ∀ p, y.data = some p → x.data ≠ some p := fun p hp hp' =>
  hne (hs.owned.unique (by rw [getElem?_owners hx, hp']) (by rw [getElem?_owners hy, hp]))

/-- One entry changes together with its block. -/
theorem Sound.set (hs : Sound w s a lost) (o : Option Vec) (om : Option (Contents V))
    (hx : s.vec v = some x) (hrep : Replaces s.heap.pool h'.pool x.data (o.bind Vec.data))
    (hk : Agrees w h'.pool o om)
    (hacc : Accounted ⟨a.vectors.set v om, h'.constructed, h'.destroyed⟩) :
    Sound w ⟨h', s.vectors.set v o⟩ ⟨a.vectors.set v om, h'.constructed, h'.destroyed⟩ lost := by
  have hv := lt_of_vec hx
  refine ⟨by simp [hs.length], fun i => ?_, ?_, rfl, rfl, hacc⟩
  · rw [State.vec, Model.vec, join_set hv, join_set (hs.length ▸ hv)]
    split
    · exact hk
    · rename_i hne
      exact (hs.kept i).congr fun p hp =>
        hs.owned.frame (getElem?_owners hx lost) hrep (owners_of_join hp lost) hne
  · have hb : buffers (s.vectors.set v o) ++ lost =
        (buffers s.vectors ++ lost).set v (o.bind Vec.data) := by
      rw [List.set_append_left _ _ (by simpa [buffers] using hv)]
      exact congrArg (· ++ lost) List.map_set
    rw [hb]
    exact hs.owned.set (getElem?_owners hx lost) hrep

/-- A method changes one vector. -/
theorem Sound.put (hs : Sound w s a lost) (hx : s.vec v = some x)
    (hacts : Acts w s.heap h' x x' m' made ended) (hacc : Accounted (a.put v m' made ended)) :
    Sound w ⟨h', s.vectors.set v (some x')⟩ (a.put v m' made ended) lost := by
  have hset := hs.set (some x') (some m') hx hacts.replaces hacts.kept
  rw [hacts.constructed, hacts.destroyed, hs.constructed, hs.destroyed] at hset
  exact hset hacc

/-- A new vector. -/
theorem Sound.add (hs : Sound w s a lost) (hacts : Acts w s.heap h' ⟨none, 0, 0⟩ x' m' made [])
    (hids : m'.ids = List.range' a.constructed made) :
    Sound w ⟨h', s.vectors ++ [some x']⟩ (a.add m' made) lost := by
  have hrep : Replaces s.heap.pool h'.pool none x'.data := hacts.replaces
  refine ⟨by simp [Model.add, hs.length], fun i => ?_, ?_, ?_, ?_, hs.accounted.add hids⟩
  · rw [State.vec, Model.vec, Model.add, join_append, join_append, hs.length]
    split
    · exact hacts.kept
    · exact (hs.kept i).congr fun p hp => hs.owned.frame_new hrep (owners_of_join hp lost)
  · refine hs.owned.replace hrep (fun _ hp => by simp at hp) fun p => ?_
    simp only [buffers, List.map_append, List.count_append, List.map_cons, List.map_nil,
      Option.bind_some, List.count_singleton, beq_iff_eq, reduceCtorEq, if_false]
    omega
  · rw [hacts.constructed, hs.constructed, Model.add]
  · rw [hacts.destroyed, hs.destroyed, List.append_nil, Model.add]

/-- Vectors change places and nothing else. -/
theorem Sound.move {xs : List (Option Vec)} {ms : List (Option (Contents V))}
    (hs : Sound w s a lost) (hlen : xs.length = ms.length)
    (hk : ∀ i : ℕ, Agrees w s.heap.pool (xs[i]?).join (ms[i]?).join)
    (hb : ∀ p, (buffers xs).count (some p) = (buffers s.vectors).count (some p))
    (hp : ∀ i, (ms.flatMap Contents.idsOf).count i = a.present.count i) :
    Sound w ⟨s.heap, xs⟩ { a with vectors := ms } lost :=
  ⟨hlen, hk, hs.owned.congr fun p => by rw [List.count_append, List.count_append, hb],
    hs.constructed, hs.destroyed, hs.accounted.move hp⟩

end Soundness

section Steps

variable {res : Answer V} {call : Call V} {m₀ : Contents V}

/-- A vector taken over under a new number. -/
theorem Sound.moveConstruct (hs : Sound w s a lost) (hx : s.vec r = some x)
    (hm : a.vec r = some m) :
    Sound w ⟨s.heap, (s.vectors ++ [some x]).set r (some ⟨none, 0, 0⟩)⟩
      { a with vectors := (a.vectors ++ [some m]).set r (some Contents.empty) } lost := by
  have hlt := lt_of_vec hx
  refine hs.move (by simp [hs.length]) (fun i => ?_) (count_buffers_taken hx) fun i => ?_
  · rw [join_taken hlt, join_taken (hs.length ▸ hlt), hs.length]
    split
    · exact kept_empty
    · split
      · exact hs.kept_of_vec hx hm
      · exact hs.kept i
  · rw [List.set_append_left _ _ (hs.length ▸ hlt)]
    exact count_present_taken hm i

/-- Two vectors exchange their buffers. -/
theorem Sound.swap (hs : Sound w s a lost) (hx : s.vec v = some x) (hy : s.vec r = some y)
    (hm : a.vec v = some m) (hm' : a.vec r = some m') (hne : v ≠ r) :
    Sound w ⟨s.heap, (s.vectors.set v (some y)).set r (some x)⟩
      { a with vectors := (a.vectors.set v (some m')).set r (some m) } lost := by
  have hv := lt_of_vec hx
  have hr := lt_of_vec hy
  refine hs.move (by simp [hs.length]) (fun i => ?_) (count_buffers_swapped hx hy hne)
    (count_present_swapped hm hm' hne)
  rw [join_set_set hv hr, join_set_set (hs.length ▸ hv) (hs.length ▸ hr)]
  split
  · exact hs.kept_of_vec hx hm
  · split
    · exact hs.kept_of_vec hy hm'
    · exact hs.kept i

/-- The buffer of a vector of another pool type was copied and is lost. -/
theorem Sound.moveAcross {t : Pool (ℕ × V)} (hs : Sound w s a lost)
    (hx : s.vec r = some x) (hm : a.vec r = some m)
    (hrep : Replaces s.heap.pool t none x'.data) (hk : Kept w t x' m) :
    Sound w ⟨s.heap.withPool t, s.vectors.set r (some ⟨none, 0, 0⟩) ++ [some x']⟩
      { a with vectors := a.vectors.set r (some Contents.empty) ++ [some m] } (x.data :: lost) := by
  have hlt := lt_of_vec hx
  refine ⟨by simp [hs.length], fun i => ?_, ?_, hs.constructed, hs.destroyed,
    hs.accounted.move (count_present_taken hm)⟩
  · rw [State.vec, Model.vec, join_append, join_append, join_set hlt, join_set (hs.length ▸ hlt),
      List.length_set, List.length_set, hs.length]
    split
    · exact hk
    · split
      · exact kept_empty
      · exact (hs.kept i).congr fun p hp => hs.owned.frame_new hrep (owners_of_join hp lost)
  · refine hs.owned.replace hrep (fun _ hp => by simp at hp) fun p => ?_
    have hset := count_set (getElem?_buffers hx) none p
    have hb : buffers (s.vectors.set r (some ⟨none, 0, 0⟩) ++ [some x']) =
        (buffers s.vectors).set r none ++ [x'.data] := by
      simp [buffers, List.map_set]
    rw [hb]
    simp only [List.count_append, List.count_cons, List.count_nil, beq_iff_eq, reduceCtorEq,
      if_false] at hset ⊢
    omega

/-- The buffer that a method asks for: for how many elements, and whether the
pool grants it. -/
def asks (s : State V) (x : Vec) : Method V → Option (ℕ × Bool)
  | .pushBack _ ok => if x.size < x.capacity then none else some (growth x.capacity, ok)
  | .insert pos _ ok =>
    if x.size < pos ∨ x.size < x.capacity then none else some (growth x.capacity, ok)
  | .insertRange _ xs ok =>
    if xs = [] ∨ rangeCount x xs.length ≤ x.capacity then none
    else some (rangeCount x xs.length, ok)
  | .append r ok => (s.vec r).bind fun y =>
    if appendCount x y ≤ x.capacity then none else some (appendCount x y, ok)
  | .reserve n ok => if n ≤ x.capacity then none else some (n, ok)
  | _ => none

/-- The capacity after a request. -/
def granted (c : ℕ) : Option (ℕ × Bool) → ℕ
  | some (n, true) => n
  | _ => c

/-- What a method did: it changed its vector alone, and its elements are accounted for. -/
structure Outcome (w : ℕ) (s : State V) (a : Model V) (v : ℕ) (x : Vec) (c : ℕ) (t : State V) :
    Prop where
  acts : ∃ x' h' m' made ended, t = ⟨h', s.vectors.set v (some x')⟩ ∧
    Acts w s.heap h' x x' m' made ended ∧ Accounted (a.put v m' made ended) ∧ m'.capacity = c

/-- A call that does nothing has an outcome. -/
theorem outcome_refl (hs : Sound w s a lost) (hx : s.vec v = some x) (hm : a.vec v = some m) :
    Outcome w s a v x m.capacity s :=
  ⟨x, s.heap, m, 0, [], (state_put_self hx).symm, acts_refl hs.fresh (hs.kept_of_vec hx hm),
    by rw [put_self hm]; exact hs.accounted, rfl⟩

/-- After an outcome the state is sound. -/
theorem Outcome.sound {c : ℕ} (hs : Sound w s a lost) (hx : s.vec v = some x)
    (ho : Outcome w s a v x c s') : ∃ b, Sound w s' b lost := by
  obtain ⟨x', h', m', made, ended, rfl, hacts, hacc, -⟩ := ho.acts
  exact ⟨_, hs.put hx hacts hacc⟩

/-- An insertion has an outcome. -/
theorem outcome_inserted {pos c : ℕ} {xs : List V} (hs : Sound w s a lost) (hm : a.vec v = some m)
    {flag : Bool}
    (hacts : Acts w s.heap h' x x' (inserted m pos c s.heap.constructed xs) xs.length []) :
    Outcome w s a v x c (answer s v (flag, x', h')).1 := by
  refine ⟨x', h', _, _, _, rfl, hacts, ?_, rfl⟩
  rw [hs.constructed]
  have hacc : Accounted (a.insertAt v pos xs m (some c)) := hs.accounted.insertAt hm
  exact hacc

/-- So has a call that inserts or is refused. -/
theorem outcome_of_inserted {ok : Bool} {pos : ℕ} {y : Arg V} {r : Bool × Vec × Heap V}
    (hs : Sound w s a lost) (hx : s.vec v = some x) (hm : a.vec v = some m)
    (hi : Inserted w ok s.heap x m pos y r) :
    Outcome w s a v x
      (granted m.capacity (if x.size < x.capacity then none else some (growth x.capacity, ok)))
      (answer s v r).1 := by
  have hcap := (hs.kept_of_vec hx hm).capacity
  cases hi with
  | refused hroom hok =>
    rw [if_neg hroom, hok]
    have hself : (answer s v (false, x, s.heap)).1 = s := state_put_self hx
    rw [hself]
    exact outcome_refl hs hx hm
  | inPlace z x' h' hroom hfits hacts =>
    rw [if_pos hroom]
    exact outcome_inserted hs hm hacts
  | grown z x' h' hroom hok hfits hapart hacts =>
    rw [if_neg hroom, hok, hcap]
    exact outcome_inserted hs hm hacts

/-- A capacity is the larger of the old one and what was granted. -/
theorem granted_max {c n : ℕ} {ok : Bool} (hok : c < n → ok = true) :
    granted c (if n ≤ c then none else some (n, ok)) = max c n := by
  split
  · rename_i hle
    exact (max_eq_left hle).symm
  · rename_i hgt
    rw [hok (by omega), max_eq_right (by omega)]
    rfl

/-- A buffer that is refused leaves the capacity. -/
theorem granted_refused {c n : ℕ} (hlt : c < n) :
    granted c (if n ≤ c then none else some (n, false)) = c := by
  rw [if_neg (by omega)]
  rfl

/-- What a partial function gives for each element of a list. -/
theorem mapM_eq_some {α β : Type} {f : α → Option β} {ys : List α} {xs : List β} :
    ys.mapM f = some xs ↔ List.Forall₂ (fun y x => f y = some x) ys xs := by
  induction ys generalizing xs with
  | nil => cases xs <;> simp
  | cons y ys ih =>
    cases xs with
    | nil => simp [Option.bind_eq_some_iff]
    | cons x xs =>
      rw [List.forall₂_cons, ← ih]
      simp [Option.bind_eq_some_iff]

/-- There are as many results as there were arguments. -/
theorem mapM_length {α β : Type} {f : α → Option β} {ys : List α} {xs : List β}
    (h : ys.mapM f = some xs) : xs.length = ys.length := (mapM_eq_some.mp h).length_eq.symm

/-- What `append` of a vector does with the vector itself or with another one. -/
theorem append_source (v r : ℕ) (y : Vec) :
    (fun x => if r = v then x else y) = if r = v then (fun x => x) else fun _ => y := by
  by_cases hrv : r = v
  · simp [hrv]
  · simp [hrv]

/-- A method that came back changed its vector alone, by elements that are
accounted for, and left it with the capacity that it had or was granted. -/
theorem Sound.performed {meth : Method V} {res : Answer V} (hw : 0 < w) (hs : Sound w s a lost)
    (hx : s.vec v = some x) (hm : a.vec v = some m) (hp : meth.Proper s)
    (hres : perform w onto s v meth = some res) :
    Outcome w s a v x (granted m.capacity (asks s x meth)) res.1 := by
  have hk := hs.kept_of_vec hx hm
  have hf := hs.fresh
  have hself : ∀ flag, (answer s v (flag, x, s.heap)).1 = s := fun _ => state_put_self hx
  simp only [perform, hx, Option.bind_eq_bind, Option.bind_some] at hres
  cases meth with
  | pushBack y ok =>
    obtain ⟨z, -, hres⟩ := Option.bind_eq_some_iff.mp hres
    obtain ⟨r, hr, rfl⟩ := Option.map_eq_some_iff.mp hres
    exact outcome_of_inserted hs hx hm (pushBack_some hw hf hk hr)
  | popBack =>
    obtain ⟨r, hr, rfl⟩ := Option.map_eq_some_iff.mp hres
    obtain ⟨x', h', hpop, hacts⟩ := popBack_spec hw hf hk
    obtain rfl := Option.some.inj (hpop.symm.trans hr)
    exact ⟨x', h', _, _, _, rfl, hacts, hs.accounted.eraseAt hm, rfl⟩
  | atPos pos =>
    obtain ⟨r, -, rfl⟩ := Option.map_eq_some_iff.mp hres
    exact outcome_refl hs hx hm
  | insert pos y ok =>
    obtain ⟨z, -, hres⟩ := Option.bind_eq_some_iff.mp hres
    obtain ⟨r, hr, rfl⟩ := Option.map_eq_some_iff.mp hres
    rw [asks]
    by_cases hpos : x.size < pos
    · rw [if_pos (.inl hpos)]
      rw [insertArg_behind hpos] at hr
      obtain rfl := Option.some.inj hr
      rw [hself]
      exact outcome_refl hs hx hm
    · have hi := insertArg_some hw hf hk (by rw [← hk.size]; omega) hr
      simpa [hpos] using outcome_of_inserted hs hx hm hi
  | insertRange pos ys ok =>
    obtain ⟨xs, hxs, hres⟩ := Option.bind_eq_some_iff.mp hres
    obtain ⟨r, hr, rfl⟩ := Option.map_eq_some_iff.mp hres
    have hlen := mapM_length hxs
    have hnil : xs ≠ [] → ys ≠ [] := fun hne hy => hne (by simpa [hy] using hlen)
    have hi := insertItems_some hw hf hk hr
    rw [asks, ← hlen, hk.capacity]
    cases hi with
    | nothing hnil =>
      rw [hnil] at hlen
      rw [if_pos (.inl (List.length_eq_zero_iff.mp hlen.symm)), hself]
      exact outcome_refl hs hx hm
    | refused hne hlt hok =>
      rw [hself, hok, if_neg (by simp [hnil hne, hlt])]
      exact outcome_refl hs hx hm
    | done zs x' h' hne hpos hok hfits hlen' hacts =>
      simp only [hnil hne, false_or, granted_max hok]
      rw [← hlen'] at hacts ⊢
      exact outcome_inserted hs hm hacts
  | append r ok =>
    obtain ⟨y, hy, hres⟩ := Option.bind_eq_some_iff.mp hres
    obtain ⟨q, hq, rfl⟩ := Option.map_eq_some_iff.mp hres
    rw [append_source] at hq
    rw [asks, hy, Option.bind_some, hk.capacity]
    by_cases hrv : r = v
    · rw [if_pos hrv] at hq
      obtain rfl : x = y := Option.some.inj (hx.symm.trans (hrv ▸ hy))
      rcases appendSelf_some hw hf hk hq with ⟨hlt, hok, rfl⟩ | ⟨hnil, rfl⟩
      · rw [hself, hok, granted_refused hlt]
        exact outcome_refl hs hx hm
      · have hz : appendCount x x ≤ m.capacity := by
          simp [appendCount, hk.size, hnil, u32]
        rw [hself, if_pos hz]
        exact outcome_refl hs hx hm
    · rw [if_neg hrv] at hq
      obtain ⟨m', hm', hr⟩ := hs.exists_model hy
      have hap := append_some hw hf hk hr (hs.data_ne hx hy (Ne.symm hrv)) hq
      cases hap with
      | refused hlt hok =>
        rw [hself, hok, granted_refused hlt]
        exact outcome_refl hs hx hm
      | done x' h' hok hfits hacts =>
        rw [granted_max hok]
        have hlen : m'.values.length = m'.elems.length := List.length_map _
        rw [← hlen] at hacts
        exact outcome_inserted hs hm hacts
  | erase pos =>
    obtain ⟨r, hr, rfl⟩ := Option.map_eq_some_iff.mp hres
    obtain ⟨x', h', herase, hacts⟩ := erase_spec hw hf hk pos
    obtain rfl := Option.some.inj (herase.symm.trans hr)
    exact ⟨x', h', _, _, _, rfl, hacts, hs.accounted.eraseAt hm, rfl⟩
  | reserve n ok =>
    obtain ⟨r, hr, rfl⟩ := Option.map_eq_some_iff.mp hres
    rw [asks, hk.capacity]
    rcases reserve_some hk hr with ⟨hlt, hok, rfl⟩ | ⟨hok, hfits⟩
    · rw [hself, hok, granted_refused hlt]
      exact outcome_refl hs hx hm
    · obtain ⟨x', h', hr', hacts⟩ := reserve_spec hw hf hk hp hok hfits
      obtain rfl := Option.some.inj (hr'.symm.trans hr)
      rw [granted_max hok]
      exact ⟨x', h', _, _, _, rfl, hacts, hs.accounted.put hm fun i => rfl, rfl⟩

/-- The buffer that a call asks for. -/
def request (s : State V) : Call V → Option (ℕ × Bool)
  | .construct n ok => some (n, ok)
  | .constructList xs ok => if xs = [] then none else some (rangeCount ⟨none, 0, 0⟩ xs.length, ok)
  | .copyConstruct r ok | .moveAcross r ok => (s.vec r).map fun y => (y.capacity, ok)
  | .copyAssign v r ok => if (s.vec v).isSome then (s.vec r).map fun y => (y.capacity, ok) else none
  | .method v m => (s.vec v).bind fun x => asks s x m
  | _ => none

/-- What a call that came back left: everything is still kept, and a capacity is
zero, one there was before, or the one that was granted. -/
structure Returns (w : ℕ) (s : State V) (call : Call V) (t : State V) : Prop where
  sound : ∃ b lost, Sound w t b lost
  capacities : ∀ u y, t.vec u = some y → y.capacity = 0 ∨
    (∃ u' y', s.vec u' = some y' ∧ y'.capacity = y.capacity) ∨ request s call = some (y.capacity, true)
  granted : ∀ n, request s call = some (n, true) → ∃ u y, t.vec u = some y ∧ y.capacity = n

/-- The buffer to which a call leaves no pointer: a move from another pool type
copies it and clears the pointer. -/
def leaked (s : State V) : Call V → List (Option ℕ)
  | .moveAcross r true => ((s.vec r).map Vec.data).toList
  | _ => []

/-- What a call left, with the blocks that have no owner: those there were and
the one it leaked. -/
structure Settles (w : ℕ) (s : State V) (call : Call V) (t : State V) (lost : List (Option ℕ)) :
    Prop extends Returns w s call t where
  owned : ∃ b, Sound w t b (leaked s call ++ lost)

/-- The vectors after one of them is set. -/
theorem vec_set (hv : v < s.vectors.length) (o : Option Vec) (h' : Heap V) (u : ℕ) :
    (⟨h', s.vectors.set v o⟩ : State V).vec u = if u = v then o else s.vec u :=
  join_set hv o u

/-- The vectors after one is added. -/
theorem vec_add (h' : Heap V) (u : ℕ) :
    (⟨h', s.vectors ++ [some x']⟩ : State V).vec u =
      if u = s.vectors.length then some x' else s.vec u := join_append _ _ u

/-- One vector changed. -/
theorem settles_put {call : Call V} (hx : s.vec v = some x)
    (hs : ∃ b, Sound w ⟨h', s.vectors.set v (some x')⟩ b lost) (hl : leaked s call = [])
    (hc : x'.capacity = 0 ∨ x'.capacity = x.capacity ∨
      request s call = some (x'.capacity, true))
    (hg : ∀ n, request s call = some (n, true) → x'.capacity = n) :
    Settles w s call ⟨h', s.vectors.set v (some x')⟩ lost := by
  have hv := lt_of_vec hx
  obtain ⟨b, hb⟩ := hs
  refine ⟨⟨⟨b, lost, hb⟩, fun u y hy => ?_,
    fun n hn => ⟨v, x', by rw [vec_set hv, if_pos rfl], hg n hn⟩⟩, b, by rw [hl]; exact hb⟩
  rw [vec_set hv] at hy
  split at hy
  · obtain rfl := Option.some.inj hy
    rcases hc with hz | hold | hnew
    · exact .inl hz
    · exact .inr (.inl ⟨v, x, hx, hold.symm⟩)
    · exact .inr (.inr hnew)
  · exact .inr (.inl ⟨u, y, hy, rfl⟩)

/-- One vector is new. -/
theorem settles_add {call : Call V}
    (hs : ∃ b, Sound w ⟨h', s.vectors ++ [some x']⟩ b lost) (hl : leaked s call = [])
    (hc : x'.capacity = 0 ∨ request s call = some (x'.capacity, true))
    (hg : ∀ n, request s call = some (n, true) → x'.capacity = n) :
    Settles w s call ⟨h', s.vectors ++ [some x']⟩ lost := by
  obtain ⟨b, hb⟩ := hs
  refine ⟨⟨⟨b, lost, hb⟩, fun u y hy => ?_,
    fun n hn => ⟨s.vectors.length, x', by rw [vec_add, if_pos rfl], hg n hn⟩⟩,
    b, by rw [hl]; exact hb⟩
  rw [vec_add] at hy
  split at hy
  · obtain rfl := Option.some.inj hy
    exact hc.imp id .inr
  · exact .inr (.inl ⟨u, y, hy, rfl⟩)

/-- Nothing was asked for. -/
theorem settles_same {call : Call V} (hs : ∃ b, Sound w s' b lost) (hl : leaked s call = [])
    (hc : ∀ u y, s'.vec u = some y → y.capacity = 0 ∨
      ∃ u' y', s.vec u' = some y' ∧ y'.capacity = y.capacity)
    (hn : request s call = none) : Settles w s call s' lost := by
  obtain ⟨b, hb⟩ := hs
  exact ⟨⟨⟨b, lost, hb⟩, fun u y hy => (hc u y hy).imp id .inl, fun n h => by simp [hn] at h⟩,
    b, by rw [hl]; exact hb⟩

/-- A method that returns leaves a sound state. -/
theorem Sound.settles_method {meth : Method V} {res : Answer V} (hw : 0 < w)
    (hs : Sound w s a lost) (hp : meth.Proper s) (hres : perform w onto s v meth = some res) :
    Settles w s (.method v meth) res.1 lost := by
  obtain ⟨x, hx, -⟩ := Option.bind_eq_some_iff.mp hres
  obtain ⟨m, hm, hk⟩ := hs.exists_model hx
  have ho := hs.performed hw hx hm hp hres
  obtain ⟨b, hb⟩ := ho.sound hs hx
  obtain ⟨x', h', m', made, ended, ht, hacts, -, hcap⟩ := ho.acts
  have hreq : request s (.method v meth) = asks s x meth := by rw [request, hx, Option.bind_some]
  have hx' : x'.capacity = granted x.capacity (asks s x meth) := by
    rw [hacts.kept.capacity, hcap, hk.capacity]
  rw [ht] at hb ⊢
  refine settles_put hx ⟨b, hb⟩ rfl ?_ fun n hn => ?_
  · rw [hreq, hx']
    rcases hask : asks s x meth with _ | ⟨n, ok⟩
    · exact .inr (.inl rfl)
    · cases ok with
      | false => exact .inr (.inl rfl)
      | true => exact .inr (.inr rfl)
  · rw [hreq] at hn
    rw [hx', hn]
    rfl

/-- So does a construction from a list. -/
theorem Sound.settles_constructList {ok : Bool} {xs : List V} (hw : 0 < w) (hs : Sound w s a lost)
    {t : State V × Ret V} (ht : VectorItems.step w s (.constructList xs ok) = some t) :
    Settles w s (.constructList xs ok) t.1 lost := by
  obtain ⟨r, hr, rfl⟩ := Option.map_eq_some_iff.mp ht
  rw [constructList, insertRange_eq] at hr
  obtain ⟨⟨flag, x', h'⟩, hins, rfl⟩ := Option.map_eq_some_iff.mp hr
  have hk : Kept w s.heap.pool ⟨none, 0, 0⟩ (Contents.empty : Contents V) := kept_empty
  have hi := insertItems_some hw hs.fresh hk hins
  have hnone := hs.add (acts_refl hs.fresh hk) rfl
  cases hi with
  | nothing hnil =>
    have hxs : xs = [] := List.map_eq_nil_iff.mp hnil
    exact settles_add ⟨_, hnone⟩ rfl (.inl rfl) fun n hn => by simp [request, hxs] at hn
  | refused hne hlt hok =>
    exact settles_add ⟨_, hnone⟩ rfl (.inl rfl) fun n hn => by simp [request, hok] at hn
  | done zs x' h' hne hpos hok hfits hlen hacts =>
    rw [List.length_map] at hok hlen hacts
    have hne' : xs ≠ [] := fun hnil => hne (by rw [hnil]; rfl)
    have hlt : (Contents.empty : Contents V).capacity < rangeCount ⟨none, 0, 0⟩ xs.length := by
      simpa [Contents.empty] using lt_rangeCount hk xs.length
    have hcap : x'.capacity = rangeCount ⟨none, 0, 0⟩ xs.length :=
      hacts.kept.capacity.trans (max_eq_right hlt.le)
    have hadd := hs.add hacts (by simp [inserted, Contents.empty, Contents.ids, hs.constructed, hlen])
    have hreq : request s (.constructList xs ok) = some (x'.capacity, true) := by
      rw [request, if_neg hne', hok hlt, hcap]
    exact settles_add ⟨_, hadd⟩ rfl (.inr hreq) fun n hn => by simpa [hreq] using hn

/-- The elements go over to a new buffer, or nothing happens at all. -/
theorem Sound.settles_moveAcross {ok : Bool} (hw : 0 < w) (hs : Sound w s a lost)
    (ht : next w onto s (.moveAcross r ok) = some s') : Settles w s (.moveAcross r ok) s' lost := by
  have hf := hs.fresh
  rw [next] at ht
  obtain ⟨y, hy, ht⟩ := Option.bind_eq_some_iff.mp ht
  obtain ⟨⟨x₁, y₁, h₁⟩, hq, ht⟩ := Option.bind_eq_some_iff.mp ht
  obtain rfl := Option.some.inj ht
  obtain ⟨m, hm, hk⟩ := hs.exists_model hy
  obtain ⟨x', r', t, hmove, hrep, -, hcase⟩ := moveAcross_spec hw hf hk ok
  obtain ⟨rfl, rfl, rfl⟩ : x' = x₁ ∧ r' = y₁ ∧ s.heap.withPool t = h₁ := by
    simpa [hmove] using hq
  have hlt := lt_of_vec hy
  rcases hcase with ⟨rfl, rfl, hk'⟩ | ⟨rfl, rfl, rfl, rfl⟩
  · have hreq : request s (.moveAcross r true) = some (x'.capacity, true) := by
      rw [request, hy, Option.map_some, hk.capacity, hk'.capacity]
    have hsound := hs.moveAcross hy hm hrep hk'
    have hleak : leaked s (.moveAcross r true) ++ lost = y.data :: lost := by simp [leaked, hy]
    refine ⟨⟨⟨_, _, hsound⟩, fun u z hz => ?_, fun n hn => ?_⟩, _, by rw [hleak]; exact hsound⟩
    · rw [State.vec, join_append, join_set hlt] at hz
      split at hz
      · rw [← Option.some.inj hz]
        exact .inr (.inr hreq)
      · split at hz
        · exact .inl (by rw [← Option.some.inj hz])
        · exact .inr (.inl ⟨u, z, hz, rfl⟩)
    · refine ⟨s.vectors.length, x', ?_, by simpa [hreq] using hn⟩
      rw [State.vec, join_append, List.length_set, if_pos rfl]
  · have hset : s.vectors.set r (some r') = s.vectors := congrArg State.vectors (state_put_self hy)
    rw [hset]
    exact settles_add ⟨_, hs.add (acts_refl hf kept_empty) rfl⟩ rfl (.inl rfl)
      fun n hn => by simp [request, hy] at hn

/-- What holds of all vectors when calls have returned, and what capacities there are. -/
theorem Sound.settles {call : Call V} (hw : 0 < w) (hs : Sound w s a lost) (hp : call.Proper s)
    (ht : next w onto s call = some s') : Settles w s call s' lost := by
  have hf := hs.fresh
  cases call with
  | construct n ok =>
    rw [next, VectorItems.step] at ht
    obtain ⟨t, hstep, rfl⟩ := Option.map_eq_some_iff.mp ht
    obtain rfl := Option.some.inj hstep
    have hacts := construct_spec (w := w) (h := s.heap) hf hp ok
    have hcap := hacts.kept.capacity
    refine settles_add ⟨_, hs.add hacts rfl⟩ rfl ?_ fun k hk => ?_
    · rw [hcap]
      cases ok with
      | false => exact .inl rfl
      | true => exact .inr rfl
    · obtain ⟨rfl, rfl⟩ : n = k ∧ ok = true := by simpa [request] using hk
      exact hcap
  | constructList xs ok =>
    rw [next] at ht
    obtain ⟨t, hstep, rfl⟩ := Option.map_eq_some_iff.mp ht
    exact hs.settles_constructList hw hstep
  | copyConstruct r ok =>
    rw [next, VectorItems.step] at ht
    obtain ⟨t, hstep, rfl⟩ := Option.map_eq_some_iff.mp ht
    obtain ⟨y, hy, hstep⟩ := Option.bind_eq_some_iff.mp hstep
    obtain ⟨q, hq, rfl⟩ := Option.map_eq_some_iff.mp hstep
    obtain ⟨m, hm, hk⟩ := hs.exists_model hy
    obtain ⟨x', h', hc, hacts⟩ := copyConstruct_spec (a := a) hw hf hk hs.constructed ok
    obtain rfl := Option.some.inj (hc.symm.trans hq)
    have hcap := hacts.kept.capacity
    refine settles_add ⟨_, hs.add hacts (ids_copyOf ok m a)⟩ rfl ?_ fun n hn => ?_
    · cases ok with
      | false => exact .inl hcap
      | true => exact .inr (by rw [request, hy, hcap, Option.map_some, hk.capacity]; rfl)
    · obtain ⟨rfl, rfl⟩ : y.capacity = n ∧ ok = true := by simpa [request, hy] using hn
      rw [hcap, hk.capacity]
      rfl
  | moveConstruct r =>
    rw [next, VectorItems.step] at ht
    obtain ⟨t, hstep, rfl⟩ := Option.map_eq_some_iff.mp ht
    obtain ⟨y, hy, hstep⟩ := Option.bind_eq_some_iff.mp hstep
    obtain rfl := Option.some.inj hstep
    obtain ⟨m, hm, -⟩ := hs.exists_model hy
    refine settles_same ⟨_, hs.moveConstruct hy hm⟩ rfl (fun u z hz => ?_) rfl
    rw [State.vec, join_taken (lt_of_vec hy)] at hz
    split at hz
    · exact .inl (by rw [← Option.some.inj hz])
    · split at hz
      · exact .inr ⟨r, y, hy, by rw [Option.some.inj hz]⟩
      · exact .inr ⟨u, z, hz, rfl⟩
  | moveAcross r ok => exact hs.settles_moveAcross hw ht
  | destroy v =>
    rw [next, VectorItems.step] at ht
    obtain ⟨t, hstep, rfl⟩ := Option.map_eq_some_iff.mp ht
    obtain ⟨x, hx, hstep⟩ := Option.bind_eq_some_iff.mp hstep
    obtain ⟨h₁, hd, hstep⟩ := Option.bind_eq_some_iff.mp hstep
    obtain rfl := Option.some.inj hstep
    obtain ⟨m, hm, hk⟩ := hs.exists_model hx
    obtain ⟨h', hd', hrep, hcon, hended⟩ := destroy_spec hw hf hk
    obtain rfl := Option.some.inj (hd'.symm.trans hd)
    have hset := hs.set none none hx hrep trivial
      (by rw [hcon, hended, hs.constructed, hs.destroyed]
          exact hs.accounted.drop hm fun i => List.count_reverse)
    refine settles_same ⟨_, hset⟩ rfl (fun u z hz => ?_) rfl
    rw [vec_set (lt_of_vec hx)] at hz
    split at hz
    · simp at hz
    · exact .inr ⟨u, z, hz, rfl⟩
  | copyAssign v r ok =>
    rw [next, VectorItems.step] at ht
    obtain ⟨t, hstep, rfl⟩ := Option.map_eq_some_iff.mp ht
    obtain ⟨x, hx, hstep⟩ := Option.bind_eq_some_iff.mp hstep
    obtain ⟨y, hy, hstep⟩ := Option.bind_eq_some_iff.mp hstep
    obtain ⟨q, hq, rfl⟩ := Option.map_eq_some_iff.mp hstep
    obtain ⟨m, hm, hk⟩ := hs.exists_model hx
    obtain ⟨m', hm', hk'⟩ := hs.exists_model hy
    obtain ⟨x', h', hc, hacts⟩ := copyAssign_spec (a := a) hw hf hk hk' hs.constructed ok
    obtain rfl := Option.some.inj (hc.symm.trans hq)
    have hcap := hacts.kept.capacity
    have hput := hs.put hx hacts (hs.accounted.put hm fun i => by
      rw [ids_copyOf, List.count_reverse]
      omega)
    refine settles_put hx ⟨_, hput⟩ rfl ?_ fun n hn => ?_
    · cases ok with
      | false => exact .inl hcap
      | true =>
        refine .inr (.inr ?_)
        rw [request, hx, hy, hcap, Option.map_some, hk'.capacity]
        rfl
    · obtain ⟨rfl, rfl⟩ : y.capacity = n ∧ ok = true := by simpa [request, hx, hy] using hn
      rw [hcap, hk'.capacity]
      rfl
  | swap v r =>
    rw [next, VectorItems.step] at ht
    obtain ⟨t, hstep, rfl⟩ := Option.map_eq_some_iff.mp ht
    obtain ⟨x, hx, hstep⟩ := Option.bind_eq_some_iff.mp hstep
    obtain ⟨y, hy, hstep⟩ := Option.bind_eq_some_iff.mp hstep
    obtain rfl := Option.some.inj hstep
    obtain ⟨m, hm, -⟩ := hs.exists_model hx
    obtain ⟨m', hm', -⟩ := hs.exists_model hy
    by_cases hvr : v = r
    · simp only [if_pos hvr]
      exact settles_same ⟨_, hs⟩ rfl (fun u z hz => .inr ⟨u, z, hz, rfl⟩) rfl
    · simp only [if_neg hvr]
      refine settles_same ⟨_, hs.swap hx hy hm hm' hvr⟩ rfl (fun u z hz => ?_) rfl
      rw [State.vec, join_set_set (lt_of_vec hx) (lt_of_vec hy)] at hz
      split at hz
      · exact .inr ⟨v, x, hx, by rw [Option.some.inj hz]⟩
      · split at hz
        · exact .inr ⟨r, y, hy, by rw [Option.some.inj hz]⟩
        · exact .inr ⟨u, z, hz, rfl⟩
  | clear v =>
    rw [next, VectorItems.step] at ht
    obtain ⟨t, hstep, rfl⟩ := Option.map_eq_some_iff.mp ht
    obtain ⟨x, hx, hstep⟩ := Option.bind_eq_some_iff.mp hstep
    obtain ⟨q, hq, rfl⟩ := Option.map_eq_some_iff.mp hstep
    obtain ⟨m, hm, hk⟩ := hs.exists_model hx
    obtain ⟨x', h', hc, -, hacts⟩ := clear_spec hw hf hk
    obtain rfl := Option.some.inj (hc.symm.trans hq)
    have hput := hs.put hx hacts (hs.accounted.put hm fun i => by simp [Contents.ids])
    exact settles_put hx ⟨_, hput⟩ rfl (.inr (.inl (hacts.kept.capacity.trans hk.capacity.symm)))
      fun n hn => by simp [request] at hn
  | method v meth =>
    rw [next] at ht
    obtain ⟨res, hres, rfl⟩ := Option.map_eq_some_iff.mp ht
    exact hs.settles_method hw hp hres

/-- A call that returns has its effect and leaves the other vectors. -/
theorem Sound.returns {call : Call V} (hw : 0 < w) (hs : Sound w s a lost) (hp : call.Proper s)
    (ht : next w onto s call = some s') : Returns w s call s' := (hs.settles hw hp ht).toReturns

/-- A program made these calls, one after the other. -/
def Reached (w : ℕ) (onto : V → Option V) (calls : List (Call V)) (s : State V) : Prop :=
  Along Call.Proper (next w onto) State.empty calls ∧ run (next w onto) State.empty calls = some s

/-- What calls reach is sound. -/
theorem Reached.sound {calls : List (Call V)} (hw : 0 < w) (hr : Reached w onto calls s) :
    ∃ a lost, Sound w s a lost :=
  along_invariant (I := fun s => ∃ a lost, Sound w s a lost)
    (fun _ _ _ ⟨_, _, hs⟩ hp ht => (hs.returns hw hp ht).sound) ⟨_, _, sound_empty⟩ hr.1 hr.2

end Steps

section Observing

/-- The elements of a vector, each with its number and value. -/
def elements (w : ℕ) (s : State V) (v : ℕ) : Option (List (ℕ × V)) :=
  (s.vec v).bind fun x => (List.range x.size).mapM fun i => s.heap.pool.read w x.data i

/-- The contents of a vector. -/
def contents (w : ℕ) (s : State V) (v : ℕ) : Option (List V) :=
  (elements w s v).map (List.map Prod.snd)

/-- The elements of a vector are those of its model. -/
theorem elements_eq (hw : 0 < w) (hx : s.vec v = some x) (hk : Kept w s.heap.pool x m) :
    elements w s v = some m.elems := by
  rw [elements, hx, Option.bind_some, mapM_eq_some, List.forall₂_iff_get]
  refine ⟨by rw [List.length_range, hk.size], fun i h₁ h₂ => ?_⟩
  have hread := hk.reads hw i h₂
  rw [Nat.zero_add] at hread
  simpa using hread

/-- So are its contents. -/
theorem contents_eq (hw : 0 < w) (hx : s.vec v = some x) (hk : Kept w s.heap.pool x m) :
    contents w s v = some m.values := by
  rw [contents, elements_eq hw hx hk]
  rfl

/-- In a sound state the elements are those of the model. -/
theorem Sound.elements_eq (hw : 0 < w) (hs : Sound w s a lost) (hx : s.vec v = some x)
    (hm : a.vec v = some m) : elements w s v = some m.elems :=
  VectorCalls.elements_eq hw hx (hs.kept_of_vec hx hm)

/-- So are the contents. -/
theorem Sound.contents_eq (hw : 0 < w) (hs : Sound w s a lost) (hx : s.vec v = some x)
    (hm : a.vec v = some m) : contents w s v = some m.values :=
  VectorCalls.contents_eq hw hx (hs.kept_of_vec hx hm)

/-- What a method left in its vector. -/
theorem contents_answer (hw : 0 < w) (hx : s.vec v = some x)
    (hacts : Acts w s.heap h' x x' m' made ended) (flag : Bool) :
    contents w (answer s v (flag, x', h')).1 v = some m'.values :=
  VectorCalls.contents_eq hw (by rw [answer, State.putFlag, vec_set (lt_of_vec hx), if_pos rfl])
    hacts.kept

/-- No element is destroyed twice. -/
theorem Sound.destroyed_nodup (hs : Sound w s a lost) : s.heap.destroyed.Nodup := by
  have hnodup := hs.accounted.nodup_iff.mpr List.nodup_range
  rw [hs.destroyed]
  exact (List.nodup_append.mp hnodup).2.1

/-- `insert` with an argument that was read. -/
theorem perform_insert {pos : ℕ} {ok : Bool} {y : Ref V} {b : Arg V} (hx : s.vec v = some x)
    (hy : arg s y = some b) :
    perform w onto s v (.insert pos y ok) =
      (insertArg w onto ok pos b x s.heap).map (answer s v) := by
  simp only [perform, hx, hy, Option.bind_eq_bind, Option.bind_some]

/-- `push_back` is `insert` behind the last element. -/
theorem perform_pushBack {ok : Bool} {y : Ref V} (hx : s.vec v = some x) (hk : Kept w s.heap.pool x m) :
    perform w onto s v (.pushBack y ok) = perform w onto s v (.insert x.size y ok) := by
  simp only [perform, hx, Option.bind_eq_bind, Option.bind_some, hk.size, insertArg_end hk]

end Observing

end KernelLib.VectorCalls
