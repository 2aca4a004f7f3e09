import KernelLib.VectorSteps
import KernelLib.StepRuns

/-!
# Vectors refine lists

A vector stores a list when it keeps it in a buffer whose bytes can be counted
in 32 bits. Every operation then does not fail, returns what the list says and
changes no block but its own, as long as the capacity it asks for can be
counted in bytes too: that is what the methods do to a vector that keeps a
list, with all counts exact. Runs follow by induction.
-/

namespace KernelLib.VectorRefines

open PoolBlocks VectorItems VectorMethods VectorModel VectorGaps VectorRanges VectorSteps
open Word32 StepRuns

variable {V : Type} {w c n i pos : ℕ} {h h' : Heap V} {t t' : Pool (ℕ × V)} {d : Option ℕ}
  {x x' : Vec} {m m' : Contents V} {us vs : List (ℕ × V)} {xs : List V} {ok : Bool}

section Storage

/-- A buffer for `c` elements with `n` free slots between two lists of elements. -/
def Opens (w : ℕ) (t : Pool (ℕ × V)) (d : Option ℕ) (c : ℕ) (us vs : List (ℕ × V)) (n : ℕ) :
    Prop :=
  us.length + n + vs.length ≤ c ∧ ∃ p b, d = some p ∧ t.block p = some b ∧ b.bytes = c * w ∧
    b.Holds 0 us ∧ b.Holds (us.length + n) vs

/-- Slots that are within a capacity are within its bytes. -/
theorem Opens.gap (ho : Opens w t d c us vs n) : Gap w t d (c * w) us vs n :=
  ⟨Nat.mul_le_mul_right w ho.1, ho.2⟩

theorem stores_opens (hs : Stores w t x m) (hle : m.elems.length + n ≤ m.capacity)
    (hd : x.data.isSome) : Opens w t x.data m.capacity m.elems [] n := by
  rcases hs.buffer with ⟨hn, -⟩ | ⟨p, b, hp, hb, hbytes, hu⟩
  · simp [hn] at hd
  · exact ⟨by simpa using hle, p, b, hp, hb, hbytes, hu, holds_nil _ _⟩

/-- A vector with room for elements has a buffer. -/
theorem data_isSome (hs : Stores w t x m) (hpos : 0 < m.capacity) : x.data.isSome := by
  rcases hs.buffer with ⟨-, hz⟩ | ⟨p, b, hp, -⟩
  · omega
  · simp [hp]

/-- The elements of a vector can be read. -/
theorem stores_read (hs : Stores w t x m) (hi : i < m.elems.length) :
    t.read w x.data i = some m.elems[i] := by
  have hle := hs.le
  have ho := stores_opens (n := 0) hs hle (data_isSome hs (by omega))
  have hread := ho.gap.reads i hi
  rwa [Nat.zero_add] at hread

theorem stores_kept (hw : 0 < w) (hs : Stores w t x m) : Kept w t x m :=
  ((stores_iff hw).mp hs).1

/-- A method whose new capacity can be counted in bytes leaves a stored vector. -/
theorem performs_of_acts {made : ℕ} {ended : List ℕ} (hw : 0 < w)
    (ha : Acts w h h' x x' m' made ended) (hc : m'.capacity * w < 2 ^ 32) :
    Performs w h h' x x' m' made ended :=
  ⟨(stores_iff hw).mpr ⟨ha.kept, hc⟩, ha.replaces, ha.constructed, ha.destroyed⟩

/-- Nothing changed but what the model says of the capacity. -/
theorem performs_refl (hf : h.pool.Fresh) (hs : Stores w h.pool x m) :
    Performs w h h x x m 0 [] :=
  ⟨hs, .refl hf hs.live, rfl, (List.append_nil _).symm⟩

theorem room_iff (hs : Stores w t x m) : x.size < x.capacity ↔ m.elems.length < m.capacity := by
  rw [hs.size, hs.capacity]

/-- Elements that are within a capacity are within its bytes. -/
theorem fits_of_bytes (hle : n ≤ c) (hc : c * w < 2 ^ 32) : n * w ≤ u32 (c * w) := by
  rw [u32_of_lt hc]
  exact Nat.mul_le_mul_right w hle

theorem count_lt (hw : 0 < w) (hc : c * w < 2 ^ 32) : c < 2 ^ 32 :=
  (Nat.le_mul_of_pos_right _ hw).trans_lt hc

end Storage

section Growth

/-- The values were inserted, if there was a capacity for them. -/
def Inserts (w : ℕ) (h : Heap V) (x : Vec) (m : Contents V) (pos : ℕ) (xs : List V)
    (cap : Option ℕ) (flag : Bool) (r : Option (Bool × Vec × Heap V)) : Prop :=
  match cap with
  | none => r = some (flag, x, h)
  | some c => ∃ x' h', r = some (flag, x', h') ∧ Performs w h h' x x'
    ⟨m.elems.take pos ++ numbered h.constructed xs ++ m.elems.drop pos, c⟩ xs.length []

/-- The flag of an insertion of one element. -/
def grew (ok : Bool) (m : Contents V) : Bool := decide (m.capacity ≤ m.elems.length) && ok

theorem grew_of_room (hroom : m.elems.length < m.capacity) : grew ok m = false := by
  simp [grew, hroom]

theorem grew_of_full (hroom : ¬m.elems.length < m.capacity) : grew ok m = ok := by
  simp [grew, Nat.le_of_not_lt hroom]

theorem insert_spec (ok : Bool) (y : V) (hw : 0 < w) (hf : h.pool.Fresh) (hs : Stores w h.pool x m)
    (hpos : pos ≤ m.elems.length)
    (hfit : (if m.elems.length < m.capacity then 0 else grown m.capacity) * w < 2 ^ 32) :
    Inserts w h x m pos [y] (m.roomForOne ok) (grew ok m)
      (insert w ok pos (.outside y) x h) := by
  have hk := stores_kept hw hs
  rw [insert_eq fun _ => none]
  by_cases hroom : m.elems.length < m.capacity
  · simp only [Contents.roomForOne, if_pos hroom, grew_of_room hroom]
    obtain ⟨x', h', hr, hacts⟩ := insertArg_value (fun _ => none) hw hf hk hpos
      ((room_iff hs).mpr hroom) (fits_of_bytes hroom hs.bytes) ok y
    exact ⟨x', h', hr, performs_of_acts hw hacts hs.bytes⟩
  · rw [if_neg hroom] at hfit
    have hfull : ¬x.size < x.capacity := mt (room_iff hs).mp hroom
    have hgrow : growth m.capacity = grown m.capacity := growth_eq (count_lt hw hfit)
    rw [Contents.roomForOne, if_neg hroom, grew_of_full hroom]
    cases ok with
    | false => exact insertArg_refused hw hk hpos hfull
    | true =>
      have hle : m.elems.length + 1 ≤ grown m.capacity := hs.le.trans_lt (lt_grown _)
      obtain ⟨x', h', hr, hacts⟩ := insertArg_grown (y := .outside y) (fun _ => none) hw hf hk hpos
        hfull (by rw [hgrow]; exact fits_of_bytes hle hfit) (fun _ he => by cases he) rfl
      rw [hgrow] at hacts
      exact ⟨x', h', hr, performs_of_acts hw hacts hfit⟩

/-- `push_back` is an insertion at the end. -/
theorem pushBack_spec (ok : Bool) (y : V) (hw : 0 < w) (hf : h.pool.Fresh)
    (hs : Stores w h.pool x m)
    (hfit : (if m.elems.length < m.capacity then 0 else grown m.capacity) * w < 2 ^ 32) :
    Inserts w h x m m.elems.length [y] (m.roomForOne ok) (grew ok m)
      (pushBack w ok (.outside y) x h) := by
  have hend : insertArg w (fun _ => none) ok m.elems.length (.outside y) x h =
      pushBack w ok (.outside y) x h := insertArg_end (stores_kept hw hs)
  rw [← hend]
  exact insert_spec ok y hw hf hs le_rfl hfit

/-- A range goes to a new buffer, because a larger capacity is always asked for. -/
theorem insertRange_spec (ok : Bool) (xs : List V) (hw : 0 < w) (hf : h.pool.Fresh)
    (hs : Stores w h.pool x m) (hpos : pos ≤ m.elems.length)
    (hfit : max (m.elems.length + xs.length) (grown m.capacity) * w < 2 ^ 32) :
    Inserts w h x m pos xs (m.roomForRange ok xs.length) (m.roomForRange ok xs.length).isSome
      (insertRange w ok pos xs x h) := by
  have hk := stores_kept hw hs
  rw [insertRange_eq]
  by_cases hnil : xs = []
  · subst hnil
    exact insertItems_nil
  have hlen : 0 < xs.length := List.length_pos_iff.mpr hnil
  obtain ⟨n, hn⟩ : ∃ n, n = max (m.elems.length + xs.length) (grown m.capacity) := ⟨_, rfl⟩
  rw [← hn] at hfit
  have hlt : n < 2 ^ 32 := count_lt hw hfit
  have hcount : rangeCount x xs.length = n := by
    have hsum : u32 (x.size + u32 xs.length) = m.elems.length + xs.length := by
      rw [hs.size, u32_of_lt (n := xs.length) (by omega), u32_of_lt (by omega)]
    have hgrow : growth x.capacity = grown m.capacity := by
      rw [hs.capacity]
      exact growth_eq (by omega)
    rw [rangeCount, hsum, hgrow]
    split_ifs <;> omega
  have hmore : m.capacity < n := by
    have hgr := lt_grown m.capacity
    omega
  have hne : xs.map (fun y => Item.arg (.outside y)) ≠ [] := by simpa using hnil
  have hroom : m.roomForRange ok xs.length = if ok then some n else none := by
    simp only [Contents.roomForRange, if_neg hlen.ne', ← hn]
  rw [hroom]
  cases ok with
  | false =>
    refine insertItems_refused hne ?_
    rw [List.length_map, hcount, hs.capacity]
    exact hmore
  | true =>
    have hseen : List.Forall₂ (Foresees w h x m (m.capacity < n))
        (xs.map fun y => Item.arg (.outside y)) (xs.map .value) := by
      rw [List.forall₂_map_left_iff, List.forall₂_map_right_iff, List.forall₂_same]
      exact fun _ _ => rfl
    have hcollect := insertItems_collect (xs.map .value) true hw hf hk hpos hne (fun _ => rfl)
      (by rw [List.length_map, hcount, max_eq_right hmore.le]
          exact fits_of_bytes (by omega) hfit)
      (by rwa [List.length_map, hcount])
    rw [collect_values] at hcollect
    simp only [List.length_map, hcount, max_eq_right hmore.le] at hcollect
    obtain ⟨-, x', h', hr, hacts⟩ := hcollect
    exact ⟨x', h', hr, performs_of_acts hw hacts hfit⟩

theorem reserve_spec (hw : 0 < w) (hf : h.pool.Fresh) (hs : Stores w h.pool x m)
    (hn : n * w < 2 ^ 32) (ok : Bool) :
    match m.roomFor ok n with
    | none => reserve w ok n x h = some (false, x, h)
    | some c => ∃ x' h', reserve w ok n x h = some (true, x', h') ∧
      Performs w h h' x x' { m with capacity := c } 0 [] := by
  have hk := stores_kept hw hs
  by_cases hroom : n ≤ m.capacity
  · have hmax : max m.capacity n = m.capacity := max_eq_left hroom
    have hok : m.capacity < n → ok = true := fun hlt => absurd hroom (not_le.mpr hlt)
    obtain ⟨x', h', hr, hacts⟩ := VectorSteps.reserve_spec hw hf hk (count_lt hw hn) hok
      (by rw [hmax]; exact hk.fits)
    rw [hmax] at hacts
    simp only [Contents.roomFor, if_pos hroom]
    exact ⟨x', h', hr, performs_of_acts hw hacts hs.bytes⟩
  · have hlt : m.capacity < n := not_le.mp hroom
    simp only [Contents.roomFor, if_neg hroom]
    cases ok with
    | false => exact reserve_refused hlt hk
    | true =>
      have hmax : max m.capacity n = n := max_eq_right hlt.le
      obtain ⟨x', h', hr, hacts⟩ := VectorSteps.reserve_spec hw hf hk (count_lt hw hn)
        (fun _ => rfl) (by rw [hmax]; exact fits_of_bytes (hs.le.trans hlt.le) hn)
      rw [hmax] at hacts
      exact ⟨x', h', hr, performs_of_acts hw hacts hn⟩

/-- `append` of another vector. -/
theorem append_spec {r : Vec} {m' : Contents V} (ok : Bool) (hw : 0 < w) (hf : h.pool.Fresh)
    (hs : Stores w h.pool x m) (hr : Stores w h.pool r m')
    (hne : ∀ p, r.data = some p → x.data ≠ some p)
    (hfit : (m.elems.length + m'.elems.length) * w < 2 ^ 32) :
    Inserts w h x m m.elems.length m'.values (m.roomFor ok (m.elems.length + m'.elems.length))
      (m.roomFor ok (m.elems.length + m'.elems.length)).isSome
      (append w ok (r.size + 1) (fun _ => r) x h) := by
  have hk := stores_kept hw hs
  have hk' := stores_kept hw hr
  have hcount : appendCount x r = m.elems.length + m'.elems.length := by
    rw [appendCount, hs.size, hr.size, u32_of_lt (count_lt hw hfit)]
  have hvalues : m'.values.length = m'.elems.length := List.length_map _
  by_cases hroom : m.elems.length + m'.elems.length ≤ m.capacity
  · have hmax : max m.capacity (appendCount x r) = m.capacity := by
      rw [hcount]
      exact max_eq_left hroom
    have hok : m.capacity < appendCount x r → ok = true := fun hlt =>
      absurd hlt (by rw [hcount]; exact not_lt.mpr hroom)
    obtain ⟨x', h', happ, hacts⟩ := VectorSteps.append_spec hw hf hk hk' hne hok
      (by rw [hmax]; exact fits_of_bytes hroom hs.bytes)
    rw [hmax] at hacts
    simp only [Contents.roomFor, if_pos hroom]
    refine ⟨x', h', happ, ?_⟩
    rw [hvalues]
    exact performs_of_acts hw hacts hs.bytes
  · have hlt : m.capacity < appendCount x r := by
      rw [hcount]
      exact not_le.mp hroom
    simp only [Contents.roomFor, if_neg hroom]
    cases ok with
    | false => exact append_refused (r := fun _ => r) (by rwa [hs.capacity]) _
    | true =>
      have hmax : max m.capacity (appendCount x r) = m.elems.length + m'.elems.length := by
        rw [← hcount]
        exact max_eq_right hlt.le
      obtain ⟨x', h', happ, hacts⟩ := VectorSteps.append_spec hw hf hk hk' hne (fun _ => rfl)
        (by rw [hmax]; exact fits_of_bytes le_rfl hfit)
      rw [hmax] at hacts
      refine ⟨x', h', happ, ?_⟩
      rw [hvalues]
      exact performs_of_acts hw hacts hfit

/-- A copy asks for the capacity of what it copies. -/
theorem copyOf_bytes (hs : Stores w t x m) (a : Model V) (ok : Bool) :
    (a.copyOf ok m).1.capacity * w < 2 ^ 32 := by
  cases ok with
  | false => simp [Model.copyOf, Contents.empty]
  | true => exact hs.bytes

end Growth

section Runs

variable {s : State V} {a : Model V} {v r : ℕ} {op : Op V}

/-- An insertion in one of the vectors. -/
theorem insertAt_refines {cap : Option ℕ} {flag : Bool} {y : Option (Bool × Vec × Heap V)}
    (hr : Represents w s a) (hx : s.vec v = some x) (hins : Inserts w s.heap x m pos xs cap flag y) :
    ∃ s', y.map (s.putFlag v) = some (s', .bool flag) ∧
      Represents w s' (a.insertAt v pos xs m cap) := by
  cases cap with
  | none =>
    have hy : y = some (flag, x, s.heap) := hins
    refine ⟨s, ?_, hr⟩
    rw [hy, Option.map_some, State.putFlag, state_put_self hx]
  | some c =>
    obtain ⟨x', h', rfl, hperf⟩ := hins
    rw [hr.constructed] at hperf
    exact ⟨_, rfl, hr.put hx hperf⟩

/-- The buffers of different vectors are different. -/
theorem data_ne (hr : Represents w s a) (hx : s.vec v = some x) (hy : s.vec r = some x')
    (hne : v ≠ r) : ∀ p, x'.data = some p → x.data ≠ some p := fun p hp hp' =>
  hne (hr.owned.unique (by rw [getElem?_buffers hx, hp']) (by rw [getElem?_buffers hy, hp]))

theorem constructList_refines {ok : Bool} (hw : 0 < w) (hr : Represents w s a)
    (hfit : max xs.length defReserve * w < 2 ^ 32) :
    ∃ s', step w s (.constructList xs ok) = some (s', .void) ∧
      Represents w s' (a.step (.constructList xs ok)) := by
  have hs : Stores w s.heap.pool ⟨none, 0, 0⟩ (Contents.empty : Contents V) := stores_empty
  have hgrown : grown 0 = defReserve := rfl
  have hins := insertRange_spec ok xs hw hr.owned.fresh hs (Nat.zero_le 0)
    (by simpa [Contents.empty, hgrown] using hfit)
  cases hc : (Contents.empty : Contents V).roomForRange ok xs.length with
  | none =>
    have hrun : insertRange w ok 0 xs ⟨none, 0, 0⟩ s.heap = some (false, ⟨none, 0, 0⟩, s.heap) := by
      rwa [hc] at hins
    refine ⟨_, by simp only [step, constructList, hrun, Option.map_some]; rfl, ?_⟩
    rw [Model.step, hc]
    exact hr.add (performs_refl hr.owned.fresh hs)
  | some c =>
    rw [hc] at hins
    obtain ⟨x', h', hrun, hperf⟩ := hins
    refine ⟨_, by simp only [step, constructList, hrun, Option.map_some]; rfl, ?_⟩
    rw [Model.step, hc]
    rw [hr.constructed] at hperf
    have hadd := hr.add hperf
    simpa [Contents.empty] using hadd

/-- A new vector takes the buffer over. -/
theorem moveConstruct_refines (hr : Represents w s a) (hx : s.vec r = some x)
    (hm : a.vec r = some m) (hs : Stores w s.heap.pool x m) :
    Represents w ⟨s.heap, (s.vectors ++ [some x]).set r (some ⟨none, 0, 0⟩)⟩
      (a.step (.moveConstruct r)) := by
  have hlt := lt_of_vec hx
  rw [Model.step, Model.change, hm]
  refine hr.move (by simp [hr.length]) (fun i => ?_) (count_buffers_taken hx)
  rw [join_taken hlt, join_taken (hr.length ▸ hlt), hr.length]
  split
  · exact stores_empty
  · split
    · exact hs
    · exact hr.stores i

/-- Two vectors exchange their buffers. -/
theorem swap_refines {y : Vec} (hr : Represents w s a) (hx : s.vec v = some x)
    (hy : s.vec r = some y) (hm : a.vec v = some m) (hm' : a.vec r = some m')
    (hs : Stores w s.heap.pool x m) (hs' : Stores w s.heap.pool y m') :
    Represents w ⟨s.heap, if v = r then s.vectors else (s.vectors.set v (some y)).set r (some x)⟩
      (a.step (.swap v r)) := by
  rw [Model.step, Model.change, hm, Option.elim_some, Model.change, hm', Option.elim_some]
  by_cases hne : v = r
  · simpa [hne] using hr
  · rw [if_neg hne, if_neg hne]
    have hv := lt_of_vec hx
    have hr' := lt_of_vec hy
    refine hr.move (by simp [hr.length]) (fun i => ?_) (count_buffers_swapped hx hy hne)
    rw [join_set_set hv hr', join_set_set (hr.length ▸ hv) (hr.length ▸ hr')]
    split
    · exact hs
    · split
      · exact hs'
      · exact hr.stores i

/-- Every operation refines its model: it does not fail, returns what the lists
say and leaves a state that represents the lists after it. -/
theorem step_refines (hw : 0 < w) (hr : Represents w s a) (hready : a.Ready op)
    (hfit : a.Fits w op) :
    ∃ s', step w s op = some (s', a.result op) ∧ Represents w s' (a.step op) := by
  have hf := hr.owned.fresh
  cases op with
  | construct n ok =>
    refine ⟨_, rfl, hr.add (performs_of_acts hw (construct_spec hf hready ok) ?_)⟩
    cases ok with
    | false => simp
    | true => exact hfit
  | constructList xs ok => exact constructList_refines hw hr hfit
  | copyConstruct r ok =>
    obtain ⟨m, hm⟩ := Option.isSome_iff_exists.mp hready
    obtain ⟨x, hx, hs⟩ := hr.exists_vec hm
    obtain ⟨x', h', hc, hacts⟩ :=
      copyConstruct_spec (a := a) hw hf (stores_kept hw hs) hr.constructed ok
    have hperf := performs_of_acts hw hacts (copyOf_bytes hs a ok)
    refine ⟨_, by simp only [step, hx, Option.bind_eq_bind, Option.bind_some, hc, Option.map_some]; rfl,
      ?_⟩
    simpa [Model.step, Model.change, hm] using hr.add hperf
  | moveConstruct r =>
    obtain ⟨m, hm⟩ := Option.isSome_iff_exists.mp hready
    obtain ⟨x, hx, hs⟩ := hr.exists_vec hm
    exact ⟨_, by simp only [step, hx, Option.bind_eq_bind, Option.bind_some]; rfl,
      moveConstruct_refines hr hx hm hs⟩
  | destroy v =>
    obtain ⟨m, hm⟩ := Option.isSome_iff_exists.mp hready
    obtain ⟨x, hx, hs⟩ := hr.exists_vec hm
    obtain ⟨h', hd, hrep, hcon, hended⟩ := destroy_spec hw hf (stores_kept hw hs)
    refine ⟨_, by simp only [step, hx, Option.bind_eq_bind, Option.bind_some, hd]; rfl, ?_⟩
    have hset := hr.set none none hx hrep trivial
    rw [hcon, hended, hr.constructed, hr.destroyed] at hset
    simpa [Model.step, Model.change, hm] using hset
  | copyAssign v r ok =>
    obtain ⟨m, hm⟩ := Option.isSome_iff_exists.mp hready.1
    obtain ⟨m', hm'⟩ := Option.isSome_iff_exists.mp hready.2
    obtain ⟨x, hx, hs⟩ := hr.exists_vec hm
    obtain ⟨y, hy, hs'⟩ := hr.exists_vec hm'
    obtain ⟨x', h', hc, hacts⟩ := copyAssign_spec (a := a) hw hf (stores_kept hw hs)
      (stores_kept hw hs') hr.constructed ok
    have hperf := performs_of_acts hw hacts (copyOf_bytes hs' a ok)
    refine ⟨_, by simp only [step, hx, hy, Option.bind_eq_bind, Option.bind_some, hc, Option.map_some];
                  rfl, ?_⟩
    simpa [Model.step, Model.change, hm, hm'] using hr.put hx hperf
  | swap v r =>
    obtain ⟨m, hm⟩ := Option.isSome_iff_exists.mp hready.1
    obtain ⟨m', hm'⟩ := Option.isSome_iff_exists.mp hready.2
    obtain ⟨x, hx, hs⟩ := hr.exists_vec hm
    obtain ⟨y, hy, hs'⟩ := hr.exists_vec hm'
    exact ⟨_, by simp only [step, hx, hy, Option.bind_eq_bind, Option.bind_some]; rfl,
      swap_refines hr hx hy hm hm' hs hs'⟩
  | pushBack v y ok =>
    obtain ⟨m, hm⟩ := Option.isSome_iff_exists.mp hready
    obtain ⟨x, hx, hs⟩ := hr.exists_vec hm
    have hfit' : (if m.elems.length < m.capacity then 0 else grown m.capacity) * w < 2 ^ 32 := by
      simpa [Model.Fits, Model.asked, hm] using hfit
    obtain ⟨s', hs', hrep⟩ := insertAt_refines hr hx (pushBack_spec ok y hw hf hs hfit')
    refine ⟨s', ?_, by simpa [Model.step, Model.change, hm] using hrep⟩
    simpa [step, hx, Model.result, hm, Model.resultOf, grew] using hs'
  | popBack v =>
    obtain ⟨m, hm⟩ := Option.isSome_iff_exists.mp hready
    obtain ⟨x, hx, hs⟩ := hr.exists_vec hm
    obtain ⟨x', h', hp, hacts⟩ := popBack_spec hw hf (stores_kept hw hs)
    refine ⟨_, by simp only [step, hx, Option.bind_eq_bind, Option.bind_some, hp, Option.map_some,
      Model.result, hm]; rfl, ?_⟩
    rw [Model.step, Model.change, hm]
    exact hr.put hx (performs_of_acts hw hacts hs.bytes)
  | insert v pos y ok =>
    obtain ⟨m, hm, hpos⟩ := hready
    obtain ⟨x, hx, hs⟩ := hr.exists_vec hm
    have hfit' : (if m.elems.length < m.capacity then 0 else grown m.capacity) * w < 2 ^ 32 := by
      simpa [Model.Fits, Model.asked, hm] using hfit
    obtain ⟨s', hs', hrep⟩ := insertAt_refines hr hx (insert_spec ok y hw hf hs hpos hfit')
    refine ⟨s', ?_, by simpa [Model.step, Model.change, hm] using hrep⟩
    simpa [step, hx, Model.result, hm, Model.resultOf, grew] using hs'
  | insertRange v pos xs ok =>
    obtain ⟨m, hm, hpos⟩ := hready
    obtain ⟨x, hx, hs⟩ := hr.exists_vec hm
    have hfit' : max (m.elems.length + xs.length) (grown m.capacity) * w < 2 ^ 32 := by
      simpa [Model.Fits, Model.asked, hm] using hfit
    obtain ⟨s', hs', hrep⟩ :=
      insertAt_refines hr hx (insertRange_spec ok xs hw hf hs hpos hfit')
    refine ⟨s', ?_, by simpa [Model.step, Model.change, hm] using hrep⟩
    simpa [step, hx, Model.result, hm, Model.resultOf] using hs'
  | append v r ok =>
    obtain ⟨m, hm⟩ := Option.isSome_iff_exists.mp hready.1
    obtain ⟨m', hm'⟩ := Option.isSome_iff_exists.mp hready.2.1
    obtain ⟨x, hx, hs⟩ := hr.exists_vec hm
    obtain ⟨y, hy, hs'⟩ := hr.exists_vec hm'
    have hfit' : (m.elems.length + m'.elems.length) * w < 2 ^ 32 := by
      simpa [Model.Fits, Model.asked, hm, hm'] using hfit
    obtain ⟨s', hs', hrep⟩ := insertAt_refines hr hx
      (append_spec ok hw hf hs hs' (data_ne hr hx hy hready.2.2) hfit')
    refine ⟨s', ?_, by simpa [Model.step, Model.change, hm, hm'] using hrep⟩
    simpa [step, hx, hy, Model.result, hm, hm', Model.resultOf] using hs'
  | erase v pos =>
    obtain ⟨m, hm⟩ := Option.isSome_iff_exists.mp hready.1
    obtain ⟨x, hx, hs⟩ := hr.exists_vec hm
    obtain ⟨x', h', hp, hacts⟩ := erase_spec hw hf (stores_kept hw hs) pos
    refine ⟨_, by simp only [step, hx, Option.bind_eq_bind, Option.bind_some, hp, Option.map_some,
      Model.result, hm]; rfl, ?_⟩
    rw [Model.step, Model.change, hm]
    exact hr.put hx (performs_of_acts hw hacts hs.bytes)
  | reserve v n ok =>
    obtain ⟨m, hm⟩ := Option.isSome_iff_exists.mp hready.1
    obtain ⟨x, hx, hs⟩ := hr.exists_vec hm
    have hbytes : n * w < 2 ^ 32 := hfit
    have hres := reserve_spec hw hf hs hbytes ok
    cases hc : m.roomFor ok n with
    | none =>
      simp only [hc] at hres
      refine ⟨s, ?_, ?_⟩
      · simp only [step, hx, Option.bind_eq_bind, Option.bind_some, hres, Option.map_some,
          State.putFlag, state_put_self hx, Model.result, hm, Option.elim_some, Model.resultOf, hc]
        rfl
      · simpa [Model.step, Model.change, hm, hc, put_self hm] using hr
    | some c =>
      simp only [hc] at hres
      obtain ⟨x', h', hp, hperf⟩ := hres
      refine ⟨_, by simp only [step, hx, Option.bind_eq_bind, Option.bind_some, hp, Option.map_some,
        Model.result, hm, Option.elim_some, Model.resultOf, hc]; rfl, ?_⟩
      simpa [Model.step, Model.change, hm, hc] using hr.put hx hperf
  | clear v =>
    obtain ⟨m, hm⟩ := Option.isSome_iff_exists.mp hready
    obtain ⟨x, hx, hs⟩ := hr.exists_vec hm
    obtain ⟨x', h', hp, -, hacts⟩ := clear_spec hw hf (stores_kept hw hs)
    have hperf := performs_of_acts hw hacts hs.bytes
    refine ⟨_, by simp only [step, hx, Option.bind_eq_bind, Option.bind_some, hp, Option.map_some]; rfl,
      ?_⟩
    simpa [Model.step, Model.change, hm] using hr.put hx hperf
  | iterate v =>
    obtain ⟨m, hm⟩ := Option.isSome_iff_exists.mp hready
    obtain ⟨x, hx, hs⟩ := hr.exists_vec hm
    refine ⟨s, ?_, hr⟩
    simp [step, hx, iterate_spec hw (stores_kept hw hs), Model.result, hm, Model.resultOf]

/-- One operation, its result dropped. -/
def next (w : ℕ) (s : State V) (op : Op V) : Option (State V) := (step w s op).map Prod.fst

/-- One operation on the model. -/
def modelNext (a : Model V) (op : Op V) : Option (Model V) := some (a.step op)

/-- The lists after a run. -/
def after (a : Model V) (ops : List (Op V)) : Model V := ops.foldl Model.step a

/-- The operation can be made and its capacity counted in bytes. -/
def Allowed (w : ℕ) (a : Model V) (op : Op V) : Prop := a.Ready op ∧ a.Fits w op

instance (w : ℕ) (a : Model V) (op : Op V) : Decidable (Allowed w a op) :=
  inferInstanceAs (Decidable (_ ∧ _))

/-- Sizes are within capacities, the slots up to the size hold the list, an
iteration yields it, and every element that was constructed is in one list or
was destroyed once. -/
structure Intact (w : ℕ) (s : State V) (a : Model V) : Prop where
  live : ∀ i, (s.vec i).isSome = (a.vec i).isSome
  size_le : ∀ i x, s.vec i = some x → x.size ≤ x.capacity
  slots : ∀ i x m, s.vec i = some x → a.vec i = some m → x.size = m.elems.length ∧
    x.capacity = m.capacity ∧ ∀ k, k < x.size → s.heap.pool.read w x.data k = m.elems[k]?
  iteration : ∀ i x m, s.vec i = some x → a.vec i = some m → iterate w x s.heap = some m.values
  once : (a.present ++ s.heap.destroyed).Perm (List.range s.heap.constructed)

/-- A represented list is intact. -/
theorem Intact.of_represents (hw : 0 < w) (hr : Represents w s a) (ha : Accounted a) :
    Intact w s a := by
  have hstores : ∀ i x m, s.vec i = some x → a.vec i = some m → Stores w s.heap.pool x m := by
    intro i x m hx hm
    have hst := hr.stores i
    rwa [hx, hm] at hst
  refine ⟨fun i => ?_, fun i x hx => ?_, fun i x m hx hm => ?_, fun i x m hx hm => ?_, ?_⟩
  · have hst := hr.stores i
    cases hx : s.vec i <;> cases hm : a.vec i <;> simp_all [Matches]
  · have hst := hr.stores i
    rw [hx] at hst
    cases hm : a.vec i with
    | none => simp [hm, Matches] at hst
    | some m =>
      have hs := hstores i x m hx hm
      rw [hs.size, hs.capacity]
      exact hs.le
  · have hs := hstores i x m hx hm
    refine ⟨hs.size, hs.capacity, fun k hk => ?_⟩
    rw [hs.size] at hk
    rw [stores_read hs hk, List.getElem?_eq_getElem hk]
  · exact iterate_spec hw (stores_kept hw (hstores i x m hx hm))
  · rw [hr.constructed, hr.destroyed]
    exact ha

/-- What a run of operations keeps, from any represented state on. -/
theorem run_refines {ops : List (Op V)} (hw : 0 < w) (hr : Represents w s a) (ha : Accounted a)
    (hops : Along (Allowed w) modelNext a ops) :
    ∃ s', run (next w) s ops = some s' ∧ Represents w s' (after a ops) ∧
      Accounted (after a ops) := by
  refine exists_run_simulating (R := fun s a => Represents w s a ∧ Accounted a)
    (f := Model.step) ?_ ⟨hr, ha⟩ hops
  rintro s a op ⟨hr, ha⟩ ⟨hready, hfit⟩
  obtain ⟨s', hs', hr'⟩ := step_refines hw hr hready hfit
  exact ⟨s', by simp [next, hs'], hr', step_accounted ha op⟩

/-- In every run whose capacities can be counted in bytes no operation on
vectors fails, every state reached is intact, and every operation there returns
what the lists say and goes to their next state. A refused growth changes
nothing and a refused copy is empty. -/
theorem vectors_intact (hw : 0 < w) (ops : List (Op V))
    (hops : Along (Allowed w) modelNext Model.empty ops) :
    ∃ s, run (next w) State.empty ops = some s ∧ Intact w s (after Model.empty ops) ∧
      ∀ op, Allowed w (after Model.empty ops) op →
        (∃ s', step w s op = some (s', (after Model.empty ops).result op) ∧
          Intact w s' ((after Model.empty ops).step op)) ∧
        ((after Model.empty ops).Refused op → (after Model.empty ops).step op = after Model.empty ops) ∧
        ∀ r, op = .copyConstruct r false →
          (after Model.empty ops).step op = (after Model.empty ops).add Contents.empty 0 := by
  obtain ⟨s, hs, hrep, ha⟩ := run_refines hw represents_empty accounted_empty hops
  refine ⟨s, hs, .of_represents hw hrep ha, fun op hop => ⟨?_, step_of_refused, ?_⟩⟩
  · obtain ⟨s', hs', hrep'⟩ := step_refines hw hrep hop.1 hop.2
    exact ⟨s', hs', .of_represents hw hrep' (step_accounted ha op)⟩
  · rintro r rfl
    obtain ⟨m, hm⟩ := Option.isSome_iff_exists.mp hop.1
    simp [Model.step, Model.change, hm, Model.copyOf]

/-- A run over growth, a refused growth, an insertion in the middle and a copy. -/
def growAndCopy : List (Op ℕ) :=
  [.construct 1 true, .pushBack 0 7 true, .pushBack 0 8 false, .insertRange 0 0 [5, 6] true,
    .copyConstruct 0 true, .append 0 1 true, .erase 0 1, .destroy 1]

theorem vectors_intact_growAndCopy :
    ∃ s, run (next 4) State.empty growAndCopy = some s ∧
      Intact 4 s (after Model.empty growAndCopy) := by
  obtain ⟨s, hs, hi, -⟩ := vectors_intact (w := 4) (by decide) growAndCopy (by decide)
  exact ⟨s, hs, hi⟩

example : ((run (next 4) State.empty growAndCopy).bind fun s => (step 4 s (.iterate 0)).map Prod.snd) =
    some (.items [5, 7, 5, 6, 7]) := by decide

end Runs

end KernelLib.VectorRefines
