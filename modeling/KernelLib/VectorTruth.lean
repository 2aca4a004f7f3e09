import KernelLib.VectorCalls

/-!
# What the flags of vector methods say

A flag should be true when the method did what it is for and false when the
contents are as before. What a method is for is an effect on lists. The memory
behind the elements of a vector is not to matter: two states may differ there.

`push_back` and `insert` return true only if they went over to a new buffer,
`pop_back` never does, and `at` has its comparison the wrong way round.
-/

namespace KernelLib.VectorTruth

open PoolBlocks VectorItems VectorMethods VectorModel VectorRanges VectorSteps VectorCalls
open Word32 StepRuns

variable {V : Type} {w v n i j pos : ℕ} {s t : State V} {a : Model V} {lost : List (Option ℕ)}
  {x : Vec} {m : Contents V} {onto : V → Option V} {ok flag : Bool} {calls : List (Call V)}
  {zs asked : List V} {meth : Method V} {r : Answer V}

section Statements

/-- The value of an argument. -/
def refValue (w : ℕ) (s : State V) : Ref V → Option V
  | .value z => some z
  | .elem u i => (contents w s u).bind fun zs => zs[i]?

/-- The value of an element of a range. -/
def sourceValue (w : ℕ) (s : State V) : Source V → Option V
  | .ref y => refValue w s y
  | .iter u i => refValue w s (.elem u i)

/-- The contents that a method is to leave, where it has something to do. -/
def effect (w : ℕ) (s : State V) (zs : List V) : Method V → Option (List V)
  | .pushBack y _ => (refValue w s y).map fun z => zs ++ [z]
  | .popBack => if zs.isEmpty then none else some zs.dropLast
  | .insert pos y _ =>
    if zs.length < pos then none
    else (refValue w s y).map fun z => zs.take pos ++ [z] ++ zs.drop pos
  | .insertRange pos ys _ =>
    if zs.length < pos then none
    else (ys.mapM (sourceValue w s)).map fun qs => zs.take pos ++ qs ++ zs.drop pos
  | .append r _ => (contents w s r).map fun qs => zs ++ qs
  | .erase pos => if pos < zs.length then some (zs.eraseIdx pos) else none
  | .atPos _ | .reserve _ _ => none

/-- The flag tells whether `performed` or `unchanged` holds. Where both do, as
after appending nothing, it may be either. -/
def Tells (flag : Bool) (performed unchanged : Prop) : Prop :=
  performed ∧ unchanged ∨ (flag = true ↔ performed) ∧ (flag = false ↔ unchanged)

/-- What a method answered is true of the contents before and after. -/
def Truth (w : ℕ) (s : State V) (v : ℕ) (zs : List V) : Method V → Answer V → Prop
  | .atPos pos, r => r.1 = s ∧ r.2 = (decide (pos < zs.length), zs[pos]?)
  | .reserve n _, r => contents w r.1 v = some zs ∧
    (r.2.1 = true ↔ ∃ y, r.1.vec v = some y ∧ n ≤ y.capacity)
  | meth, r => Tells r.2.1 (∃ qs, effect w s zs meth = some qs ∧ contents w r.1 v = some qs)
    (contents w r.1 v = some zs)

/-- Two states that differ behind the elements of vectors at most. -/
structure Alike (s t : State V) : Prop where
  vectors : t.vectors = s.vectors
  bytes : ∀ p, (t.heap.pool.block p).map Block.bytes = (s.heap.pool.block p).map Block.bytes
  slots : ∀ v x p b c, s.vec v = some x → x.data = some p → s.heap.pool.block p = some b →
    t.heap.pool.block p = some c → ∀ i < x.size, c.slot i = b.slot i
  allocated : t.heap.pool.allocated = s.heap.pool.allocated
  constructed : t.heap.constructed = s.heap.constructed
  destroyed : t.heap.destroyed = s.heap.destroyed

/-- Whatever lies behind the elements of vectors, the method comes back, which it
does not when it leaves a buffer, and what it answers is true. -/
def Truthful (w : ℕ) (onto : V → Option V) (s : State V) (v : ℕ) (meth : Method V) : Prop :=
  ∀ t, Alike s t → ∃ zs r, contents w t v = some zs ∧ perform w onto t v meth = some r ∧
    Truth w t v zs meth r

/-- A full vector to which an element is added: a larger buffer is refused, or it
has the bytes and the element is not one of the vector itself. -/
def Grows (w : ℕ) (v : ℕ) (x : Vec) (y : Ref V) (ok : Bool) : Prop :=
  x.size = x.capacity ∧
    (ok = true → (x.size + 1) * w ≤ u32 (growth x.capacity * w) ∧ ∀ i, y ≠ .elem v i)

/-- Slot `i` of the vector itself gives the same element when the one with number
`j` of a range of `n` is constructed: it is in front of the position, or it was
constructed by then from an equal value, or it was not written yet in a buffer
that stayed, or an equal element came to lie there. -/
def Steady (replaced : Prop) (zs asked : List V) (pos n j i : ℕ) : Prop :=
  i < pos ∨ pos ≤ i ∧ i < pos + j ∧ asked[i - pos]? = zs[i]? ∨
    pos + j ≤ i ∧ i < pos + n ∧ ¬replaced ∨ pos + n ≤ i ∧ zs[i - n]? = zs[i]?

/-- The same for an element of a range. A pointer into a buffer that is replaced dangles. -/
def Stays (v : ℕ) (replaced : Prop) (zs asked : List V) (pos n j : ℕ) : Source V → Prop
  | .ref (.value _) => True
  | .ref (.elem u i) => u = v → ¬replaced ∧ Steady replaced zs asked pos n j i
  | .iter u i => u = v → Steady replaced zs asked pos n j i

/-- Where a method does what its flag says. -/
def Honest (w : ℕ) (s : State V) (v : ℕ) (x : Vec) (zs : List V) : Method V → Prop
  | .pushBack y ok => Grows w v x y ok
  | .popBack => x.size = 0
  | .atPos pos => x.size = 0 ∨ pos = x.size
  | .insert pos y ok => x.size < pos ∨ Grows w v x y ok
  | .insertRange pos ys ok =>
    ys = [] ∨ x.capacity < rangeCount x ys.length ∧ ok = false ∨
      pos ≤ x.size ∧ (x.capacity < rangeCount x ys.length → ok = true) ∧
      (x.size + ys.length) * w ≤ u32 (max x.capacity (rangeCount x ys.length) * w) ∧
      ∀ asked, ys.mapM (sourceValue w s) = some asked → ∀ (j : ℕ) (y : Source V), ys[j]? = some y →
        Stays v (x.capacity < rangeCount x ys.length) zs asked pos ys.length j y
  | .append r ok =>
    if r = v then x.size = 0 ∨ x.capacity < appendCount x x ∧ ok = false
    else ∀ y, s.vec r = some y → x.capacity < appendCount x y ∧ ok = false ∨
      (x.capacity < appendCount x y → ok = true) ∧
      (x.size + y.size) * w ≤ u32 (max x.capacity (appendCount x y) * w)
  | .erase _ => True
  | .reserve n ok => x.capacity < n → ok = true → x.size * w ≤ u32 (n * w)

end Statements

section Telling

variable {P U : Prop}

/-- Where something was to be done, the flag is `true`. -/
theorem tells_performed (hP : P) (hU : ¬U) : Tells flag P U ↔ flag = true := by
  cases flag <;> simp [Tells, hP, hU]

/-- Where nothing was, it is `false`. -/
theorem tells_unchanged (hP : ¬P) (hU : U) : Tells flag P U ↔ flag = false := by
  cases flag <;> simp [Tells, hP, hU]

/-- Where both are the same, either will do. -/
theorem tells_both (hP : P) (hU : U) : Tells flag P U := .inl ⟨hP, hU⟩

/-- What is neither performed nor unchanged cannot be told. -/
theorem tells_false (h : Tells false P U) : U := by
  rcases h with ⟨-, hU⟩ | ⟨-, hU⟩
  · exact hU
  · exact hU.mp rfl

/-- The flag `true` tells that it was done. -/
theorem tells_true (h : Tells true P U) : P := by
  rcases h with ⟨hP, -⟩ | ⟨hP, -⟩
  · exact hP
  · exact hP.mp rfl

end Telling

section Arguments

/-- An element of a live vector, as an argument. -/
theorem elem_spec {u : ℕ} (hw : 0 < w) (hs : Sound w s a lost) (hp : (Ref.elem u i : Ref V).Proper s) :
    ∃ y z e, s.vec u = some y ∧ i < y.size ∧ refValue w s (.elem u i) = some z ∧
      s.heap.pool.read w y.data i = some (e, z) := by
  obtain ⟨y, hy, hi⟩ := hp
  obtain ⟨m, hm, hk⟩ := hs.exists_model hy
  have hi' : i < m.elems.length := hk.size ▸ hi
  refine ⟨y, m.elems[i].2, m.elems[i].1, hy, hi, ?_, ?_⟩
  · simp [refValue, hs.contents_eq hw hy hm, Contents.values, hi']
  · simpa using hk.reads hw i hi'

/-- The buffer of an element is not that of another vector. -/
theorem elem_apart {u : ℕ} {y : Vec} {e : ℕ × V} (hs : Sound w s a lost) (hx : s.vec v = some x)
    (hy : s.vec u = some y) (hne : u ≠ v) (hread : s.heap.pool.read w y.data i = some e) :
    y.data ≠ x.data := by
  intro hd
  obtain ⟨p, b, hp, -⟩ := read_eq_some.mp hread
  exact hs.data_ne hx hy (Ne.symm hne) p hp (hd ▸ hp)

/-- An argument that there is. -/
theorem arg_spec {y : Ref V} (hw : 0 < w) (hs : Sound w s a lost) (hx : s.vec v = some x)
    (hp : y.Proper s) :
    ∃ b z, arg s y = some b ∧ refValue w s y = some z ∧ s.heap.valueOf w b = some z ∧
      (Apart x b ↔ ∀ i, y ≠ .elem v i) := by
  cases y with
  | value z => exact ⟨_, z, rfl, rfl, rfl, by simp [Apart]⟩
  | elem u i =>
    obtain ⟨y, z, e, hy, -, hz, hread⟩ := elem_spec hw hs hp
    refine ⟨.slot y.data i, z, by simp [arg, hy], hz, by simp [Heap.valueOf, hread], ?_⟩
    by_cases hu : u = v
    · subst hu
      obtain rfl := Option.some.inj (hx.symm.trans hy)
      simp [Apart]
    · have hne := elem_apart hs hx hy hu hread
      simp [Apart, hne, hu]

/-- What an element of a range is seen as. -/
def sight (w : ℕ) (s : State V) (v : ℕ) (replaced : Prop) [Decidable replaced] :
    Source V → Option (Sight V)
  | .ref (.value z) => some (.value z)
  | .ref (.elem u i) =>
    if u = v then some (if replaced then .gone else .slot i)
    else (refValue w s (.elem u i)).map .value
  | .iter u i => if u = v then some (.slot i) else (refValue w s (.elem u i)).map .value

/-- An element of a range that there is. -/
theorem item_spec {y : Source V} (replaced : Prop) [Decidable replaced] (hw : 0 < w)
    (hs : Sound w s a lost) (hx : s.vec v = some x) (hk : Kept w s.heap.pool x m)
    (hp : y.Proper s) :
    ∃ b z e, item s v y = some b ∧ sourceValue w s y = some z ∧ sight w s v replaced y = some e ∧
      Foresees w s.heap x m replaced b e := by
  have hother : ∀ {u i : ℕ}, (Ref.elem u i : Ref V).Proper s → u ≠ v → ∃ y z, s.vec u = some y ∧
      refValue w s (.elem u i) = some z ∧
      Foresees w s.heap x m replaced (.arg (.slot y.data i)) (.value z) := by
    intro u i hui hne
    obtain ⟨y, z, e, hy, -, hz, hread⟩ := elem_spec hw hs hui
    exact ⟨y, z, hy, hz, elem_apart hs hx hy hne hread, e, hread⟩
  have hown : ∀ {i : ℕ}, (Ref.elem v i : Ref V).Proper s → i < m.elems.length ∧
      ∃ z, refValue w s (.elem v i) = some z := by
    intro i hi
    obtain ⟨y, z, e, hy, hlt, hz, -⟩ := elem_spec hw hs hi
    obtain rfl := Option.some.inj (hx.symm.trans hy)
    exact ⟨hk.size ▸ hlt, z, hz⟩
  match y, hp with
  | .ref (.value z), _ => exact ⟨_, z, _, rfl, rfl, rfl, rfl⟩
  | .ref (.elem u i), hp =>
    by_cases hu : u = v
    · subst hu
      obtain ⟨hi, z, hz⟩ := hown hp
      refine ⟨_, z, _, by rw [item, arg, hx]; rfl, hz, if_pos rfl, ?_⟩
      split
      · rename_i hrep
        exact ⟨hrep, rfl⟩
      · rename_i hrep
        exact ⟨hrep, rfl, rfl, hi⟩
    · obtain ⟨y, z, hy, hz, hsees⟩ := hother hp hu
      exact ⟨_, z, _, by rw [item, arg, hy]; rfl, hz, by rw [sight, if_neg hu, hz]; rfl, hsees⟩
  | .iter u i, hp =>
    by_cases hu : u = v
    · subst hu
      obtain ⟨hi, z, hz⟩ := hown hp
      exact ⟨_, z, _, if_pos rfl, hz, if_pos rfl, rfl, hi⟩
    · obtain ⟨y, z, hy, hz, hsees⟩ := hother hp hu
      exact ⟨_, z, _, by rw [item, if_neg hu, hy]; rfl, hz, by rw [sight, if_neg hu, hz]; rfl, hsees⟩

/-- A slot of the buffer, when the element with number `j` of a range is constructed. -/
theorem steady_iff {replaced : Prop} [Decidable replaced] (hpos : pos ≤ zs.length) (hj : j < n)
    (hlen : asked.length = n) (hi : i < zs.length) :
    (Sight.slot i).get (leftIn replaced zs) (zs.take pos ++ asked.take j) (zs.drop pos) (n - j) =
      zs[i]? ↔ Steady replaced zs asked pos n j i := by
  have htake : (zs.take pos).length = pos := List.length_take_of_le hpos
  have hfront : (zs.take pos ++ asked.take j).length = pos + j := by
    rw [List.length_append, htake, List.length_take_of_le (by omega)]
  rw [Sight.get, hfront, show pos + j + (n - j) = pos + n by omega, Steady]
  by_cases h₁ : i < pos
  · rw [if_pos (by omega), List.getElem?_append_left (by omega), List.getElem?_take_of_lt h₁]
    exact iff_of_true rfl (.inl h₁)
  by_cases h₂ : i < pos + j
  · rw [if_pos h₂, List.getElem?_append_right (by omega), htake, List.getElem?_take_of_lt (by omega)]
    constructor
    · exact fun h => .inr (.inl ⟨by omega, h₂, h⟩)
    · rintro (h | ⟨-, -, h⟩ | ⟨h, -⟩ | ⟨h, -⟩)
      · omega
      · exact h
      · omega
      · omega
  rw [if_neg h₂]
  by_cases h₃ : i < pos + n
  · rw [if_pos h₃, leftIn]
    constructor
    · intro h
      refine .inr (.inr (.inl ⟨by omega, h₃, fun hrep => ?_⟩))
      rw [if_pos hrep, List.getElem?_eq_getElem hi] at h
      cases h
    · rintro (h | ⟨-, h, -⟩ | ⟨-, -, h⟩ | ⟨h, -⟩)
      · omega
      · omega
      · rw [if_neg h]
      · omega
  · rw [if_neg h₃, List.getElem?_drop, show pos + (i - (pos + n)) = i - n by omega]
    constructor
    · exact fun h => .inr (.inr (.inr ⟨by omega, h⟩))
    · rintro (h | ⟨-, h, -⟩ | ⟨-, h, -⟩ | ⟨-, h⟩)
      · omega
      · omega
      · omega
      · exact h

/-- An element of a range, when it is constructed. -/
theorem stays_iff {y : Source V} {z : V} {e : Sight V} {replaced : Prop} [Decidable replaced]
    (hcon : contents w s v = some zs) (hpos : pos ≤ zs.length) (hj : j < n) (hlen : asked.length = n)
    (hz : sourceValue w s y = some z) (he : sight w s v replaced y = some e) :
    e.get (leftIn replaced zs) (zs.take pos ++ asked.take j) (zs.drop pos) (n - j) = some z ↔
      Stays v replaced zs asked pos n j y := by
  have hown : ∀ {i}, refValue w s (.elem v i) = some z → zs[i]? = some z := by
    intro i hi
    simpa [refValue, hcon] using hi
  have hslot : ∀ {i}, refValue w s (.elem v i) = some z →
      ((Sight.slot i).get (leftIn replaced zs) (zs.take pos ++ asked.take j) (zs.drop pos) (n - j) =
        some z ↔ Steady replaced zs asked pos n j i) := by
    intro i hi
    rw [← hown hi]
    exact steady_iff hpos hj hlen (List.getElem?_eq_some_iff.mp (hown hi)).1
  have hother : ∀ {u i : ℕ}, refValue w s (.elem u i) = some z →
      (refValue w s (.elem u i)).map .value = some e →
      e.get (leftIn replaced zs) (zs.take pos ++ asked.take j) (zs.drop pos) (n - j) = some z := by
    intro u i hui hmap
    rw [hui] at hmap
    rw [← Option.some.inj hmap]
    rfl
  match y with
  | .ref (.value z') =>
    obtain rfl := Option.some.inj he
    exact iff_of_true hz trivial
  | .ref (.elem u i) =>
    by_cases hu : u = v
    · subst hu
      rw [sight, if_pos rfl, Option.some.injEq] at he
      subst he
      rw [Stays]
      by_cases hrep : replaced
      · rw [if_pos hrep]
        exact iff_of_false (by simp [Sight.get]) fun h => (h rfl).1 hrep
      · rw [if_neg hrep, hslot hz]
        exact ⟨fun h _ => ⟨hrep, h⟩, fun h => (h rfl).2⟩
    · rw [sight, if_neg hu] at he
      exact iff_of_true (hother hz he) fun h => absurd h hu
  | .iter u i =>
    by_cases hu : u = v
    · subst hu
      rw [sight, if_pos rfl, Option.some.injEq] at he
      subst he
      rw [hslot hz, Stays]
      exact ⟨fun h _ => h, fun h => h rfl⟩
    · rw [sight, if_neg hu] at he
      exact iff_of_true (hother hz he) fun h => absurd h hu

end Arguments

section Methods

/-- The method comes back, and its answer is true. -/
def Told (w : ℕ) (onto : V → Option V) (s : State V) (v : ℕ) (zs : List V) (meth : Method V) : Prop :=
  ∃ r, perform w onto s v meth = some r ∧ Truth w s v zs meth r

/-- A call that returns the vector as it was leaves the contents. -/
theorem unchanged_of_answer (hw : 0 < w) (hs : Sound w s a lost) (hx : s.vec v = some x)
    (hm : a.vec v = some m) (flag : Bool) :
    contents w (answer s v (flag, x, s.heap)).1 v = some m.values := by
  rw [show (answer s v (flag, x, s.heap)).1 = s from state_put_self hx]
  exact hs.contents_eq hw hx hm

/-- There are as many values as elements. -/
theorem values_length (m : Contents V) : m.values.length = m.elems.length := List.length_map _

/-- Lists of different lengths are different contents. -/
theorem some_ne {ys zs : List V} (h : ys.length ≠ zs.length) : some ys ≠ some zs := fun he =>
  h (congrArg List.length (Option.some.inj he))

/-- Adding one element at a position that there is. -/
theorem told_one (onto : V → Option V) (y : Ref V) {b : Arg V} {z : V} (hw : 0 < w)
    (hs : Sound w s a lost)
    (hx : s.vec v = some x) (hm : a.vec v = some m) (hpos : pos ≤ x.size)
    (hval : s.heap.valueOf w b = some z) (hapart : Apart x b ↔ ∀ i, y ≠ .elem v i) (ok : Bool) :
    (∃ r, (insertArg w onto ok pos b x s.heap).map (answer s v) = some r ∧
      Tells r.2.1 (contents w r.1 v = some (m.values.take pos ++ [z] ++ m.values.drop pos))
        (contents w r.1 v = some m.values)) ↔ Grows w v x y ok := by
  have hk := hs.kept_of_vec hx hm
  have hf := hs.fresh
  have hpos' : pos ≤ m.elems.length := hk.size ▸ hpos
  have hlonger : ∀ z', (m.values.take pos ++ [z'] ++ m.values.drop pos).length ≠ m.values.length := by
    intro z'
    simp only [List.length_append, List.length_take, List.length_drop, values_length,
      List.length_singleton]
    omega
  have hafter : ∀ {x' : Vec} {h' : Heap V} {c : ℕ} {z' : V}, ∀ flag,
      Acts w s.heap h' x x' (inserted m pos c s.heap.constructed [z']) 1 [] →
      contents w (answer s v (flag, x', h')).1 v =
        some (m.values.take pos ++ [z'] ++ m.values.drop pos) := by
    intro x' h' c z' flag hacts
    rw [contents_answer hw hx hacts, inserted_values]
  constructor
  · rintro ⟨r, hr, htells⟩
    obtain ⟨q, hq, rfl⟩ := Option.map_eq_some_iff.mp hr
    cases insertArg_some hw hf hk hpos' hq with
    | refused hroom hok => exact ⟨hk.full hw hroom, fun h => by simp [hok] at h⟩
    | inPlace z' x' h' hroom hfits hacts =>
      have hun := tells_false htells
      rw [hafter false hacts] at hun
      exact absurd hun (some_ne (hlonger z'))
    | grown z' x' h' hroom hok hfits hap hacts =>
      refine ⟨hk.full hw hroom, fun _ => ⟨?_, hapart.mp hap⟩⟩
      rwa [hk.size, hk.capacity]
  · rintro ⟨hfull, hgrow⟩
    have hroom : ¬x.size < x.capacity := hfull.not_lt
    cases ok with
    | false =>
      refine ⟨_, by rw [insertArg_refused hw hk hpos' hroom, Option.map_some], ?_⟩
      have hun := unchanged_of_answer hw hs hx hm false
      refine (tells_unchanged (fun h => ?_) hun).mpr rfl
      exact some_ne (hlonger z) (h.symm.trans hun)
    | true =>
      obtain ⟨hfits, hown⟩ := hgrow rfl
      rw [hk.size, hk.capacity] at hfits
      obtain ⟨x', h', hins, hacts⟩ :=
        insertArg_grown onto hw hf hk hpos' hroom hfits (hapart.mpr hown) hval
      refine ⟨_, by rw [hins, Option.map_some], (tells_performed (hafter true hacts) fun h => ?_).mpr rfl⟩
      exact some_ne (hlonger z) ((hafter true hacts).symm.trans h)

/-- `insert` tells the truth behind the end and over a larger buffer. -/
theorem told_insert {y : Ref V} (hw : 0 < w) (hs : Sound w s a lost) (hx : s.vec v = some x)
    (hm : a.vec v = some m) (hp : y.Proper s) (ok : Bool) :
    Told w onto s v m.values (.insert pos y ok) ↔ x.size < pos ∨ Grows w v x y ok := by
  obtain ⟨b, z, hb, hz, hval, hapart⟩ := arg_spec hw hs hx hp
  have hk := hs.kept_of_vec hx hm
  rw [Told, perform_insert hx hb]
  by_cases hpos : x.size < pos
  · have hlt : m.values.length < pos := by rwa [values_length, ← hk.size]
    refine iff_of_true ⟨_, by rw [insertArg_behind hpos, Option.map_some], ?_⟩ (.inl hpos)
    refine (tells_unchanged ?_ (unchanged_of_answer hw hs hx hm false)).mpr rfl
    simp [effect, hlt]
  · have hge : ¬m.values.length < pos := by rwa [values_length, ← hk.size]
    have hone := told_one onto y hw hs hx hm (not_lt.mp hpos) hval hapart ok
    simp only [Truth, effect, hge, if_false, hz, Option.map_some, Option.some.injEq,
      exists_eq_left', hpos, false_or]
    exact hone

/-- `push_back` does only over a larger buffer. -/
theorem told_pushBack {y : Ref V} (hw : 0 < w) (hs : Sound w s a lost) (hx : s.vec v = some x)
    (hm : a.vec v = some m) (hp : y.Proper s) (ok : Bool) :
    Told w onto s v m.values (.pushBack y ok) ↔ Grows w v x y ok := by
  obtain ⟨b, z, hb, hz, hval, hapart⟩ := arg_spec hw hs hx hp
  have hk := hs.kept_of_vec hx hm
  have hone := told_one onto y hw hs hx hm le_rfl hval hapart ok
  have hend : m.values.take x.size ++ [z] ++ m.values.drop x.size = m.values ++ [z] := by
    simp [hk.size, ← values_length]
  rw [hend, ← perform_insert hx hb, ← perform_pushBack hx hk] at hone
  simpa only [Told, Truth, effect, hz, Option.map_some, Option.some.injEq, exists_eq_left'] using hone

/-- `pop_back` does when there is nothing to destroy. -/
theorem told_popBack (hw : 0 < w) (hs : Sound w s a lost) (hx : s.vec v = some x)
    (hm : a.vec v = some m) : Told w onto s v m.values .popBack ↔ x.size = 0 := by
  have hk := hs.kept_of_vec hx hm
  obtain ⟨x', h', hpop, hacts⟩ := popBack_spec hw hs.fresh hk
  have hperf : perform w onto s v .popBack = some (answer s v (false, x', h')) := by
    simp only [perform, hx, Option.bind_eq_bind, Option.bind_some, hpop, Option.map_some]
  have hafter : contents w (answer s v (false, x', h')).1 v =
      some (m.values.eraseIdx (m.elems.length - 1)) := by
    rw [contents_answer hw hx hacts, Contents.values, Contents.values, List.eraseIdx_map]
  constructor
  · rintro ⟨r, hr, htells⟩
    obtain rfl := Option.some.inj (hperf.symm.trans hr)
    have hun : contents w (answer s v (false, x', h')).1 v = some m.values := tells_false htells
    rw [hafter] at hun
    by_contra hne
    refine some_ne ?_ hun
    rw [hk.size] at hne
    rw [List.length_eraseIdx_of_lt (by rw [values_length]; omega), values_length]
    omega
  · intro hz
    have hnil : m.elems = [] := List.length_eq_zero_iff.mp (hk.size ▸ hz)
    refine ⟨_, hperf, (tells_unchanged ?_ ?_).mpr rfl⟩
    · simp [effect, Contents.values, hnil]
    · rw [hafter]
      simp [Contents.values, hnil]

/-- `at` does for an empty vector and for the position behind the last one. -/
theorem told_atPos (hs : Sound w s a lost) (hx : s.vec v = some x)
    (hm : a.vec v = some m) :
    Told w onto s v m.values (.atPos pos) ↔ x.size = 0 ∨ pos = x.size := by
  have hk := hs.kept_of_vec hx hm
  have hlen : m.values.length = x.size := by rw [values_length, hk.size]
  have hperf : perform w onto s v (.atPos pos) = (atInto w pos x s.heap).map fun r => (s, r) := by
    simp only [perform, hx, Option.bind_eq_bind, Option.bind_some]
  rw [Told, hperf, atInto]
  by_cases hin : x.size < pos ∧ 0 < x.size
  · -- the slot behind the elements is read, and the answer would be true
    rw [if_pos hin]
    refine iff_of_false ?_ (by omega)
    rintro ⟨r, hr, -, htruth⟩
    obtain ⟨q, hq, rfl⟩ := Option.map_eq_some_iff.mp hr
    obtain ⟨z, -, rfl⟩ := Option.map_eq_some_iff.mp hq
    have hflag := congrArg Prod.fst htruth
    simp only [hlen] at hflag
    have hlt : pos < x.size := of_decide_eq_true hflag.symm
    omega
  · rw [if_neg hin]
    constructor
    · rintro ⟨r, hr, -, htruth⟩
      obtain rfl := Option.some.inj hr
      have hflag := congrArg Prod.fst htruth
      simp only [hlen] at hflag
      have hge : ¬pos < x.size := of_decide_eq_false hflag.symm
      omega
    · intro hor
      have hge : ¬pos < m.values.length := by omega
      refine ⟨_, rfl, rfl, ?_⟩
      rw [decide_eq_false hge, List.getElem?_eq_none (not_lt.mp hge)]

/-- `erase` always does. -/
theorem told_erase (hw : 0 < w) (hs : Sound w s a lost) (hx : s.vec v = some x)
    (hm : a.vec v = some m) : Told w onto s v m.values (.erase pos) := by
  have hk := hs.kept_of_vec hx hm
  obtain ⟨x', h', her, hacts⟩ := erase_spec hw hs.fresh hk pos
  have hafter : contents w (answer s v (decide (pos < m.elems.length), x', h')).1 v =
      some (m.values.eraseIdx pos) := by
    rw [contents_answer hw hx hacts, Contents.values, Contents.values, List.eraseIdx_map]
  refine ⟨answer s v (decide (pos < m.elems.length), x', h'), ?_, ?_⟩
  · simp only [perform, hx, Option.bind_eq_bind, Option.bind_some, her, Option.map_some]
  · by_cases hpos : pos < m.elems.length
    · have hpos' : pos < m.values.length := by rwa [values_length]
      refine (tells_performed ?_ fun h => ?_).mpr (decide_eq_true hpos)
      · exact ⟨_, if_pos hpos', hafter⟩
      · refine some_ne ?_ (hafter.symm.trans h)
        rw [List.length_eraseIdx_of_lt hpos']
        omega
    · have hpos' : ¬pos < m.values.length := by rwa [values_length]
      refine (tells_unchanged ?_ ?_).mpr (decide_eq_false hpos)
      · simp [effect, hpos']
      · rw [hafter, List.eraseIdx_of_length_le (not_lt.mp hpos')]

/-- `reserve` does when the bytes of a larger buffer hold the elements. -/
theorem told_reserve (hw : 0 < w) (hs : Sound w s a lost) (hx : s.vec v = some x)
    (hm : a.vec v = some m) (hn : n < 2 ^ 32) (ok : Bool) :
    Told w onto s v m.values (.reserve n ok) ↔
      (x.capacity < n → ok = true → x.size * w ≤ u32 (n * w)) := by
  have hk := hs.kept_of_vec hx hm
  have hperf : perform w onto s v (.reserve n ok) = (reserve w ok n x s.heap).map (answer s v) := by
    simp only [perform, hx, Option.bind_eq_bind, Option.bind_some]
  rw [Told, hperf]
  by_cases href : m.capacity < n ∧ ok = false
  · obtain ⟨hlt, rfl⟩ := href
    refine iff_of_true ⟨_, by rw [reserve_refused hlt hk, Option.map_some], ?_, ?_⟩
      fun _ h => by simp at h
    · exact unchanged_of_answer hw hs hx hm false
    · refine iff_of_false (by simp [answer]) ?_
      rintro ⟨y, hy, hle⟩
      rw [show (answer s v (false, x, s.heap)).1 = s from state_put_self hx, hx] at hy
      rw [← Option.some.inj hy, hk.capacity] at hle
      omega
  · have hok : m.capacity < n → ok = true := fun hlt => by simpa [hlt] using href
    have hcond : (x.capacity < n → ok = true → x.size * w ≤ u32 (n * w)) ↔
        m.elems.length * w ≤ u32 (max m.capacity n * w) := by
      rw [hk.size, hk.capacity]
      by_cases hlt : m.capacity < n
      · rw [max_eq_right hlt.le]
        exact ⟨fun h => h hlt (hok hlt), fun h _ _ => h⟩
      · rw [max_eq_left (not_lt.mp hlt)]
        exact iff_of_true (fun h => absurd h hlt) hk.fits
    rw [hcond]
    constructor
    · rintro ⟨r, hr, -⟩
      obtain ⟨q, hq, rfl⟩ := Option.map_eq_some_iff.mp hr
      rcases reserve_some hk hq with ⟨hlt, hno, -⟩ | ⟨-, hfits⟩
      · exact absurd ⟨hlt, hno⟩ href
      · exact hfits
    · intro hfits
      obtain ⟨x', h', hres, hacts⟩ := reserve_spec hw hs.fresh hk hn hok hfits
      refine ⟨_, by rw [hres, Option.map_some], contents_answer hw hx hacts true,
        iff_of_true rfl ⟨x', ?_, ?_⟩⟩
      · rw [answer, State.putFlag, vec_set (lt_of_vec hx), if_pos rfl]
      · rw [hacts.kept.capacity]
        exact le_max_right _ _

/-- The vector appended to itself does when it is empty or refused. -/
theorem told_appendSelf (hw : 0 < w) (hs : Sound w s a lost) (hx : s.vec v = some x)
    (hm : a.vec v = some m) (ok : Bool) :
    Told w onto s v m.values (.append v ok) ↔
      x.size = 0 ∨ x.capacity < appendCount x x ∧ ok = false := by
  have hk := hs.kept_of_vec hx hm
  have hperf : perform w onto s v (.append v ok) =
      (append w ok (x.size + 1) (fun x => x) x s.heap).map (answer s v) := by
    simp only [perform, hx, Option.bind_eq_bind, Option.bind_some, if_true]
  have heffect : effect w s m.values (.append v ok) = some (m.values ++ m.values) := by
    rw [effect, hs.contents_eq hw hx hm, Option.map_some]
  have hun := fun flag => unchanged_of_answer hw hs hx hm flag
  rw [Told, hperf]
  constructor
  · rintro ⟨r, hr, -⟩
    obtain ⟨q, hq, -⟩ := Option.map_eq_some_iff.mp hr
    rcases appendSelf_some hw hs.fresh hk hq with ⟨hlt, hno, -⟩ | ⟨hnil, -⟩
    · exact .inr ⟨hk.capacity ▸ hlt, hno⟩
    · exact .inl (by rw [hk.size, hnil]; rfl)
  · rintro (hz | ⟨hlt, rfl⟩)
    · have hnil : m.elems = [] := List.length_eq_zero_iff.mp (hk.size ▸ hz)
      refine ⟨_, by rw [hz, appendSelf_empty hk hnil, Option.map_some], ?_⟩
      exact tells_both ⟨_, heffect, by rw [hun]; simp [Contents.values, hnil]⟩ (hun true)
    · refine ⟨_, by rw [append_refused (r := fun x => x) hlt, Option.map_some], ?_⟩
      refine (tells_unchanged ?_ (hun false)).mpr rfl
      rintro ⟨qs, hqs, hcon⟩
      rw [heffect] at hqs
      obtain rfl := Option.some.inj hqs
      refine some_ne ?_ (hcon.symm.trans (hun false))
      have hne : x.size ≠ 0 := fun hz => by simp [appendCount, hz, u32] at hlt
      rw [List.length_append, values_length, ← hk.size]
      omega

/-- Another vector appended does when it is refused or has bytes for all. -/
theorem told_append {u : ℕ} {y : Vec} (hw : 0 < w) (hs : Sound w s a lost) (hx : s.vec v = some x)
    (hm : a.vec v = some m) (hy : s.vec u = some y) (hne : u ≠ v) (ok : Bool) :
    Told w onto s v m.values (.append u ok) ↔ x.capacity < appendCount x y ∧ ok = false ∨
      (x.capacity < appendCount x y → ok = true) ∧
      (x.size + y.size) * w ≤ u32 (max x.capacity (appendCount x y) * w) := by
  have hk := hs.kept_of_vec hx hm
  obtain ⟨m', hm', hk'⟩ := hs.exists_model hy
  have hdiff := hs.data_ne hx hy (Ne.symm hne)
  have hperf : perform w onto s v (.append u ok) =
      (append w ok (y.size + 1) (fun _ => y) x s.heap).map (answer s v) := by
    simp only [perform, hx, hy, Option.bind_eq_bind, Option.bind_some, if_neg hne]
  have heffect : effect w s m.values (.append u ok) = some (m.values ++ m'.values) := by
    rw [effect, hs.contents_eq hw hy hm', Option.map_some]
  rw [Told, hperf]
  constructor
  · rintro ⟨r, hr, -⟩
    obtain ⟨q, hq, -⟩ := Option.map_eq_some_iff.mp hr
    cases append_some hw hs.fresh hk hk' hdiff hq with
    | refused hlt hno => exact .inl ⟨hk.capacity ▸ hlt, hno⟩
    | done x' h' hok hfits hacts =>
      rw [hk.capacity, hk.size, hk'.size]
      exact .inr ⟨hok, hfits⟩
  · rintro (⟨hlt, rfl⟩ | ⟨hok, hfits⟩)
    · have hun := unchanged_of_answer hw hs hx hm false
      refine ⟨_, by rw [append_refused (r := fun _ => y) hlt, Option.map_some], ?_⟩
      refine (tells_unchanged ?_ hun).mpr rfl
      rintro ⟨qs, hqs, hcon⟩
      rw [heffect] at hqs
      obtain rfl := Option.some.inj hqs
      refine some_ne ?_ (hcon.symm.trans hun)
      have hne : y.size ≠ 0 := fun hz => by
        have hle : u32 (x.size + 0) ≤ x.size := u32_le _
        have hcap := hk.le hw
        rw [appendCount, hz, hk.capacity] at hlt
        rw [hk.size] at hle hlt
        omega
      rw [List.length_append, values_length, values_length, ← hk'.size]
      omega
    · rw [hk.capacity] at hok hfits
      rw [hk.size, hk'.size] at hfits
      obtain ⟨x', h', hap, hacts⟩ := append_spec hw hs.fresh hk hk' hdiff hok hfits
      have hafter : contents w (answer s v (true, x', h')).1 v = some (m.values ++ m'.values) := by
        rw [contents_answer hw hx hacts, inserted_values]
        simp [← values_length]
      refine ⟨_, by rw [hap, Option.map_some], ?_⟩
      by_cases hun : contents w (answer s v (true, x', h')).1 v = some m.values
      · exact tells_both ⟨_, heffect, hafter⟩ hun
      · exact (tells_performed ⟨_, heffect, hafter⟩ hun).mpr rfl

/-- The elements of a range that there are. -/
theorem items_spec {ys : List (Source V)} (replaced : Prop) [Decidable replaced] (hw : 0 < w)
    (hs : Sound w s a lost) (hx : s.vec v = some x) (hk : Kept w s.heap.pool x m)
    (hp : ∀ y ∈ ys, y.Proper s) :
    ∃ bs asked seen, ys.mapM (item s v) = some bs ∧ ys.mapM (sourceValue w s) = some asked ∧
      List.Forall₂ (fun y e => sight w s v replaced y = some e) ys seen ∧
      List.Forall₂ (Foresees w s.heap x m replaced) bs seen := by
  induction ys with
  | nil => exact ⟨[], [], [], rfl, rfl, .nil, .nil⟩
  | cons y ys ih =>
    obtain ⟨b, z, e, hb, hz, he, hsees⟩ := item_spec replaced hw hs hx hk
      (hp y List.mem_cons_self)
    obtain ⟨bs, asked, seen, hbs, hasked, hseen, hall⟩ :=
      ih fun y' hy' => hp y' (List.mem_cons_of_mem y hy')
    simp only [mapM_eq_some] at hbs hasked ⊢
    exact ⟨b :: bs, z :: asked, e :: seen, .cons hb hbs, .cons hz hasked, .cons he hseen,
      .cons hsees hall⟩

/-- The loop over a range meets the values that were asked for when each stays. -/
theorem collect_asked_iff {ys : List (Source V)} {seen : List (Sight V)} {replaced : Prop}
    [Decidable replaced] (hcon : contents w s v = some zs) (hpos : pos ≤ zs.length)
    (hasked : ys.mapM (sourceValue w s) = some asked)
    (hseen : List.Forall₂ (fun y e => sight w s v replaced y = some e) ys seen) :
    collect (leftIn replaced zs) (zs.drop pos) (zs.take pos) seen = some asked ↔
      ∀ (j : ℕ) (y : Source V), ys[j]? = some y → Stays v replaced zs asked pos ys.length j y := by
  have hlen := mapM_length hasked
  have hall := mapM_eq_some.mp hasked
  rw [collect_eq_some, ← hseen.length_eq]
  have hone : ∀ (j : ℕ) (y : Source V), ys[j]? = some y → ∃ e, seen[j]? = some e ∧
      (e.get (leftIn replaced zs) (zs.take pos ++ asked.take j) (zs.drop pos) (ys.length - j) =
        asked[j]? ↔ Stays v replaced zs asked pos ys.length j y) := by
    intro j y hy
    obtain ⟨hj, rfl⟩ := List.getElem?_eq_some_iff.mp hy
    have hj' : j < seen.length := hseen.length_eq ▸ hj
    have hj'' : j < asked.length := hlen ▸ hj
    refine ⟨seen[j], List.getElem?_eq_getElem hj', ?_⟩
    rw [List.getElem?_eq_getElem hj'']
    exact stays_iff hcon hpos hj hlen (hall.get hj hj'') (hseen.get hj hj')
  constructor
  · rintro ⟨-, hget⟩ j y hy
    obtain ⟨e, he, hiff⟩ := hone j y hy
    exact hiff.mp (hget j e he)
  · refine fun hstays => ⟨hlen, fun j e he => ?_⟩
    have hj : j < ys.length := hseen.length_eq ▸ (List.getElem?_eq_some_iff.mp he).1
    obtain ⟨e', he', hiff⟩ := hone j ys[j] (List.getElem?_eq_getElem hj)
    obtain rfl := Option.some.inj (he.symm.trans he')
    exact hiff.mpr (hstays j _ (List.getElem?_eq_getElem hj))

/-- With a range in the middle the contents are other ones. -/
theorem range_longer {zs qs : List V} (hne : qs.length ≠ 0) :
    (zs.take pos ++ qs ++ zs.drop pos).length ≠ zs.length := by
  simp only [List.length_append, List.length_take, List.length_drop]
  omega

/-- A range is inserted between what is in front of the position and behind it. -/
theorem effect_insertRange {ys : List (Source V)} (hasked : ys.mapM (sourceValue w s) = some asked) :
    effect w s m.values (.insertRange pos ys ok) =
      if m.elems.length < pos then none
      else some (m.values.take pos ++ asked ++ m.values.drop pos) := by
  rw [effect, hasked, values_length, Option.map_some]

/-- Once there is room for a range, what the loop meets decides. -/
theorem told_collect {ys : List (Source V)} {bs : List (Item V)} {seen : List (Sight V)} (hw : 0 < w)
    (hs : Sound w s a lost) (hx : s.vec v = some x) (hm : a.vec v = some m)
    (hbs : ys.mapM (item s v) = some bs) (hasked : ys.mapM (sourceValue w s) = some asked)
    (hall : List.Forall₂ (Foresees w s.heap x m (m.capacity < rangeCount x ys.length)) bs seen)
    (hne : ys ≠ []) (hpos : pos ≤ m.elems.length)
    (hok : m.capacity < rangeCount x ys.length → ok = true)
    (hfits : (m.elems.length + ys.length) * w ≤ u32 (max m.capacity (rangeCount x ys.length) * w)) :
    Told w onto s v m.values (.insertRange pos ys ok) ↔
      collect (leftIn (m.capacity < rangeCount x ys.length) m.values) (m.values.drop pos)
        (m.values.take pos) seen = some asked := by
  have hk := hs.kept_of_vec hx hm
  have hlen : bs.length = ys.length := mapM_length hbs
  have hlong : ys.length ≠ 0 := mt List.length_eq_zero_iff.mp hne
  have hbs' : bs ≠ [] := fun hnil => hlong (by rw [← hlen, hnil]; rfl)
  have hcollect := insertItems_collect seen ok hw hs.fresh hk hpos hbs' (by rwa [hlen])
    (by rwa [hlen]) (by rwa [hlen])
  rw [hlen] at hcollect
  have hperf : perform w onto s v (.insertRange pos ys ok) =
      (insertItems w ok pos bs x s.heap).map (answer s v) := by
    simp only [perform, hx, hbs, Option.bind_eq_bind, Option.bind_some]
  rw [Told, hperf]
  cases hc : collect (leftIn (m.capacity < rangeCount x ys.length) m.values) (m.values.drop pos)
      (m.values.take pos) seen with
  | none =>
    rw [hc] at hcollect
    simp [hcollect]
  | some qs =>
    rw [hc] at hcollect
    obtain ⟨hqs, x', h', hins, hacts⟩ := hcollect
    have hafter : contents w (answer s v (true, x', h')).1 v =
        some (m.values.take pos ++ qs ++ m.values.drop pos) := by
      rw [contents_answer hw hx hacts, inserted_values]
    have hchanged : ¬contents w (answer s v (true, x', h')).1 v = some m.values := fun h =>
      some_ne (range_longer (by rwa [hqs])) (hafter.symm.trans h)
    have hperformed : (∃ rs, effect w s m.values (.insertRange pos ys ok) = some rs ∧
        contents w (answer s v (true, x', h')).1 v = some rs) ↔ qs = asked := by
      rw [effect_insertRange hasked, if_neg (not_lt.mpr hpos), hafter]
      simp [eq_comm]
    have htruth : Truth w s v m.values (.insertRange pos ys ok) (answer s v (true, x', h')) ↔
        qs = asked :=
      ⟨fun h => hperformed.mp (tells_true h),
        fun h => (tells_performed (hperformed.mpr h) hchanged).mpr rfl⟩
    rw [hins, Option.map_some]
    simp only [Option.some.injEq, exists_eq_left', htruth]

/-- A range that is inserted tells the truth where it is honest. -/
theorem told_insertRange {ys : List (Source V)} (hw : 0 < w) (hs : Sound w s a lost)
    (hx : s.vec v = some x) (hm : a.vec v = some m) (hp : ∀ y ∈ ys, y.Proper s) (ok : Bool) :
    Told w onto s v m.values (.insertRange pos ys ok) ↔
      Honest w s v x m.values (.insertRange pos ys ok) := by
  have hk := hs.kept_of_vec hx hm
  have hcon := hs.contents_eq hw hx hm
  have hun := unchanged_of_answer hw hs hx hm false
  obtain ⟨bs, asked, seen, hbs, hasked, hseen, hall⟩ :=
    items_spec (m.capacity < rangeCount x ys.length) hw hs hx hk hp
  have hlen : bs.length = ys.length := mapM_length hbs
  have hnil : bs = [] ↔ ys = [] := by rw [← List.length_eq_zero_iff, hlen, List.length_eq_zero_iff]
  have hperf : perform w onto s v (.insertRange pos ys ok) =
      (insertItems w ok pos bs x s.heap).map (answer s v) := by
    simp only [perform, hx, hbs, Option.bind_eq_bind, Option.bind_some]
  rw [Honest, hk.capacity, hk.size]
  by_cases hempty : ys = []
  · refine iff_of_true ⟨answer s v (false, x, s.heap), ?_, ?_⟩ (.inl hempty)
    · rw [hperf, hnil.mpr hempty, insertItems_nil, Option.map_some]
    · by_cases hpos : m.elems.length < pos
      · exact (tells_unchanged (by simp [effect_insertRange hasked, hpos]) hun).mpr rfl
      · have hzs : asked = [] := by simpa [hempty, eq_comm] using hasked
        refine tells_both ⟨_, by rw [effect_insertRange hasked, if_neg hpos], ?_⟩ hun
        rw [hun, hzs]
        simp
  simp only [hempty, false_or]
  by_cases href : m.capacity < rangeCount x ys.length ∧ ok = false
  · refine iff_of_true ?_ (.inl href)
    obtain ⟨hlt, rfl⟩ := href
    refine ⟨answer s v (false, x, s.heap), ?_, (tells_unchanged ?_ hun).mpr rfl⟩
    · rw [hperf, insertItems_refused (mt hnil.mp hempty) (by rwa [hlen, hk.capacity]),
        Option.map_some]
    · rintro ⟨qs, hqs, hafter⟩
      rw [effect_insertRange hasked] at hqs
      split at hqs
      · simp at hqs
      · obtain rfl := Option.some.inj hqs
        have hlong : asked.length ≠ 0 := by
          rw [mapM_length hasked]
          exact mt List.length_eq_zero_iff.mp hempty
        exact some_ne (range_longer hlong) (hafter.symm.trans hun)
  simp only [href, false_or]
  have hgranted : m.capacity < rangeCount x ys.length → ok = true := fun hlt => by
    simpa [hlt] using href
  have hstay := fun hpos : pos ≤ m.elems.length =>
    collect_asked_iff hcon (hpos.trans_eq (values_length m).symm) hasked hseen
  constructor
  · intro h
    obtain ⟨r, hr, -⟩ := id h
    obtain ⟨q, hq, -⟩ := Option.map_eq_some_iff.mp (hperf.symm.trans hr)
    cases insertItems_some hw hs.fresh hk hq with
    | nothing hno => exact absurd (hnil.mp hno) hempty
    | refused _ hlt hno => exact absurd ⟨hlen ▸ hlt, hno⟩ href
    | done qs x' h' hne hpos hok hfits hqs hacts =>
      rw [hlen] at hfits
      refine ⟨hpos, hgranted, hfits, fun asked' hasked' => ?_⟩
      obtain rfl := Option.some.inj (hasked.symm.trans hasked')
      exact (hstay hpos).mp ((told_collect hw hs hx hm hbs hasked hall hempty hpos hgranted hfits).mp h)
  · rintro ⟨hpos, -, hfits, hstays⟩
    exact (told_collect hw hs hx hm hbs hasked hall hempty hpos hgranted hfits).mpr
      ((hstay hpos).mpr (hstays _ hasked))

/-- A method comes back with a true answer exactly where it is honest. -/
theorem told_iff (hw : 0 < w) (hs : Sound w s a lost) (hx : s.vec v = some x)
    (hm : a.vec v = some m) (hp : meth.Proper s) :
    Told w onto s v m.values meth ↔ Honest w s v x m.values meth := by
  cases meth with
  | pushBack y ok => exact told_pushBack hw hs hx hm hp ok
  | popBack => exact told_popBack hw hs hx hm
  | atPos pos => exact told_atPos hs hx hm
  | insert pos y ok => exact told_insert hw hs hx hm hp.2 ok
  | insertRange pos ys ok => exact told_insertRange hw hs hx hm hp.2 ok
  | append u ok =>
    rw [Honest]
    by_cases huv : u = v
    · rw [if_pos huv, huv]
      exact told_appendSelf hw hs hx hm ok
    · obtain ⟨y, hy⟩ := Option.isSome_iff_exists.mp hp
      rw [if_neg huv, told_append hw hs hx hm hy huv]
      simp [hy]
  | erase pos => exact iff_of_true (told_erase hw hs hx hm) trivial
  | reserve n ok => exact told_reserve hw hs hx hm hp ok

end Methods

section Runs

/-- What lies behind the elements is not part of what vectors keep. -/
theorem Alike.sound (hl : Alike s t) (hs : Sound w s a lost) : Sound w t a lost := by
  have hvec : ∀ u, t.vec u = s.vec u := fun u => by rw [State.vec, State.vec, hl.vectors]
  have hblock : ∀ p, (t.heap.pool.block p).isSome = (s.heap.pool.block p).isSome := fun p => by
    have hp := congrArg Option.isSome (hl.bytes p)
    simpa using hp
  refine ⟨by rw [hl.vectors, hs.length], fun u => ?_, ⟨fun p => ?_, fun p hp => ?_⟩,
    hl.constructed.trans hs.constructed, hl.destroyed.trans hs.destroyed, hs.accounted⟩
  · have hku := hs.kept u
    rw [hvec]
    cases hx : s.vec u with
    | none =>
      rw [hx] at hku
      cases hm : a.vec u <;> rw [hm] at hku <;> exact hku
    | some x =>
      obtain ⟨m, hm, hk⟩ := hs.exists_model hx
      rw [hm]
      refine ⟨hk.size, hk.capacity, hk.lt, hk.fits, hk.buffer.imp id ?_⟩
      rintro ⟨p, b, hp, hb, hbytes, hheld⟩
      obtain ⟨c, hc⟩ : ∃ c, t.heap.pool.block p = some c :=
        Option.isSome_iff_exists.mp (by rw [hblock, hb]; rfl)
      have hcb : c.bytes = b.bytes := by
        have hbp := hl.bytes p
        rw [hc, hb] at hbp
        exact Option.some.inj hbp
      refine ⟨p, c, hp, hc, hcb.trans hbytes, fun k hk' => ?_⟩
      rw [hl.slots u x p b c hx hp hb hc _ (by rw [hk.size]; omega)]
      exact hheld k hk'
  · rw [hl.vectors, hs.owned.once p, hblock]
  · have hnone := hs.fresh p (hl.allocated ▸ hp)
    have hp' := hblock p
    rw [hnone] at hp'
    simpa using hp'

/-- A state is like itself. -/
theorem alike_refl (s : State V) : Alike s s := by
  refine ⟨rfl, fun _ => rfl, fun v x p b c _ _ hb hc i _ => ?_, rfl, rfl, rfl⟩
  rw [Option.some.inj (hb.symm.trans hc)]

/-- Alike states have the same vectors. -/
theorem Alike.vec (hl : Alike s t) (u : ℕ) : t.vec u = s.vec u := by
  rw [State.vec, State.vec, hl.vectors]

/-- They have the same contents. -/
theorem Alike.contents (hw : 0 < w) (hl : Alike s t) (hs : Sound w s a lost) (u : ℕ) :
    contents w t u = contents w s u := by
  cases hx : s.vec u with
  | none => simp [VectorCalls.contents, elements, hl.vec, hx]
  | some x =>
    obtain ⟨m, hm, -⟩ := hs.exists_model hx
    rw [hs.contents_eq hw hx hm, (hl.sound hs).contents_eq hw ((hl.vec u).trans hx) hm]

/-- The same methods can be called, and may be relied on, in two states that are alike. -/
theorem Alike.proper (hl : Alike s t) (hp : meth.Proper s) : meth.Proper t := by
  have href : ∀ y : Ref V, y.Proper s → y.Proper t := by
    rintro (z | ⟨u, i⟩) hy
    · trivial
    · simpa [Ref.Proper, hl.vec] using hy
  have hsource : ∀ y : Source V, y.Proper s → y.Proper t := by
    rintro (y | ⟨u, i⟩) hy
    · exact href y hy
    · simpa [Source.Proper, hl.vec] using hy
  cases meth with
  | pushBack y ok => exact href y hp
  | insert pos y ok => exact ⟨hp.1, href y hp.2⟩
  | insertRange pos ys ok => exact ⟨hp.1, fun y hy => hsource y (hp.2 y hy)⟩
  | append u ok => simpa [Method.Proper, hl.vec] using hp
  | popBack | atPos | erase | reserve => exact hp

/-- A call that is honest in one is so in the other. -/
theorem Alike.honest (hw : 0 < w) (hl : Alike s t) (hs : Sound w s a lost)
    (hh : Honest w s v x zs meth) : Honest w t v x zs meth := by
  have href : ∀ y : Ref V, refValue w t y = refValue w s y := by
    rintro (z | ⟨u, i⟩)
    · rfl
    · rw [refValue, refValue, hl.contents hw hs]
  have hsource : sourceValue w t = sourceValue w s := by
    funext y
    cases y with
    | ref y => exact href y
    | iter u i => exact href (.elem u i)
  cases meth with
  | insertRange pos ys ok => simpa only [Honest, hsource] using hh
  | append u ok => simpa only [Honest, hl.vec] using hh
  | pushBack | insert | popBack | atPos | erase | reserve => exact hh

/-- In any state that calls reach: a method of a vector comes back, leaves what
lies behind elements unread and says the truth in its flag exactly where it is
honest. Elements are added truthfully when the vector is full; `pop_back` and
`at` are truthful when there is nothing to remove or read; `erase` always is. -/
theorem truthful_iff (hw : 0 < w) (hr : Reached w onto calls s) (hx : s.vec v = some x)
    (hp : meth.Proper s) :
    ∃ zs, contents w s v = some zs ∧ (Truthful w onto s v meth ↔ Honest w s v x zs meth) := by
  obtain ⟨a, lost, hs⟩ := hr.sound hw
  obtain ⟨m, hm, -⟩ := hs.exists_model hx
  have hcon := hs.contents_eq hw hx hm
  refine ⟨m.values, hcon, fun h => ?_, fun hh t hl => ?_⟩
  · obtain ⟨zs, r, hzs, hr, htruth⟩ := h s (alike_refl s)
    obtain rfl := Option.some.inj (hcon.symm.trans hzs)
    exact (told_iff hw hs hx hm hp).mp ⟨r, hr, htruth⟩
  · obtain ⟨r, hr, htruth⟩ := (told_iff hw (hl.sound hs) ((hl.vec v).trans hx) hm
      (hl.proper hp)).mpr (hl.honest hw hs hh)
    exact ⟨m.values, r, (hl.contents hw hs v).trans hcon, hr, htruth⟩

/-- A full vector of one element. -/
def fullSeven : List (Call ℕ) := [.construct 1 true, .method 0 (.pushBack (.value 7) true)]

/-- The vector can be built. -/
theorem fullSeven_reached : ∃ s, Reached 4 some fullSeven s ∧ s.vec 0 = some ⟨some 0, 1, 1⟩ :=
  ⟨_, ⟨by simp [fullSeven, Along, Call.Proper, Method.Proper, Ref.Proper], rfl⟩, rfl⟩

/-- A second element is put into a larger buffer, and `push_back` says so. -/
theorem truthful_iff_fullSeven : ∃ s, Reached 4 some fullSeven s ∧
    Truthful 4 some s 0 (.pushBack (.value 8) true) := by
  obtain ⟨s, hs, hx⟩ := fullSeven_reached
  have hproper : (Method.pushBack (.value 8) true).Proper s := trivial
  obtain ⟨zs, -, hiff⟩ := truthful_iff (by decide) hs hx hproper
  exact ⟨s, hs, hiff.mpr ⟨rfl, fun _ => ⟨by decide, by simp⟩⟩⟩

/-- An element is pushed back where there is room, and the answer is false. -/
theorem pushBack_denies : ∃ s, Reached 4 some [Call.construct 1 true] s ∧
    ¬Truthful 4 some s 0 (.pushBack (.value 7) true) := by
  refine ⟨_, ⟨by simp [Along, Call.Proper], rfl⟩, fun h => ?_⟩
  obtain ⟨zs, r, hzs, hr, htruth⟩ := h _ (alike_refl _)
  obtain rfl := Option.some.inj hzs
  obtain rfl := Option.some.inj hr
  exact absurd (tells_false htruth) (by decide)

end Runs

end KernelLib.VectorTruth
