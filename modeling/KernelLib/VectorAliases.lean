import KernelLib.VectorCalls

/-!
# Arguments from the vector itself

An element of the vector is given to `push_back` and `insert` by reference, and
a vector is appended to itself. What the reference leads to when it is read is
said from the contents before the call: a slot that elements were moved over, or
one of a buffer that was freed.
-/

namespace KernelLib.VectorAliases

open PoolBlocks VectorItems VectorMethods VectorModel VectorGaps VectorSteps VectorCalls Word32 StepRuns

variable {V : Type} {w v i pos : ℕ} {s : State V} {a : Model V} {lost : List (Option ℕ)} {x : Vec}
  {h : Heap V} {m : Contents V} {onto : V → Option V} {ok : Bool} {calls : List (Call V)}

/-- What slot `i` gives to a construction in slot `pos`, after the elements from
there on were moved by one slot. -/
def found (onto : V → Option V) (zs : List V) (pos i : ℕ) : Option V :=
  if i < pos then zs[i]? else if i = pos then zs[i]?.bind onto else zs[i - 1]?

/-- A slot in front of the position or behind it is read as it is after the move. -/
theorem valueOf_moved {t : Pool (ℕ × V)} (hi : i < m.elems.length)
    (hpos : pos < m.elems.length) (hne : i ≠ pos)
    (ho : Gap w t x.data (u32 (m.capacity * w)) (m.elems.take pos) (m.elems.drop pos) 1) :
    (h.withPool t).valueOf w (.slot x.data i) = found onto m.values pos i := by
  have htake : (m.elems.take pos).length = pos := List.length_take_of_le hpos.le
  have hdrop : (m.elems.drop pos).length = m.elems.length - pos := List.length_drop
  have hvalues : m.values.length = m.elems.length := List.length_map _
  rcases lt_or_gt_of_ne hne with hlt | hgt
  · rw [ho.reads.valueOf_slot (h := h.withPool t) (by omega), found, if_pos hlt,
      List.getElem?_eq_getElem (by omega)]
    simp [Contents.values]
  · have hread := ho.reads_rest (i - (pos + 1)) (by omega)
    rw [htake, show pos + 1 + (i - (pos + 1)) = i by omega] at hread
    rw [found, if_neg hgt.not_gt, if_neg hne, Heap.valueOf, withPool_pool, hread,
      List.getElem?_eq_getElem (by omega), Option.map_some, List.getElem_drop]
    simp only [Contents.values, List.getElem_map, Option.some.injEq]
    congr 2
    omega

/-- An insertion in place constructs from what it finds then. -/
theorem insertArg_own (onto : V → Option V) (hw : 0 < w) (hf : h.pool.Fresh) (hk : Kept w h.pool x m)
    (hi : i < m.elems.length) (hpos : pos ≤ m.elems.length) (hroom : x.size < x.capacity)
    (hfits : (m.elems.length + 1) * w ≤ u32 (m.capacity * w)) (ok : Bool) :
    (∀ z, found onto m.values pos i = some z → ∃ x' h',
      insertArg w onto ok pos (.slot x.data i) x h = some (false, x', h') ∧
      Acts w h h' x x' (inserted m pos m.capacity h.constructed [z]) 1 []) ∧
    (found onto m.values pos i = none → insertArg w onto ok pos (.slot x.data i) x h = none) := by
  have hvalues : m.values[i]? = some m.elems[i].2 := by
    simp [Contents.values, List.getElem?_eq_getElem hi]
  rcases hpos.eq_or_lt with rfl | hmid
  · have hfound : found onto m.values m.elems.length i = some m.elems[i].2 := by
      rw [found, if_pos hi, hvalues]
    rw [insertArg_end hk, hfound]
    refine ⟨fun z hz => ?_, fun hn => by simp at hn⟩
    refine pushBack_inPlace hw hf hk hroom hfits ?_ ok
    exact (if_pos rfl).mpr ⟨m.elems[i].1, by rw [List.getElem?_eq_getElem hi, ← Option.some.inj hz]⟩
  · obtain ⟨t, hwr, ho, hread, hins⟩ :=
      insertArg_room onto ok (.slot x.data i) hw hk hmid hroom hfits
    rw [hins]
    by_cases hip : i = pos
    · subst hip
      have hval : (h.withPool t).valueOf w (.slot x.data i) = some m.elems[i].2 := by
        simp [Heap.valueOf, hread]
      have hplace : placeOnto w onto i (.slot x.data i) x (h.withPool t) =
          (found onto m.values i i).bind fun z => place w i (.outside z) x (h.withPool t) := by
        rw [placeOnto, if_pos ⟨rfl, rfl⟩, hval, found, if_neg (lt_irrefl i), if_pos rfl, hvalues]
        rfl
      rw [hplace]
      refine ⟨fun z hz => ?_, fun hn => by rw [hn]; rfl⟩
      obtain ⟨x', h', hp, hacts⟩ := place_room (y := .outside z) hw hf hk hpos hwr ho rfl
      exact ⟨x', h', by rw [hz, Option.bind_some, hp]; rfl, hacts⟩
    · rw [placeOnto_eq fun he => hip (by injection he)]
      have hval : (h.withPool t).valueOf w (.slot x.data i) = found onto m.values pos i :=
        valueOf_moved hi hmid hip ho
      refine ⟨fun z hz => ?_, fun hn => ?_⟩
      · obtain ⟨x', h', hp, hacts⟩ := place_room hw hf hk hpos hwr ho (hval.trans hz)
        exact ⟨x', h', by rw [hp]; rfl, hacts⟩
      · simp [place, Heap.construct, hval, hn]

/-- An insertion of an own element comes back from within the block, or refused. -/
theorem insertArg_own_some {r : Bool × Vec × Heap V} (hw : 0 < w) (hf : h.pool.Fresh)
    (hk : Kept w h.pool x m) (hpos : pos ≤ m.elems.length)
    (hr : insertArg w onto ok pos (.slot x.data i) x h = some r) :
    x.size < x.capacity ∧ (m.elems.length + 1) * w ≤ u32 (m.capacity * w) ∨
      ¬x.size < x.capacity ∧ ok = false := by
  cases insertArg_some hw hf hk hpos hr with
  | refused hroom hok => exact .inr ⟨hroom, hok⟩
  | inPlace _ _ _ hroom hfits => exact .inl ⟨hroom, hfits⟩
  | grown _ _ _ _ _ _ hapart => exact absurd rfl (hapart i)

/-- The call comes back with the contents that it gives with a copy of the element
that was taken before. -/
def SameAsCopy (w : ℕ) (onto : V → Option V) (s : State V) (v : ℕ) (method : Ref V → Method V)
    (i : ℕ) : Prop :=
  ∃ zs z r r', contents w s v = some zs ∧ zs[i]? = some z ∧
    perform w onto s v (method (.elem v i)) = some r ∧
    perform w onto s v (method (.value z)) = some r' ∧ contents w r.1 v = contents w r'.1 v

/-- The vector has room, in capacity and in bytes, and the reference leads to an
equal element when it is read; or the vector is full and the pool refuses. -/
def Untouched (w : ℕ) (onto : V → Option V) (ok : Bool) (x : Vec) (zs : List V) (pos i : ℕ) : Prop :=
  x.size < x.capacity ∧ (x.size + 1) * w ≤ u32 (x.capacity * w) ∧ found onto zs pos i = zs[i]? ∨
    x.size = x.capacity ∧ ok = false

/-- The vector appended to itself is there twice, after some number of rounds. -/
def AppendsSelf (w : ℕ) (s : State V) (v : ℕ) (x : Vec) (ok : Bool) : Prop :=
  ∃ zs rounds r, contents w s v = some zs ∧ append w ok rounds (fun x => x) x s.heap = some r ∧
    contents w (answer s v r).1 v = some (zs ++ zs)

theorem perform_insert_own (hx : s.vec v = some x) (ok : Bool) :
    perform w onto s v (.insert pos (.elem v i) ok) =
      (insertArg w onto ok pos (.slot x.data i) x s.heap).map (answer s v) :=
  perform_insert hx (by simp [arg, hx])

/-- Where both are constructed in place, the slot referred to has to give the element. -/
theorem sameAsCopy_inPlace (hw : 0 < w) (hs : Sound w s a lost) (hx : s.vec v = some x)
    (hm : a.vec v = some m) (hi : i < m.elems.length) (hpos : pos ≤ m.elems.length)
    (hroom : x.size < x.capacity) (hfits : (m.elems.length + 1) * w ≤ u32 (m.capacity * w))
    (ok : Bool) :
    SameAsCopy w onto s v (fun y => .insert pos y ok) i ↔
      found onto m.values pos i = m.values[i]? := by
  have hk := hs.kept_of_vec hx hm
  have hf := hs.fresh
  have hcon := hs.contents_eq hw hx hm
  have hvalue : m.values[i]? = some m.elems[i].2 := by
    simp [Contents.values, List.getElem?_eq_getElem hi]
  obtain ⟨hsome, hnone⟩ := insertArg_own onto hw hf hk hi hpos hroom hfits ok
  obtain ⟨x₂, h₂, hins₂, hacts₂⟩ := insertArg_value onto hw hf hk hpos hroom hfits ok m.elems[i].2
  have hcopy : perform w onto s v (.insert pos (.value m.elems[i].2) ok) =
      some (answer s v (false, x₂, h₂)) := by
    rw [perform_insert hx rfl, hins₂, Option.map_some]
  rw [hvalue]
  constructor
  · rintro ⟨zs, z, r, r', hzs, hz, hr, hr', hsame⟩
    obtain rfl := Option.some.inj (hcon.symm.trans hzs)
    obtain rfl := Option.some.inj (hvalue.symm.trans hz)
    obtain rfl := Option.some.inj (hcopy.symm.trans hr')
    rw [perform_insert_own hx] at hr
    cases hfound : found onto m.values pos i with
    | none => simp [hnone hfound] at hr
    | some z' =>
      obtain ⟨x₁, h₁, hins₁, hacts₁⟩ := hsome z' hfound
      rw [hins₁, Option.map_some] at hr
      obtain rfl := Option.some.inj hr
      rw [contents_answer hw hx hacts₁, contents_answer hw hx hacts₂, inserted_values,
        inserted_values] at hsame
      simpa using hsame
  · intro hfound
    obtain ⟨x₁, h₁, hins₁, hacts₁⟩ := hsome _ hfound
    have hown : perform w onto s v (.insert pos (.elem v i) ok) =
        some (answer s v (false, x₁, h₁)) := by
      rw [perform_insert_own hx, hins₁, Option.map_some]
    refine ⟨_, _, _, _, hcon, hvalue, hown, hcopy, ?_⟩
    rw [contents_answer hw hx hacts₁, contents_answer hw hx hacts₂]

/-- Inserting an element of the vector at a position that there is. -/
theorem sameAsCopy_insert_iff (hw : 0 < w) (hs : Sound w s a lost) (hx : s.vec v = some x)
    (hm : a.vec v = some m) (hi : i < x.size) (hpos : pos ≤ x.size) (ok : Bool) :
    SameAsCopy w onto s v (fun y => .insert pos y ok) i ↔ Untouched w onto ok x m.values pos i := by
  have hk := hs.kept_of_vec hx hm
  have hf := hs.fresh
  have hi' : i < m.elems.length := hk.size ▸ hi
  have hpos' : pos ≤ m.elems.length := hk.size ▸ hpos
  -- a call with the element comes back from within the block, or refused
  have hreturns : SameAsCopy w onto s v (fun y => .insert pos y ok) i →
      x.size < x.capacity ∧ (m.elems.length + 1) * w ≤ u32 (m.capacity * w) ∨
        ¬x.size < x.capacity ∧ ok = false := by
    rintro ⟨zs, z, r, r', -, -, hr, -⟩
    rw [perform_insert_own hx] at hr
    obtain ⟨q, hq, -⟩ := Option.map_eq_some_iff.mp hr
    exact insertArg_own_some hw hf hk hpos' hq
  by_cases hroom : x.size < x.capacity
  · by_cases hfits : (m.elems.length + 1) * w ≤ u32 (m.capacity * w)
    · have hbytes : (x.size + 1) * w ≤ u32 (x.capacity * w) := by rwa [hk.size, hk.capacity]
      rw [sameAsCopy_inPlace hw hs hx hm hi' hpos' hroom hfits ok, Untouched]
      simp [hroom, hroom.ne, hbytes]
    · -- the element would not be within the block
      refine ⟨fun h => ?_, fun h => ?_⟩
      · rcases hreturns h with ⟨-, hle⟩ | ⟨hno, -⟩
        · exact absurd hle hfits
        · exact absurd hroom hno
      · rcases h with ⟨-, hle, -⟩ | ⟨heq, -⟩
        · rw [hk.size, hk.capacity] at hle
          exact absurd hle hfits
        · exact absurd hroom heq.not_lt
  · cases ok with
    | false =>
      have hvalue : m.values[i]? = some m.elems[i].2 := by
        simp [Contents.values, List.getElem?_eq_getElem hi']
      refine ⟨fun _ => .inr ⟨hk.full hw hroom, rfl⟩, fun _ =>
        ⟨_, _, (s, false, none), (s, false, none), hs.contents_eq hw hx hm, hvalue, ?_, ?_, rfl⟩⟩
      · rw [perform_insert_own hx, insertArg_refused hw hk hpos' hroom]
        simp [answer, State.putFlag, state_put_self hx]
      · rw [perform_insert hx rfl, insertArg_refused hw hk hpos' hroom]
        simp [answer, State.putFlag, state_put_self hx]
    | true =>
      refine ⟨fun h => ?_, fun h => ?_⟩
      · rcases hreturns h with ⟨hyes, -⟩ | ⟨-, hok⟩
        · exact absurd hyes hroom
        · simp at hok
      · rcases h with ⟨hlt, -⟩ | ⟨-, hok⟩
        · exact absurd hlt hroom
        · simp at hok

/-- A vector that is appended to itself doubles when it is empty. -/
theorem appendsSelf_iff (hw : 0 < w) (hs : Sound w s a lost) (hx : s.vec v = some x)
    (hm : a.vec v = some m) (ok : Bool) : AppendsSelf w s v x ok ↔ x.size = 0 := by
  have hk := hs.kept_of_vec hx hm
  have hcon := hs.contents_eq hw hx hm
  have hself : ∀ flag, (answer s v (flag, x, s.heap)).1 = s := fun _ => state_put_self hx
  have hsize : x.size = 0 ↔ m.values = [] := by simp [hk.size, Contents.values]
  constructor
  · rintro ⟨zs, rounds, r, hzs, hr, htwice⟩
    obtain rfl := Option.some.inj (hcon.symm.trans hzs)
    rcases appendSelf_some hw hs.fresh hk hr with ⟨-, -, rfl⟩ | ⟨hnil, -⟩
    · rw [hself, hcon] at htwice
      exact hsize.mpr (by simpa using htwice)
    · rw [hk.size, hnil]
      rfl
  · intro hz
    have hnil : m.elems = [] := List.length_eq_zero_iff.mp (hk.size ▸ hz)
    refine ⟨_, 1, _, hcon, appendSelf_empty hk hnil ok, ?_⟩
    rw [hself, hcon, hsize.mp hz]
    rfl

/-- It comes back when it is empty or gets no larger buffer. -/
theorem appendSelf_returns_iff (hw : 0 < w) (hs : Sound w s a lost) (hx : s.vec v = some x)
    (hm : a.vec v = some m) (ok : Bool) :
    (∃ rounds r, append w ok rounds (fun x => x) x s.heap = some r) ↔
      x.size = 0 ∨ x.capacity < appendCount x x ∧ ok = false := by
  have hk := hs.kept_of_vec hx hm
  constructor
  · rintro ⟨rounds, r, hr⟩
    rcases appendSelf_some hw hs.fresh hk hr with ⟨hlt, hok, -⟩ | ⟨hnil, -⟩
    · exact .inr ⟨hk.capacity ▸ hlt, hok⟩
    · exact .inl (by simp [hk.size, hnil])
  · rintro (hz | ⟨hlt, rfl⟩)
    · exact ⟨1, _, appendSelf_empty hk (List.length_eq_zero_iff.mp (hk.size ▸ hz)) ok⟩
    · exact ⟨0, _, append_refused hlt 0⟩

/-- In any state that calls reach, an element of the vector can be pushed back or
inserted as if it had been copied before exactly when the buffer stays where it
is, has bytes for one more element, and the slot referred to still gives an equal
element after the move. A vector can be appended to itself when it is empty. -/
theorem own_arguments_iff (hw : 0 < w) (hr : Reached w onto calls s) (hx : s.vec v = some x)
    (ok : Bool) :
    ∃ zs, contents w s v = some zs ∧
      (∀ i < x.size, SameAsCopy w onto s v (fun y => .pushBack y ok) i ↔
        Untouched w onto ok x zs x.size i) ∧
      (∀ i < x.size, ∀ pos ≤ x.size, SameAsCopy w onto s v (fun y => .insert pos y ok) i ↔
        Untouched w onto ok x zs pos i) ∧
      (AppendsSelf w s v x ok ↔ x.size = 0) ∧
      ((∃ rounds r, append w ok rounds (fun x => x) x s.heap = some r) ↔
        x.size = 0 ∨ x.capacity < appendCount x x ∧ ok = false) := by
  obtain ⟨a, lost, hs⟩ := hr.sound hw
  obtain ⟨m, hm, hk⟩ := hs.exists_model hx
  refine ⟨m.values, hs.contents_eq hw hx hm, fun i hi => ?_,
    fun i hi pos hpos => sameAsCopy_insert_iff hw hs hx hm hi hpos ok,
    appendsSelf_iff hw hs hx hm ok, appendSelf_returns_iff hw hs hx hm ok⟩
  have hinsert : SameAsCopy w onto s v (fun y => .insert x.size y ok) i ↔
      Untouched w onto ok x m.values x.size i := sameAsCopy_insert_iff hw hs hx hm hi le_rfl ok
  simpa only [SameAsCopy, perform_pushBack hx hk] using hinsert

/-- A vector of three elements with room for a fourth. -/
def threeOfFour : List (Call ℕ) :=
  [.construct 4 true, .method 0 (.pushBack (.value 7) true),
    .method 0 (.pushBack (.value 8) true), .method 0 (.pushBack (.value 9) true)]

theorem threeOfFour_reached : ∃ s, Reached 4 some threeOfFour s ∧
    s.vec 0 = some ⟨some 0, 4, 3⟩ ∧ contents 4 s 0 = some [7, 8, 9] :=
  ⟨_, ⟨by simp [threeOfFour, Along, Call.Proper, Method.Proper, Ref.Proper], rfl⟩, rfl, rfl⟩

/-- The first element can be inserted in front of the third one, the third one not in front of the
first. -/
theorem own_arguments_iff_threeOfFour : ∃ s, Reached 4 some threeOfFour s ∧
    contents 4 s 0 = some [7, 8, 9] ∧ SameAsCopy 4 some s 0 (fun y => .insert 2 y true) 0 ∧
      ¬SameAsCopy 4 some s 0 (fun y => .insert 0 y true) 2 ∧
      ¬AppendsSelf 4 s 0 ⟨some 0, 4, 3⟩ true := by
  obtain ⟨s, hs, hx, hc⟩ := threeOfFour_reached
  obtain ⟨zs, hzs, -, hinsert, hself, -⟩ := own_arguments_iff (by decide) hs hx true
  obtain rfl : zs = [7, 8, 9] := Option.some.inj (hzs.symm.trans hc)
  refine ⟨s, hs, hc, (hinsert 0 (by decide) 2 (by decide)).mpr (.inl (by decide)), fun h => ?_,
    fun h => absurd (hself.mp h) (by decide)⟩
  rcases (hinsert 2 (by decide) 0 (by decide)).mp h with ⟨-, -, hfound⟩ | ⟨hfull, -⟩
  · exact absurd hfound (by decide)
  · exact absurd hfull (by decide)

/-- A full vector of one element. -/
def fullOne : List (Call ℕ) := [.construct 1 true, .method 0 (.pushBack (.value 7) true)]

/-- The element is read in the buffer that was freed. -/
theorem pushes_freed_element : ∃ s, Reached 4 some fullOne s ∧
    ¬SameAsCopy 4 some s 0 (fun y => .pushBack y true) 0 := by
  refine ⟨_, ⟨by simp [fullOne, Along, Call.Proper, Method.Proper, Ref.Proper], rfl⟩, ?_⟩
  rintro ⟨zs, z, r, r', -, -, hr, -⟩
  cases hr

end KernelLib.VectorAliases
