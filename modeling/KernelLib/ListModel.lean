import Mathlib.Data.List.Perm.Basic
import KernelLib.ListItems

/-!
# Lists as sequences

What the list operations are for: every list is a sequence of items, an
item has one reference for being on a list and one for each holder that
points at it. `append` puts the other sequence in front. A concrete state
represents a model when its heads and entries form the rings of the
sequences and its counters are exact; loose references account for those
an operation has taken and not yet handed on.
-/

namespace KernelLib.ListModel

open LinkedRing ListHeads CountedObjects RefHolder ListItems

variable {T : Type}

/-- Sequences of items, the values of all items ever created, and holders. -/
structure Model (T : Type) where
  /-- The items of each list; a destroyed list has none. -/
  lists : List (Option (List ℕ))
  /-- The value of each item, in the order of their creation. -/
  values : List T
  /-- The pointer of each holder; a destroyed holder has none. -/
  holders : List (Option (Option ℕ))

namespace Model

/-- Before the first list is constructed. -/
def empty : Model T := ⟨[], [], []⟩

/-- The items of a list. -/
def items (a : Model T) (l : ℕ) : List ℕ := ((a.lists[l]?).join).getD []

/-- The items on some list. -/
def linked (a : Model T) : List ℕ := a.lists.flatMap (·.getD [])

/-- The references on an item: its list and its holders. -/
def refs (a : Model T) (i : ℕ) : ℕ := a.linked.count i + held a.holders i

/-- The pointer of a live holder. -/
def ptr (a : Model T) (h : ℕ) : Option (Option ℕ) := (a.holders[h]?).join

/-- Replace the items of one list. -/
def setList (l : ℕ) (xs : Option (List ℕ)) (a : Model T) : Model T :=
  { a with lists := a.lists.set l xs }

/-- A new holder. -/
def newHolder (p : Option ℕ) (a : Model T) : Model T := { a with holders := a.holders ++ [some p] }

/-- Take an item off the list it is on. -/
def unlink (i : ℕ) (a : Model T) : Model T :=
  { a with lists := a.lists.map (Option.map (·.erase i)) }

/-- Push a value whose item was allocated; an invalid value leaves no trace but its name. -/
def push (valid : T → Bool) (place : List ℕ → ℕ → List ℕ) (l : ℕ) (v : T) (a : Model T) : Model T :=
  let i := a.values.length
  let a' := { a with values := a.values ++ [v] }
  if valid v then (a'.setList l (some (place (a.items l) i))).newHolder (some i)
  else a'.newHolder none

/-- The model after an operation. -/
def step (valid : T → Bool) (a : Model T) : Op T → Model T
  | .construct => { a with lists := a.lists ++ [some []] }
  | .destroy l => a.setList l none
  | .clear l => a.setList l (some [])
  | .empty _ => a
  | .pushBack _ none => a.newHolder none
  | .pushBack l (some v) => a.push valid (fun xs i => xs ++ [i]) l v
  | .pushFront _ none => a.newHolder none
  | .pushFront l (some v) => a.push valid (fun xs i => i :: xs) l v
  | .popFront l =>
    match a.items l with
    | [] => a.newHolder none
    | i :: xs => (a.setList l (some xs)).newHolder (some i)
  | .remove _ h =>
    match a.ptr h with
    | some (some i) => a.unlink i
    | _ => a
  | .swap l r => (a.setList l (some (a.items r))).setList r (some (a.items l))
  | .append l r =>
    if l = r then a
    else (a.setList l (some (a.items r ++ a.items l))).setList r (some [])
  | .iterate l keep =>
    { a with holders := a.holders ++ ((a.items l).filter keep).map fun i => some (some i) }
  | .copyHolder r => a.newHolder ((a.ptr r).getD none)
  | .moveHolder r =>
    { a with holders := (a.holders ++ [some ((a.ptr r).getD none)]).set r (some none) }
  | .assignCopy h r =>
    if h = r then a else { a with holders := a.holders.set h (some ((a.ptr r).getD none)) }
  | .assignMove h r =>
    if h = r then a
    else { a with holders := (a.holders.set h (some ((a.ptr r).getD none))).set r (some none) }
  | .destroyHolder h => { a with holders := a.holders.set h none }

/-- What the operation returns. -/
def result (valid : T → Bool) (a : Model T) : Op T → Ret
  | .empty l => .bool (a.items l).isEmpty
  | .pushBack _ v | .pushFront _ v =>
    .holder (if v.any valid then some a.values.length else none)
  | .popFront l => .holder (a.items l).head?
  | .remove _ h => .bool ((a.ptr h).join.any (· ∈ a.linked))
  | .append l r => .bool ((a.items r).isEmpty || l ≠ r)
  | .iterate l _ => .items (a.items l)
  | _ => .void

/-- The list exists. -/
def Alive (a : Model T) (l : ℕ) : Prop := ∃ xs, a.lists[l]? = some (some xs)

/-- The lists and holders an operation names exist. -/
def Ready (a : Model T) : Op T → Prop
  | .construct => True
  | .destroy l | .clear l | .empty l | .pushBack l _ | .pushFront l _ | .popFront l
  | .iterate l _ => a.Alive l
  | .remove l h => a.Alive l ∧ (a.ptr h).isSome
  | .swap l r | .append l r => a.Alive l ∧ a.Alive r
  | .copyHolder r | .moveHolder r | .destroyHolder r => (a.ptr r).isSome
  | .assignCopy h r | .assignMove h r => (a.ptr h).isSome ∧ (a.ptr r).isSome

/-- No item has more references than a counter can tell. -/
def Within (a : Model T) : Prop := ∀ i, a.refs i ≤ maxCount

end Model

/-- The concrete state has the rings of the sequences, exact counters, and as
many loose references as said. -/
structure Represents (s : State T) (a : Model T) (loose : ℕ → ℕ) : Prop where
  rings : ∀ l xs, a.lists[l]? = some (some xs) → Ring s.link (.head l) (xs.map .item)
  gone : ∀ l, (a.lists[l]?).join = none → s.link (.head l) = none
  null : ∀ i e, i ∉ a.linked → s.link (.item i) = some e → e = unlinkedEntry
  alloc : ∀ i, (s.link (.item i)).isSome = (s.store.objs.cell i).isSome
  nodup : a.linked.Nodup
  owned : Owned s.store fun i => a.linked.count i + loose i
  holders : s.store.holders = a.holders
  value : ∀ i c, s.store.objs.cell i = some c → a.values[i]? = some c.value
  created : s.store.objs.created = a.values.length
  lists : s.lists = a.lists.length

section Sequences

variable {a : Model T} {l r k i : ℕ} {xs ys zs : List ℕ}

/-- The items on the other lists. -/
def Model.others (a : Model T) (l : ℕ) : List ℕ := (a.lists.eraseIdx l).flatMap (·.getD [])

theorem items_eq (hl : a.lists[l]? = some (some xs)) : a.items l = xs := by
  simp [Model.items, hl]

theorem linked_perm (hl : a.lists[l]? = some (some xs)) : a.linked.Perm (xs ++ a.others l) := by
  obtain ⟨hlt, he⟩ := List.getElem?_eq_some_iff.mp hl
  have hp := (List.getElem_cons_eraseIdx_perm hlt).flatMap_right (·.getD [])
  rw [List.flatMap_cons, he] at hp
  exact hp.symm

theorem linked_setList_perm (hl : a.lists[l]? = some (some xs)) (y : Option (List ℕ)) :
    (a.setList l y).linked.Perm (y.getD [] ++ a.others l) := by
  obtain ⟨hlt, -⟩ := List.getElem?_eq_some_iff.mp hl
  exact (List.set_perm_cons_eraseIdx hlt y).flatMap_right (·.getD [])

theorem lists_setList (hl : a.lists[l]? = some (some xs)) (y : Option (List ℕ)) (k : ℕ) :
    (a.setList l y).lists[k]? = if k = l then some y else a.lists[k]? := by
  obtain ⟨hlt, -⟩ := List.getElem?_eq_some_iff.mp hl
  by_cases hk : k = l
  · subst hk
    simp [Model.setList, hlt]
  · simp [Model.setList, hk, Ne.symm hk]

theorem mem_linked (hl : a.lists[l]? = some (some xs)) (hi : i ∈ xs) : i ∈ a.linked :=
  (linked_perm hl).mem_iff.mpr (List.mem_append_left _ hi)

theorem exists_of_mem_linked (hi : i ∈ a.linked) :
    ∃ (l : ℕ) (xs : List ℕ), a.lists[l]? = some (some xs) ∧ i ∈ xs := by
  obtain ⟨x, hx, hix⟩ := List.mem_flatMap.mp hi
  cases x with
  | none => cases hix
  | some xs =>
    obtain ⟨l, hl⟩ := List.mem_iff_getElem?.mp hx
    exact ⟨l, xs, hl, hix⟩

/-- An item of one list is on no other. -/
theorem not_mem_of_ne (hnd : a.linked.Nodup) (hl : a.lists[l]? = some (some xs))
    (hk : a.lists[k]? = some (some zs)) (hne : k ≠ l) (hi : i ∈ zs) : i ∉ xs := by
  have hmem : i ∈ a.others l := by
    refine List.mem_flatMap.mpr ⟨some zs, ?_, hi⟩
    exact List.mem_eraseIdx_iff_getElem?.mpr ⟨k, hne, hk⟩
  have hdis := (List.nodup_append.mp ((linked_perm hl).nodup_iff.mp hnd)).2.2
  exact fun hx => hdis i hx i hmem rfl

theorem nodup_items (hnd : a.linked.Nodup) (hl : a.lists[l]? = some (some xs)) : xs.Nodup :=
  (List.nodup_append.mp ((linked_perm hl).nodup_iff.mp hnd)).1

/-- Two lists that share out the same items anew. -/
theorem linked_exchange {us vs : List ℕ} (hl : a.lists[l]? = some (some xs))
    (hr : a.lists[r]? = some (some ys)) (hne : l ≠ r) (hp : (us ++ vs).Perm (xs ++ ys)) :
    ((a.setList l (some us)).setList r (some vs)).linked.Perm a.linked := by
  have hr' : (a.setList l (some us)).lists[r]? = some (some ys) := by
    rw [lists_setList hl, if_neg (Ne.symm hne), hr]
  rw [List.perm_iff_count] at hp ⊢
  intro i
  have h₁ := (linked_perm hl).count_eq i
  have h₂ := (linked_setList_perm hl (some us)).count_eq i
  have h₃ := (linked_perm hr').count_eq i
  have h₄ := (linked_setList_perm hr' (some vs)).count_eq i
  have h₅ := hp i
  simp only [Option.getD_some, List.count_append] at h₁ h₂ h₃ h₄ h₅
  omega

/-- Unlinking an item only changes the list it is on. -/
theorem unlink_eq (hnd : a.linked.Nodup) (hl : a.lists[l]? = some (some (xs ++ i :: ys))) :
    a.unlink i = a.setList l (some (xs ++ ys)) := by
  have hx : i ∉ xs := by
    have hn := nodup_items hnd hl
    exact fun hx => (List.nodup_append.mp hn).2.2 i hx i (by simp) rfl
  have hlists : a.lists.map (Option.map (·.erase i)) = a.lists.set l (some (xs ++ ys)) := by
    obtain ⟨hlt, he⟩ := List.getElem?_eq_some_iff.mp hl
    refine List.ext_getElem (by simp) fun k hk _ => ?_
    rw [List.getElem_map, List.getElem_set]
    split
    · next hkl =>
      subst hkl
      rw [he, Option.map_some, List.erase_append_right _ hx, List.erase_cons_head]
    · next hkl =>
      have hk' : k < a.lists.length := by simpa using hk
      cases hz : a.lists[k] with
      | none => rfl
      | some zs =>
        have hkz : a.lists[k]? = some (some zs) := by rw [List.getElem?_eq_getElem hk', hz]
        have hiz : i ∉ zs := not_mem_of_ne hnd hkz hl hkl (by simp)
        rw [Option.map_some, List.erase_of_not_mem hiz]
  simp only [Model.unlink, Model.setList, hlists]

end Sequences

section Moves

variable {s : State T} {a : Model T} {loose loose' : ℕ → ℕ} {p d : Option ℕ} {l r k : ℕ}
  {xs ys zs : List ℕ}

theorem Represents.congr (h : Represents s a loose) (he : ∀ i, loose' i = loose i) :
    Represents s a loose' := by
  obtain rfl : loose' = loose := funext he
  exact h

/-- Different lists share no entry. -/
theorem Represents.disjoint (h : Represents s a loose) (hl : a.lists[l]? = some (some xs))
    (hk : a.lists[k]? = some (some zs)) (hne : k ≠ l) :
    ∀ c ∈ Addr.head k :: zs.map .item, c ∉ Addr.head l :: xs.map .item := by
  intro c hc hx
  rcases List.mem_cons.mp hc with rfl | hc
  · simp [hne] at hx
  · obtain ⟨i, hi, rfl⟩ := List.mem_map.mp hc
    have hix : i ∈ xs := by simpa using hx
    exact not_mem_of_ne h.nodup hl hk hne hi hix

/-- An item without references is on no list. -/
theorem Represents.not_linked (h : Represents s a loose) {i : ℕ}
    (hi : s.store.objs.cell i = none) : i ∉ a.linked := by
  have hz : a.linked.count i + loose i + held s.store.holders i = 0 := h.owned.dead i hi
  exact fun hx => absurd (List.count_pos_iff.mpr hx) (by omega)

/-- The next item has no references yet. -/
theorem Represents.refs_fresh (h : Represents s a loose) : a.refs a.values.length = 0 := by
  have hz : a.linked.count _ + loose _ + held s.store.holders _ = 0 :=
    h.owned.dead _ (h.owned.fresh _ le_rfl)
  rw [h.created, h.holders] at hz
  simp only [Model.refs]
  omega

/-- A step on items and holders that may delete an item. -/
theorem Represents.evolve {o : Objects T} {hs : List (Option (Option ℕ))}
    (h : Represents s a loose) (hev : Evolves s.store.objs o d)
    (how : Owned ⟨o, hs⟩ fun i => a.linked.count i + loose' i) :
    Represents (s.commit (⟨o, hs⟩, d)) { a with holders := hs } loose' := by
  have hd : ∀ i, d = some i → i ∉ a.linked := by
    rintro i rfl hi
    have hn : o.cell i = none := by simpa using hev.live i
    have hz := how.dead i hn
    exact absurd (List.count_pos_iff.mpr hi) (by simp only at hz; omega)
  have hlink : ∀ c, (∀ i, d = some i → c ≠ .item i) → free d s.link c = s.link c := by
    intro c hc
    cases d with
    | none => rfl
    | some i => exact Function.update_of_ne (hc i rfl) _ _
  have hitem : ∀ j, free d s.link (.item j) = if d = some j then none else s.link (.item j) := by
    intro j
    cases d with
    | none => rfl
    | some i => simp [free, Function.update_apply, eq_comm]
  refine ⟨?_, ?_, ?_, ?_, h.nodup, how, rfl, ?_, hev.created.trans h.created, h.lists⟩
  · intro l xs hl
    refine (h.rings l xs hl).congr fun c hc => hlink c ?_
    rintro i hi rfl
    exact hd i hi (mem_linked hl (by simpa using hc))
  · intro l hl
    change free d s.link (.head l) = none
    rw [hlink _ (by simp)]
    exact h.gone l hl
  · intro i e hi he
    change free d s.link (.item i) = some e at he
    rw [hitem] at he
    split at he
    · cases he
    · exact h.null i e hi he
  · intro i
    change (free d s.link (.item i)).isSome = (o.cell i).isSome
    rw [hitem, hev.live]
    split
    · next hx => simp [hx]
    · next hx => simp [hx, h.alloc]
  · intro i c hc
    obtain ⟨c', hc', hv⟩ := hev.keeps i c hc
    rw [hv]
    exact h.value i c' hc'

/-- A step on items alone. -/
theorem Represents.evolve_objs {o : Objects T} (h : Represents s a loose)
    (hev : Evolves s.store.objs o d)
    (how : Owned { s.store with objs := o } fun i => a.linked.count i + loose' i) :
    Represents (s.commit ({ s.store with objs := o }, d)) a loose' := by
  have ha : ({ a with holders := s.store.holders } : Model T) = a := by rw [h.holders]
  exact ha ▸ h.evolve hev how

/-- References by the holders of either side. -/
theorem Represents.refs_eq (h : Represents s a loose) (i : ℕ) :
    a.linked.count i + loose i + held s.store.holders i = a.refs i + loose i := by
  rw [h.holders, Model.refs]
  omega

/-- Retaining through a pointer to a referenced item. -/
theorem Represents.retain (h : Represents s a loose)
    (hp : ∀ i, p = some i → 0 < a.refs i + loose i) :
    ∃ o, retainPtr p s.store.objs = some o ∧
      Represents { s with store := { s.store with objs := o } } a
        fun i => loose i + points p i := by
  obtain ⟨o, hr, hev, how⟩ := retainPtr_spec (p := p) h.owned fun i hi => by
    rw [h.refs_eq]
    exact hp i hi
  exact ⟨o, hr, h.evolve_objs hev (how.congr fun i => by ring)⟩

/-- Releasing a loose reference. -/
theorem Represents.release (h : Represents s a fun i => loose i + points p i)
    (hm : ∀ i, p = some i → a.refs i + loose i ≤ maxCount) :
    ∃ s', s.release p = some s' ∧ Represents s' a loose := by
  have how : Owned s.store fun i => a.linked.count i + loose i + points p i :=
    h.owned.congr fun i => by ring
  obtain ⟨o, hr, hev, how'⟩ := releasePtr_spec how fun i hi => by
    have hle := hm i hi
    rw [Model.refs] at hle
    rw [h.holders]
    omega
  exact ⟨_, by simp only [State.release, hr, Option.map_some], h.evolve_objs hev how'⟩

/-- A new holder for a referenced item. -/
theorem Represents.returnHolder (h : Represents s a loose)
    (hp : ∀ i, p = some i → 0 < a.refs i + loose i) :
    ∃ s', s.returnHolder p = some (s', .holder p) ∧ Represents s' (a.newHolder p) loose := by
  obtain ⟨o, hc, hev, how⟩ := construct_spec (p := p) h.owned fun i hi => by
    rw [h.refs_eq]
    exact hp i hi
  have hrep := h.evolve hev how
  rw [h.holders] at hrep
  exact ⟨_, by simp only [State.returnHolder, hc, Option.map_some, ← h.holders]; rfl, hrep⟩

/-- A new item has one loose reference. -/
theorem Represents.newItem (h : Represents s a loose) (v : T) :
    Represents (s.newItem v) { a with values := a.values ++ [v] }
      fun i => loose i + points (some a.values.length) i := by
  have hfresh : s.store.objs.cell s.store.objs.created = none := h.owned.fresh _ le_rfl
  have hnot := h.not_linked hfresh
  have hlink : ∀ c, c ≠ .item s.store.objs.created → (s.newItem v).link c = s.link c :=
    fun c hc => Function.update_of_ne hc _ _
  constructor
  case rings =>
    intro l xs hl
    refine (h.rings l xs hl).congr fun c hc => hlink c ?_
    rintro rfl
    exact hnot (mem_linked hl (by simpa using hc))
  case gone => exact fun l hl => (hlink _ (by simp)).trans (h.gone l hl)
  case null =>
    intro i e hi he
    by_cases hx : i = s.store.objs.created
    · subst hx
      simpa [State.newItem, eq_comm] using he
    · rw [hlink _ (by simpa using hx)] at he
      exact h.null i e hi he
  case alloc =>
    intro i
    change _ = ((s.store.objs.create v).cell i).isSome
    rw [create_cell]
    by_cases hx : i = s.store.objs.created
    · subst hx
      simp [State.newItem]
    · rw [hlink _ (by simpa using hx), if_neg hx, h.alloc]
  case nodup => exact h.nodup
  case owned =>
    refine (h.owned.create v).congr fun i => ?_
    rw [h.created, ← points_some]
    simp only [State.newItem]
    change a.linked.count i + _ + _ = _
    ring
  case holders => exact h.holders
  case value =>
    intro i c hc
    change (s.store.objs.create v).cell i = some c at hc
    rw [create_cell] at hc
    split at hc
    · next hx =>
      rw [hx, h.created, ← Option.some.inj hc]
      simp
    · rw [List.getElem?_append_left]
      · exact h.value i c hc
      · exact (List.getElem?_eq_some_iff.mp (h.value i c hc)).1
  case created =>
    change s.store.objs.created + 1 = _
    rw [h.created, List.length_append]
    rfl
  case lists => exact h.lists

/-- One list is relinked: entries it loses are nulled, entries it gains were
on no list, and the references of its items are passed on. -/
theorem Represents.setList (h : Represents s a loose) (hl : a.lists[l]? = some (some xs))
    {m : Links Addr} (hring : Ring m (.head l) (ys.map .item))
    (hsame : ∀ c, c ∉ Addr.head l :: (xs ++ ys).map .item → m c = s.link c)
    (halloc : ∀ c, (m c).isSome = (s.link c).isSome)
    (hnull : ∀ i ∈ xs, i ∉ ys → m (.item i) = some unlinkedEntry)
    (hnew : ∀ i ∈ ys, i ∈ xs ∨ i ∉ a.linked)
    (hloose : ∀ i, ys.count i + loose' i = xs.count i + loose i) :
    Represents { s with link := m } (a.setList l (some ys)) loose' := by
  have hlists := lists_setList hl (some ys)
  have hold := linked_perm hl
  have hnow := linked_setList_perm hl (some ys)
  rw [Option.getD_some] at hnow
  have hnd := List.nodup_append.mp (hold.nodup_iff.mp h.nodup)
  have hys : ys.Nodup := (List.nodup_cons.mp hring.nodup).2.of_map _
  constructor
  case rings =>
    intro k zs hk
    rw [hlists] at hk
    split at hk
    · next hkl =>
      cases hk
      exact hkl ▸ hring
    · next hkl =>
      refine (h.rings k zs hk).congr fun c hc => hsame c ?_
      have hd := h.disjoint hl hk hkl c hc
      rw [List.map_append, List.mem_cons, List.mem_append]
      rintro (hx | hx | hx)
      · exact hd (hx ▸ List.mem_cons_self)
      · exact hd (List.mem_cons_of_mem _ hx)
      · obtain ⟨i, hi, rfl⟩ := List.mem_map.mp hx
        have hiz : i ∈ zs := by simpa using hc
        rcases hnew i hi with hx | hx
        · exact not_mem_of_ne h.nodup hl hk hkl hiz hx
        · exact hx (mem_linked hk hiz)
  case gone =>
    intro k hk
    rw [hlists] at hk
    split at hk
    · cases hk
    · next hkl => exact (hsame _ (by simpa using hkl)).trans (h.gone k hk)
  case null =>
    intro i e hi he
    change m (.item i) = some e at he
    rw [hnow.mem_iff, List.mem_append, not_or] at hi
    by_cases hx : i ∈ xs
    · rw [hnull i hx hi.1] at he
      exact (Option.some.inj he).symm
    · rw [hsame _ (by simp [hx, hi.1])] at he
      refine h.null i e ?_ he
      rw [hold.mem_iff, List.mem_append]
      exact not_or.mpr ⟨hx, hi.2⟩
  case alloc => exact fun i => (halloc _).trans (h.alloc i)
  case nodup =>
    rw [hnow.nodup_iff]
    refine hys.append hnd.2.1 ?_
    intro i hi ho
    rcases hnew i hi with hx | hx
    · exact hnd.2.2 i hx i ho rfl
    · exact hx (hold.mem_iff.mpr (List.mem_append_right _ ho))
  case owned =>
    refine h.owned.congr fun i => ?_
    have h₁ := hold.count_eq i
    have h₂ := hnow.count_eq i
    have h₃ := hloose i
    rw [List.count_append] at h₁ h₂
    omega
  case holders => exact h.holders
  case value => exact h.value
  case created => exact h.created
  case lists =>
    rw [Model.setList, List.length_set]
    exact h.lists

/-- Two lists share out their items anew. -/
theorem Represents.exchange (h : Represents s a loose) {us vs : List ℕ}
    (hl : a.lists[l]? = some (some xs)) (hr : a.lists[r]? = some (some ys)) (hne : l ≠ r)
    {m : Links Addr} (hring : Ring m (.head l) (us.map .item))
    (hring' : Ring m (.head r) (vs.map .item)) (hp : (us ++ vs).Perm (xs ++ ys))
    (hf : Frame s.link m (.head l :: .head r :: (xs.map .item ++ ys.map .item))) :
    Represents { s with link := m } ((a.setList l (some us)).setList r (some vs)) loose := by
  have hperm := linked_exchange hl hr hne hp
  have hr' : (a.setList l (some us)).lists[r]? = some (some ys) := by
    rw [lists_setList hl, if_neg (Ne.symm hne), hr]
  have hlists : ∀ k, ((a.setList l (some us)).setList r (some vs)).lists[k]? =
      if k = r then some (some vs) else if k = l then some (some us) else a.lists[k]? := by
    intro k
    rw [lists_setList hr', lists_setList hl]
  constructor
  case rings =>
    intro k zs hk
    rw [hlists] at hk
    split at hk
    · next hkr =>
      cases hk
      exact hkr ▸ hring'
    split at hk
    · next hkl =>
      cases hk
      exact hkl ▸ hring
    · next hkr hkl =>
      refine (h.rings k zs hk).frame hf fun c hc => ?_
      have hd := h.disjoint hl hk hkl c hc
      have hd' := h.disjoint hr hk hkr c hc
      simp only [List.mem_cons, List.mem_append, not_or] at hd hd' ⊢
      exact ⟨hd.1, hd'.1, hd.2, hd'.2⟩
  case gone =>
    intro k hk
    rw [hlists] at hk
    split at hk
    · cases hk
    split at hk
    · cases hk
    · next hkr hkl => exact (hf.same _ (by simp [hkl, hkr])).trans (h.gone k hk)
  case null =>
    intro i e hi he
    change m (.item i) = some e at he
    rw [hperm.mem_iff] at hi
    rw [hf.same] at he
    · exact h.null i e hi he
    · have hx : i ∉ xs := fun hx => hi (mem_linked hl hx)
      have hy : i ∉ ys := fun hy => hi (mem_linked hr hy)
      simp [hx, hy]
  case alloc => exact fun i => (hf.alloc _).trans (h.alloc i)
  case nodup => exact hperm.nodup_iff.mpr h.nodup
  case owned => exact h.owned.congr fun i => by rw [hperm.count_eq]
  case holders => exact h.holders
  case value => exact h.value
  case created => exact h.created
  case lists =>
    simp only [Model.setList, List.length_set]
    exact h.lists

end Moves

end KernelLib.ListModel
