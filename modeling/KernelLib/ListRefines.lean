import KernelLib.ListModel
import KernelLib.StepRuns

/-!
# The list refines its sequence model

Every operation, run in a state that represents a model, does not fail,
returns what the model says and leaves a state that represents the model
after it, as long as no item gets more references than its counter can
tell. The loops of `clear` and of an iteration carry the part of the list
that is left. Runs follow by induction.
-/

namespace KernelLib.ListRefines

open LinkedRing ListHeads CountedObjects RefHolder ListItems ListModel StepRuns

variable {T : Type} {valid : T → Bool} {s : State T} {a : Model T} {l r : ℕ} {xs ys : List ℕ}

/-- No loose references. -/
def settled : ℕ → ℕ := fun _ => 0

section Growing

/-- A new list is empty. -/
theorem constructList_spec (h : Represents s a settled) :
    ∃ s', step valid s .construct = some (s', .void) ∧
      Represents s' { a with lists := a.lists ++ [some []] } settled := by
  have hlen := h.lists
  obtain ⟨m, hm, hring, hf⟩ := initializeListHead_spec
    (m := Function.update s.link (.head s.lists) (some unlinkedEntry)) (h := .head s.lists) (by simp)
  have hsame : ∀ c, c ≠ .head s.lists → m c = s.link c := fun c hc => by
    rw [hf.same c (by simpa using hc), Function.update_of_ne hc]
  have hlinked : ({ a with lists := a.lists ++ [some []] } : Model T).linked = a.linked := by
    simp [Model.linked]
  refine ⟨{ s with link := m, lists := s.lists + 1 }, by simp [step, hm], ?_⟩
  constructor
  case rings =>
    intro k zs hk
    rw [List.getElem?_append] at hk
    split at hk
    · next hlt =>
      refine (h.rings k zs hk).congr fun c hc => hsame c ?_
      rintro rfl
      have hx : s.lists = k := by simpa using hc
      omega
    · next hge =>
      obtain ⟨hk0, hzs⟩ : k - a.lists.length = 0 ∧ zs = [] := by
        simpa [List.getElem?_singleton, eq_comm] using hk
      have hkl : k = s.lists := by omega
      rw [hkl, hzs]
      exact hring
  case gone =>
    intro k hk
    have hne : k ≠ a.lists.length := by
      rintro rfl
      simp at hk
    refine (hsame _ (by simpa [hlen] using hne)).trans (h.gone k ?_)
    rw [List.getElem?_append] at hk
    split at hk
    · exact hk
    · next hge => simp [List.getElem?_eq_none (by omega : a.lists.length ≤ k)]
  case null =>
    intro i e hi he
    rw [hlinked] at hi
    exact h.null i e hi ((hsame _ (by simp)).symm.trans he)
  case alloc => exact fun i => by rw [← h.alloc i, ← hsame _ (by simp)]
  case nodup => exact hlinked ▸ h.nodup
  case owned => exact h.owned.congr fun i => by rw [hlinked]
  case holders => exact h.holders
  case value => exact h.value
  case created => exact h.created
  case lists => simp [h.lists]

/-- A null holder for the caller. -/
theorem returnNull_spec (h : Represents s a settled) :
    ∃ s', s.returnHolder none = some (s', .holder none) ∧ Represents s' (a.newHolder none) settled :=
  h.returnHolder (by simp)

/-- A new item goes into the ring of its list. -/
theorem insert_spec {i : ℕ} (h : Represents s a fun j => settled j + points (some i) j)
    (hl : a.lists[l]? = some (some xs)) (hi : i ∉ a.linked) (hys : ys.Perm (i :: xs))
    {m : Links Addr} (hring : Ring m (.head l) (ys.map .item))
    (hf : Frame s.link m (.item i :: .head l :: xs.map .item)) :
    ∃ s', { s with link := m }.returnHolder (some i) = some (s', .holder (some i)) ∧
      Represents s' ((a.setList l (some ys)).newHolder (some i)) settled := by
  have hset : Represents { s with link := m } (a.setList l (some ys)) settled := by
    refine h.setList hl hring (fun c hc => hf.same c fun hx => hc ?_) hf.alloc ?_ ?_ ?_
    · have hiy : i ∈ ys := hys.mem_iff.mpr List.mem_cons_self
      rw [List.map_append, List.mem_cons, List.mem_append]
      simp only [List.mem_cons] at hx
      rcases hx with rfl | hx | hx
      · exact .inr (.inr (List.mem_map_of_mem hiy))
      · exact .inl hx
      · exact .inr (.inl hx)
    · exact fun j hj hn => absurd (hys.mem_iff.mpr (List.mem_cons_of_mem _ hj)) hn
    · intro j hj
      rcases List.mem_cons.mp (hys.mem_iff.mp hj) with rfl | hj
      · exact .inr hi
      · exact .inl hj
    · intro j
      rw [hys.count_eq, List.count_cons]
      simp [settled, points]
  refine hset.returnHolder ?_
  rintro j hj
  have hmem : i ∈ (a.setList l (some ys)).linked :=
    mem_linked (by rw [lists_setList hl, if_pos rfl]) (hys.mem_iff.mpr List.mem_cons_self)
  have hpos := List.count_pos_iff.mpr hmem
  rw [← Option.some.inj hj]
  simp only [Model.refs]
  omega

/-- Both pushes, given the ring their insertion makes. -/
theorem push_spec {insert : Addr → Addr → Links Addr → Option (Links Addr)}
    {place : List ℕ → ℕ → List ℕ} (h : Represents s a settled) (hl : a.lists[l]? = some (some xs))
    (hplace : ∀ i, (place xs i).Perm (i :: xs))
    (hinsert : ∀ m i, Ring m (.head l) (xs.map .item) → (m (.item i)).isSome → i ∉ xs →
      ∃ m', insert (.head l) (.item i) m = some m' ∧
        Ring m' (.head l) ((place xs i).map .item) ∧
        Frame m m' (.item i :: .head l :: xs.map .item)) (v : T) :
    ∃ s', push insert valid l (some v) s =
        some (s', .holder (if valid v then some a.values.length else none)) ∧
      Represents s' (a.push valid place l v) settled := by
  have hitem := h.newItem v
  have hfresh := h.not_linked (h.owned.fresh _ le_rfl)
  rw [h.created] at hfresh
  by_cases hv : valid v
  · obtain ⟨m, hm, hring, hf⟩ := hinsert (s.newItem v).link a.values.length
      (hitem.rings l xs hl) (by simp [State.newItem, h.created]) fun hx => hfresh (mem_linked hl hx)
    obtain ⟨s', hs', hrep⟩ := insert_spec hitem hl hfresh (hplace _) hring hf
    refine ⟨s', ?_, ?_⟩
    · simp [push, hv, h.created, hm, hs']
    · simpa [Model.push, hv, items_eq hl] using hrep
  · obtain ⟨s₁, hs₁, hrep₁⟩ := hitem.release (by
      rintro i hi
      rw [← Option.some.inj hi]
      exact h.refs_fresh.trans_le (Nat.zero_le _))
    obtain ⟨s', hs', hrep⟩ := returnNull_spec hrep₁
    refine ⟨s', ?_, ?_⟩
    · simp [push, hv, h.created, hs₁, hs']
    · simpa [Model.push, hv] using hrep

/-- `push_back` appends an item for a valid element. -/
theorem pushBack_spec (valid : T → Bool) (h : Represents s a settled)
    (hl : a.lists[l]? = some (some xs)) (v : T) :
    ∃ s', pushBack valid l (some v) s =
        some (s', .holder (if valid v then some a.values.length else none)) ∧
      Represents s' (a.push valid (fun xs i => xs ++ [i]) l v) settled := by
  refine push_spec h hl (fun i => List.perm_append_singleton i xs) (fun m i hr hi hx => ?_) v
  rw [List.map_append]
  exact insertTailList_spec hr hi (by simpa using hx)

/-- `push_front` puts one in front. -/
theorem pushFront_spec (valid : T → Bool) (h : Represents s a settled)
    (hl : a.lists[l]? = some (some xs)) (v : T) :
    ∃ s', pushFront valid l (some v) s =
        some (s', .holder (if valid v then some a.values.length else none)) ∧
      Represents s' (a.push valid (fun xs i => i :: xs) l v) settled := by
  refine push_spec h hl (fun i => .refl _) (fun m i hr hi hx => ?_) v
  exact insertHeadList_spec hr hi (by simpa using hx)

end Growing

section Shrinking

/-- An item that leaves its list has its pointers nulled and its reference loose. -/
theorem unlinked_spec {i : ℕ} {us vs : List ℕ} {m m' : Links Addr} (h : Represents s a settled)
    (hl : a.lists[l]? = some (some (us ++ i :: vs)))
    (hring : Ring m (.head l) ((us ++ vs).map .item)) (hsome : m (.item i) = s.link (.item i))
    (hf : Frame s.link m (.head l :: (us ++ vs).map .item)) (hn : nullEntry (.item i) m = some m') :
    Represents { s with link := m' } (a.setList l (some (us ++ vs)))
      fun j => settled j + points (some i) j := by
  have hsome' : (m (.item i)).isSome := by
    rw [hsome]
    exact (h.rings l _ hl).isSome (by simp)
  obtain ⟨m'', hm'', hnull, hf'⟩ := nullEntry_spec hsome'
  obtain rfl : m'' = m' := Option.some.inj (hm''.symm.trans hn)
  have hi : i ∉ us ++ vs := by
    have hnd := nodup_items h.nodup hl
    exact (List.nodup_cons.mp (List.perm_middle.nodup_iff.mp hnd)).1
  have hring' : Ring m'' (.head l) ((us ++ vs).map .item) := hring.frame hf' fun c hc hx => by
    rw [List.mem_singleton.mp hx] at hc
    exact hi (by simpa using hc)
  refine h.setList hl hring' ?_ ?_ ?_ ?_ ?_
  · intro c hc
    have hc' : c ∉ Addr.head l :: (us ++ vs).map .item ∧ c ≠ .item i := by
      simp only [List.map_append, List.map_cons, List.mem_cons, List.mem_append, not_or] at hc ⊢
      tauto
    rw [hf'.same c (by simpa using hc'.2), hf.same c hc'.1]
  · exact fun c => (hf'.alloc c).trans (hf.alloc c)
  · intro j hj hn
    have hji : j = i := by
      simp only [List.mem_append, List.mem_cons, not_or] at hj hn
      tauto
    rw [hji, hnull]
  · exact fun j hj => .inl (List.perm_middle.mem_iff.mpr (List.mem_cons_of_mem _ hj))
  · intro j
    rw [List.perm_middle.count_eq, List.count_cons]
    simp [settled, points, add_comm]

/-- `takeFirst` takes the first item. -/
theorem takeFirst_spec {i : ℕ} (h : Represents s a settled)
    (hl : a.lists[l]? = some (some (i :: xs))) :
    ∃ m, takeFirst l s.link = some (i, m) ∧
      Represents { s with link := m } (a.setList l (some xs))
        fun j => settled j + points (some i) j := by
  have hring := h.rings l _ hl
  obtain ⟨m, hm, hr, hsame, hf⟩ := removeHeadList_spec hring
  have hsome : (m (.item i)).isSome := by
    rw [hsame]
    exact hring.isSome (by simp)
  obtain ⟨m', hm', -, -⟩ := nullEntry_spec hsome
  have hl' : a.lists[l]? = some (some ([] ++ i :: xs)) := hl
  refine ⟨m', ?_, unlinked_spec h hl' hr hsame hf hm'⟩
  simp [takeFirst, hm, Addr.record, hm']

/-- `pop_front` takes the first item. -/
theorem popFront_spec (h : Represents s a settled) (hl : a.lists[l]? = some (some xs))
    (hw : (a.step valid (.popFront l)).Within) :
    ∃ s', popFront l s = some (s', a.result valid (.popFront l)) ∧
      Represents s' (a.step valid (.popFront l)) settled := by
  have hempty := isListEmpty_spec (h.rings l xs hl)
  cases xs with
  | nil =>
    obtain ⟨s', hs', hrep⟩ := returnNull_spec h
    refine ⟨s', ?_, ?_⟩
    · simp [popFront, hempty, hs', Model.result, items_eq hl]
    · simpa [Model.step, items_eq hl] using hrep
  | cons i xs =>
    obtain ⟨m, hm, hrep⟩ := takeFirst_spec h hl
    obtain ⟨s₁, hs₁, hrep₁⟩ := hrep.returnHolder (p := some i) (by simp [settled, points])
    have hstep : a.step valid (.popFront l) = (a.setList l (some xs)).newHolder (some i) := by
      simp [Model.step, items_eq hl]
    rw [hstep] at hw ⊢
    obtain ⟨s₂, hs₂, hrep₂⟩ := hrep₁.release fun j _ => hw j
    refine ⟨s₂, ?_, hrep₂⟩
    simp [popFront, hempty, hm, hs₁, hs₂, Model.result, items_eq hl]

/-- One round of `clear` takes the first item off; the rest follows. -/
theorem clearLoop_spec (n : ℕ) (h : Represents s a settled) (hl : a.lists[l]? = some (some xs))
    (hn : xs.length < n) (hw : a.Within) :
    ∃ s', clearLoop l n s = some s' ∧ Represents s' (a.setList l (some [])) settled := by
  induction n generalizing s a xs with
  | zero => omega
  | succ n ih =>
    have hempty := isListEmpty_spec (h.rings l xs hl)
    cases xs with
    | nil =>
      refine ⟨s, by simp [clearLoop, hempty], ?_⟩
      have hset : a.setList l (some []) = a := by
        obtain ⟨hlt, he⟩ := List.getElem?_eq_some_iff.mp hl
        simp only [Model.setList, ← he, List.set_getElem_self]
      rwa [hset]
    | cons i xs =>
      obtain ⟨m, hm, hrep⟩ := takeFirst_spec h hl
      have hl' : (a.setList l (some xs)).lists[l]? = some (some xs) := by
        rw [lists_setList hl, if_pos rfl]
      have hw' : (a.setList l (some xs)).Within := by
        intro j
        have h₁ := (linked_perm hl).count_eq j
        have h₂ := (linked_setList_perm hl (some xs)).count_eq j
        have h₃ := hw j
        simp only [Option.getD_some, List.count_append, List.count_cons] at h₁ h₂
        simp only [Model.refs, Model.setList] at h₁ h₂ h₃ ⊢
        omega
      obtain ⟨s₁, hs₁, hrep₁⟩ := hrep.release fun j _ => hw' j
      have hlen : xs.length < n := by simpa using hn
      obtain ⟨s', hs', hrep'⟩ := ih hrep₁ hl' hlen hw'
      refine ⟨s', by simp [clearLoop, hempty, hm, hs₁, hs'], ?_⟩
      simpa [Model.setList] using hrep'

/-- A list has at most as many items as were created. -/
theorem length_le_created (h : Represents s a settled) (hl : a.lists[l]? = some (some xs)) :
    xs.length ≤ s.store.objs.created := by
  have hsub : xs ⊆ List.range s.store.objs.created := by
    intro i hi
    rw [List.mem_range]
    by_contra hn
    exact h.not_linked (h.owned.fresh i (by omega)) (mem_linked hl hi)
  simpa using (List.subperm_of_subset (nodup_items h.nodup hl) hsub).length_le

/-- `clear` deletes all items. -/
theorem clear_spec (h : Represents s a settled) (hl : a.lists[l]? = some (some xs))
    (hw : a.Within) :
    ∃ s', clear l s = some s' ∧ Represents s' (a.setList l (some [])) settled :=
  clearLoop_spec _ h hl (Nat.lt_succ_of_le (length_le_created h hl)) hw

/-- A destroyed list leaves no head. -/
theorem destroyList_spec (h : Represents s a settled) (hl : a.lists[l]? = some (some xs))
    (hw : a.Within) :
    ∃ s', step valid s (.destroy l) = some (s', .void) ∧
      Represents s' (a.setList l none) settled := by
  obtain ⟨s₁, hs₁, h₁⟩ := clear_spec h hl hw
  refine ⟨{ s₁ with link := Function.update s₁.link (.head l) none }, by simp [step, hs₁], ?_⟩
  have hl₁ : (a.setList l (some [])).lists[l]? = some (some []) := by
    rw [lists_setList hl, if_pos rfl]
  have hsame : ∀ c, c ≠ .head l → Function.update s₁.link (.head l) none c = s₁.link c :=
    fun c hc => Function.update_of_ne hc _ _
  have hlists := lists_setList hl none
  have hlinked : (a.setList l none).linked.Perm (a.setList l (some [])).linked :=
    (linked_setList_perm hl none).trans (linked_setList_perm hl (some [])).symm
  constructor
  case rings =>
    intro k zs hk
    rw [hlists] at hk
    split at hk
    · cases hk
    · next hne =>
      have hk₁ : (a.setList l (some [])).lists[k]? = some (some zs) := by
        rw [lists_setList hl, if_neg hne, hk]
      refine (h₁.rings k zs hk₁).congr fun c hc => hsame c ?_
      rintro rfl
      exact hne (by simpa [eq_comm] using hc)
  case gone =>
    intro k hk
    by_cases hne : k = l
    · simp [hne]
    · refine (hsame _ (by simpa using hne)).trans (h₁.gone k ?_)
      rw [hlists, if_neg hne] at hk
      rw [lists_setList hl, if_neg hne, hk]
  case null =>
    intro i e hi he
    rw [hlinked.mem_iff] at hi
    exact h₁.null i e hi ((hsame _ (by simp)).symm.trans he)
  case alloc => exact fun i => by rw [← h₁.alloc i, ← hsame _ (by simp)]
  case nodup => exact hlinked.nodup_iff.mpr h₁.nodup
  case owned => exact h₁.owned.congr fun i => by rw [hlinked.count_eq]
  case holders => exact h₁.holders
  case value => exact h₁.value
  case created => exact h₁.created
  case lists => simpa [Model.setList] using h₁.lists

/-- Taking an unlinked item off its list changes nothing. -/
theorem unlink_of_not_mem {i : ℕ} (hi : i ∉ a.linked) : a.unlink i = a := by
  have hlists : a.lists.map (Option.map (·.erase i)) = a.lists := by
    refine (List.map_congr_left (g := id) fun x hx => ?_).trans (List.map_id _)
    cases x with
    | none => rfl
    | some xs =>
      have hix : i ∉ xs := fun hx' => hi (List.mem_flatMap.mpr ⟨some xs, hx, hx'⟩)
      rw [Option.map_some, List.erase_of_not_mem hix, id]
  simp only [Model.unlink, hlists]

/-- `remove` unlinks the holder's item exactly when it is on a list. -/
theorem remove_spec {h : ℕ} (hr : Represents s a settled) (hp : (a.ptr h).isSome)
    (hw : (a.step valid (.remove l h)).Within) :
    ∃ s', remove h s = some (s', a.result valid (.remove l h)) ∧
      Represents s' (a.step valid (.remove l h)) settled := by
  obtain ⟨p, hp⟩ := Option.isSome_iff_exists.mp hp
  have hptr : s.store.ptr h = some p := by rw [Store.ptr, hr.holders]; exact hp
  cases p with
  | none => exact ⟨s, by simp [remove, hptr, Model.result, hp], by simpa [Model.step, hp] using hr⟩
  | some i =>
    have hstep : a.step valid (.remove l h) = a.unlink i := by simp [Model.step, hp]
    have hres : a.result valid (.remove l h) = .bool (decide (i ∈ a.linked)) := by
      simp [Model.result, hp]
    rw [hstep] at hw ⊢
    rw [hres]
    by_cases hi : i ∈ a.linked
    · obtain ⟨k, xs, hk, hix⟩ := exists_of_mem_linked hi
      obtain ⟨us, vs, rfl⟩ := List.append_of_mem hix
      have hring := hr.rings k _ hk
      rw [List.map_append, List.map_cons] at hring
      obtain ⟨m, hm, hring', hsame, hf⟩ := removeEntryList_spec hring
      obtain ⟨entry, hentry⟩ := Option.isSome_iff_exists.mp
        (hring.isSome (List.mem_cons_of_mem _ (List.mem_append_right _ List.mem_cons_self)))
      obtain ⟨hflink, hblink⟩ := hring.entry_linked hentry
      obtain ⟨m', hm', -, -⟩ := nullEntry_spec (m := m) (e := .item i) (by simp [hsame, hentry])
      rw [← List.map_append] at hring' hf
      have hrep := unlinked_spec hr hk hring' hsame hf hm'
      rw [← unlink_eq hr.nodup hk] at hrep
      obtain ⟨s', hs', hrep'⟩ := hrep.release fun j _ => hw j
      refine ⟨s', ?_, hrep'⟩
      simp [remove, hptr, hentry, hflink, hblink, hm, hm', hs', hi]
    · have hheld : 0 < held s.store.holders i := held_pos hptr
      obtain ⟨c, hc, -⟩ := hr.owned.exists_cell (i := i) (by omega)
      have hsome : (s.link (.item i)).isSome := by rw [hr.alloc, hc]; rfl
      obtain ⟨entry, hentry⟩ := Option.isSome_iff_exists.mp hsome
      have hnull := hr.null i entry hi hentry
      rw [unlink_of_not_mem hi]
      refine ⟨s, ?_, hr⟩
      simp [remove, hptr, hentry, hnull, unlinkedEntry, hi]

end Shrinking

section Pairs

/-- `swap` exchanges the items of two lists. -/
theorem swap_spec (h : Represents s a settled) (hl : a.lists[l]? = some (some xs))
    (hr : a.lists[r]? = some (some ys)) :
    ∃ m, swapHeads (.head l) (.head r) s.link = some m ∧
      Represents { s with link := m } (a.step valid (.swap l r)) settled := by
  by_cases hlr : l = r
  · subst hlr
    obtain rfl : xs = ys := by simpa using hl.symm.trans hr
    refine ⟨s.link, by simp [swapHeads], ?_⟩
    have hset : a.step valid (.swap l l) = a := by
      obtain ⟨hlt, he⟩ := List.getElem?_eq_some_iff.mp hl
      simp [Model.step, Model.setList, items_eq hl, ← he]
    rw [hset]
    exact h
  · obtain ⟨m, hm, hring, hring', hf⟩ := swapHeads_spec (h.rings l xs hl) (h.rings r ys hr)
      (h.disjoint hr hl hlr)
    refine ⟨m, hm, ?_⟩
    have hrep := h.exchange hl hr hlr hring hring' List.perm_append_comm hf
    simpa [Model.step, items_eq hl, items_eq hr] using hrep

/-- `append` puts the items of the other list in front. -/
theorem append_spec (h : Represents s a settled) (hl : a.lists[l]? = some (some xs))
    (hr : a.lists[r]? = some (some ys)) :
    ∃ m, appendHeads (.head l) (.head r) s.link = some (ys.isEmpty || decide (l ≠ r), m) ∧
      Represents { s with link := m } (a.step valid (.append l r)) settled := by
  have hemp : ys = [] → a.step valid (.append l r) = a := by
    rintro rfl
    by_cases hlr : l = r
    · simp [Model.step, hlr]
    · obtain ⟨hlt, he⟩ := List.getElem?_eq_some_iff.mp hl
      obtain ⟨hrt, he'⟩ := List.getElem?_eq_some_iff.mp hr
      have h₁ : a.lists.set l (some xs) = a.lists := by rw [← he, List.set_getElem_self]
      have h₂ : a.lists.set r (some []) = a.lists := by rw [← he', List.set_getElem_self]
      simp [Model.step, hlr, items_eq hl, items_eq hr, Model.setList, h₁, h₂]
  by_cases hy : ys = []
  · rw [hemp hy]
    subst hy
    exact ⟨s.link, appendHeads_empty (h.rings r [] hr), h⟩
  · have hfalse : ys.isEmpty = false := by simpa using hy
    rw [hfalse, Bool.false_or]
    by_cases hlr : l = r
    · subst hlr
      refine ⟨s.link, ?_, by simpa [Model.step] using h⟩
      simpa using appendHeads_self (h.rings l ys hr) (by simpa using hy)
    · obtain ⟨m, hm, hring, hring', hf⟩ := appendHeads_spec (h.rings l xs hl) (h.rings r ys hr)
        (by simpa using hy) (h.disjoint hr hl hlr)
      rw [← List.map_append] at hring
      refine ⟨m, by simpa [hlr] using hm, ?_⟩
      have hempty : Ring m (.head r) (([] : List ℕ).map .item) := hring'
      have hrep := h.exchange hl hr hlr hring hempty (by
        rw [List.append_nil]
        exact List.perm_append_comm) hf
      simpa [Model.step, hlr, items_eq hl, items_eq hr] using hrep

end Pairs

section Iteration

/-- The entry an iterator is at when these items are left. -/
def cursor (l : ℕ) : List ℕ → Addr
  | [] => .head l
  | i :: _ => .item i

@[simp] theorem cursor_nil (l : ℕ) : cursor l [] = .head l := rfl

/-- The cursor stands on the first of the items that are left. -/
@[simp] theorem cursor_cons (l i : ℕ) (ys : List ℕ) : cursor l (i :: ys) = .item i := rfl

/-- The value at the cursor is the first of them. -/
theorem valueAt_cursor (l : ℕ) (ys : List ℕ) : valueAt l (cursor l ys) = some ys.head? := by
  cases ys with
  | nil => simp [valueAt]
  | cons i ys => simp [valueAt, Addr.record]

/-- The cursor is the first address of the walk that is left. -/
theorem cursor_eq {q : Addr} {vs : List Addr} (h : ys.map .item ++ [.head l] = q :: vs) :
    q = cursor l ys := by
  cases ys with
  | nil =>
    rw [List.map_nil, List.nil_append, List.cons.injEq] at h
    exact h.1.symm
  | cons i ys =>
    rw [List.map_cons, List.cons_append, List.cons.injEq] at h
    exact h.1.symm

/-- The model with copies of the holders of some items. -/
def withCopies (keep : ℕ → Bool) (ys : List ℕ) (a : Model T) : Model T :=
  { a with holders := a.holders ++ (ys.filter keep).map fun i => some (some i) }

/-- The copies that a loop keeps are made one by one. -/
theorem withCopies_cons (keep : ℕ → Bool) (i : ℕ) (ys : List ℕ) (a : Model T) :
    withCopies keep ys (if keep i then a.newHolder (some i) else a) =
      withCopies keep (i :: ys) a := by
  by_cases hk : keep i <;> simp [withCopies, Model.newHolder, hk]

/-- Copies only add references. -/
theorem refs_le_withCopies (keep : ℕ → Bool) (ys : List ℕ) (a : Model T) (i : ℕ) :
    a.refs i ≤ (withCopies keep ys a).refs i := by
  simp only [withCopies, Model.refs, Model.linked, held, List.count_append]
  omega

/-- One round of an iteration visits the item it is at and holds the next;
the rest follows. -/
theorem iterateLoop_spec (keep : ℕ → Bool) (n : ℕ) (pre : List ℕ)
    (h : Represents s a fun i => points ys.head? i) (hl : a.lists[l]? = some (some (pre ++ ys)))
    (hn : ys.length < n) (hw : (withCopies keep ys a).Within) :
    ∃ s', iterateLoop keep l n (cursor l ys) ys.head? s = some (s', ys) ∧
      Represents s' (withCopies keep ys a) settled := by
  induction n generalizing s a pre ys with
  | zero => omega
  | succ n ih =>
    cases ys with
    | nil =>
      have hnone : Represents s a fun i => settled i + points none i :=
        h.congr fun i => by simp [settled]
      obtain ⟨s', hs', hrep⟩ := hnone.release (by simp)
      refine ⟨s', ?_, by simpa [withCopies] using hrep⟩
      simp [iterateLoop, hs']
    | cons i ys =>
      -- the body may copy the holder of the current item
      obtain ⟨st, hst, hcopy⟩ : ∃ st, loopBody keep i s.store = some st ∧
          Represents { s with store := st } (if keep i then a.newHolder (some i) else a)
            fun j => points (some i) j := by
        by_cases hk : keep i
        · obtain ⟨s', hs', hrep⟩ := h.returnHolder (p := some i) (by simp [points])
          obtain ⟨st, hst, he⟩ := Option.map_eq_some_iff.mp hs'
          cases he
          exact ⟨st, by simp [loopBody, hk, hst], by simpa [hk] using hrep⟩
        · exact ⟨s.store, by simp [loopBody, hk], by simpa [hk] using h⟩
      have hw' := hw
      rw [← withCopies_cons] at hw'
      have hlists : (if keep i then a.newHolder (some i) else a).lists = a.lists := by
        split <;> rfl
      generalize ha₁ : (if keep i then a.newHolder (some i) else a) = a₁ at hcopy hw' hlists
      have hl₁ : a₁.lists[l]? = some (some (pre ++ i :: ys)) := by rw [hlists, hl]
      -- the iterator steps to the next entry and retains its item
      have hring := hcopy.rings l _ hl₁
      rw [List.map_append, List.map_cons] at hring
      obtain ⟨_, _, q, _, -, hq, -, -, -, hlink, -⟩ := hring.exists_neighbours
      obtain ⟨entry, hentry⟩ := Option.isSome_iff_exists.mp hlink.isSome_left
      have hflink : entry.flink = some (cursor l ys) := by
        have hn := hlink.1
        rwa [next, hentry, Option.bind_some, cursor_eq hq] at hn
      obtain ⟨o, ho, hnext⟩ := hcopy.retain (p := ys.head?) (by
        intro j hj
        have hmem : j ∈ a₁.linked := mem_linked hl₁ (by simp [List.mem_of_mem_head? hj])
        have hpos := List.count_pos_iff.mpr hmem
        simp only [Model.refs]
        omega)
      have hnd := nodup_items hcopy.nodup hl₁
      have hi : i ∉ ys := (List.nodup_cons.mp (List.nodup_append.mp hnd).2.1).1
      obtain ⟨s₁, hs₁, hrep₁⟩ := Represents.release (p := some i) (hnext.congr fun j => add_comm _ _)
        (by
          intro j hj
          rw [← Option.some.inj hj]
          have hz : points ys.head? i = 0 := if_neg fun hx => hi (List.mem_of_mem_head? hx)
          rw [hz]
          exact (refs_le_withCopies keep ys a₁ i).trans (hw' i))
      have hl₁' : a₁.lists[l]? = some (some ((pre ++ [i]) ++ ys)) := by simpa using hl₁
      obtain ⟨s', hs', hrep⟩ := ih (pre ++ [i]) hrep₁ hl₁' (by simpa using hn) hw'
      have hentry' : s.link (.item i) = some entry := hentry
      have ho' : retainPtr ys.head? st.objs = some o := ho
      have hs₁' : State.release (some i) ⟨s.link, { st with objs := o }, s.lists⟩ = some s₁ := hs₁
      refine ⟨s', ?_, ?_⟩
      · simp [iterateLoop, hst, hentry', hflink, valueAt_cursor, ho', hs₁', hs']
      · rw [← withCopies_cons, ha₁]
        exact hrep

/-- A loop over a list sees what the model sees, and keeps the same copies. -/
theorem iterate_spec (keep : ℕ → Bool) (h : Represents s a settled)
    (hl : a.lists[l]? = some (some xs)) (hw : (a.step valid (.iterate l keep)).Within) :
    ∃ s', iterate keep l s = some (s', a.result valid (.iterate l keep)) ∧
      Represents s' (a.step valid (.iterate l keep)) settled := by
  have hstep : a.step valid (.iterate l keep) = withCopies keep xs a := by
    simp [Model.step, withCopies, items_eq hl]
  rw [hstep] at hw ⊢
  obtain ⟨q, _, hq, hlink, -⟩ := (h.rings l xs hl).exists_first
  obtain ⟨head, hhead⟩ := Option.isSome_iff_exists.mp hlink.isSome_left
  have hflink : head.flink = some (cursor l xs) := by
    have hn := hlink.1
    rwa [next, hhead, Option.bind_some, cursor_eq hq] at hn
  obtain ⟨o, ho, hrep⟩ := h.retain (p := xs.head?) (by
    intro j hj
    have hmem : j ∈ a.linked := mem_linked hl (List.mem_of_mem_head? hj)
    have hpos := List.count_pos_iff.mpr hmem
    simp only [Model.refs]
    omega)
  have hcreated : o.created = s.store.objs.created := hrep.created.trans h.created.symm
  have hlen : xs.length < o.created + 1 := by
    rw [hcreated]
    exact Nat.lt_succ_of_le (length_le_created h hl)
  obtain ⟨s', hs', hrep'⟩ := iterateLoop_spec keep (o.created + 1) []
    (hrep.congr fun j => by simp [settled]) hl hlen hw
  have hs'' : iterateLoop keep l (o.created + 1) (cursor l xs) xs.head?
      ⟨s.link, { s.store with objs := o }, s.lists⟩ = some (s', xs) := hs'
  refine ⟨s', ?_, hrep'⟩
  simp [iterate, hhead, hflink, valueAt_cursor, ho, hs'', Model.result, items_eq hl]

end Iteration

section Holders

variable {h : ℕ} {p own : Option ℕ}

/-- A holder of the model has the same pointer in the store. -/
theorem ptr_store (hr : Represents s a settled) (hp : a.ptr h = some p) :
    s.store.ptr h = some p := by
  rw [Store.ptr, hr.holders]
  exact hp

/-- The bound on references in the form the holder operations ask for. -/
theorem Within.counts {hs : List (Option (Option ℕ))}
    (hw : ({ a with holders := hs } : Model T).Within) :
    ∀ i, a.linked.count i + settled i + held hs i ≤ maxCount := hw

/-- A holder is copied. -/
theorem copyHolder_spec (valid : T → Bool) (hr : Represents s a settled)
    (hp : a.ptr h = some p) :
    ∃ s', step valid s (.copyHolder h) = some (s', .void) ∧
      Represents s' (a.step valid (.copyHolder h)) settled := by
  obtain ⟨o, hc, hev, how⟩ := copyConstruct_spec hr.owned (ptr_store hr hp)
  have hrep := hr.evolve hev how
  have hstep : a.step valid (.copyHolder h) =
      { a with holders := s.store.holders ++ [some p] } := by
    rw [hr.holders]
    simp [Model.step, Model.newHolder, hp]
  rw [hstep]
  exact ⟨_, by simp only [step, hc, Option.map_some], hrep⟩

/-- A holder is moved. -/
theorem moveHolder_spec (hr : Represents s a settled) (hp : a.ptr h = some p) :
    ∃ s', step valid s (.moveHolder h) = some (s', .void) ∧
      Represents s' (a.step valid (.moveHolder h)) settled := by
  obtain ⟨hc, how⟩ := moveConstruct_spec hr.owned (ptr_store hr hp)
  have hrep := hr.evolve (Evolves.refl _) how
  have hstep : a.step valid (.moveHolder h) =
      { a with holders := (s.store.holders ++ [some p]).set h (some none) } := by
    rw [hr.holders]
    simp [Model.step, hp]
  rw [hstep]
  exact ⟨_, by simp only [step, hc, Option.map_some], hrep⟩

/-- A holder is destroyed, and its item with the last reference. -/
theorem destroyHolder_spec (hr : Represents s a settled) (hp : a.ptr h = some p)
    (hw : (a.step valid (.destroyHolder h)).Within) :
    ∃ s', step valid s (.destroyHolder h) = some (s', .void) ∧
      Represents s' (a.step valid (.destroyHolder h)) settled := by
  have hstep : a.step valid (.destroyHolder h) =
      { a with holders := s.store.holders.set h none } := by rw [hr.holders]; rfl
  rw [hstep] at hw ⊢
  obtain ⟨o, d, hc, hev, how⟩ := destroy_spec hr.owned (ptr_store hr hp) (Within.counts hw)
  exact ⟨_, by simp only [step, hc, Option.map_some], hr.evolve hev how⟩

/-- A holder is assigned another one. -/
theorem assignCopy_spec (hr : Represents s a settled) (hh : a.ptr h = some own)
    (hp : a.ptr r = some p) (hw : (a.step valid (.assignCopy h r)).Within) :
    ∃ s', step valid s (.assignCopy h r) = some (s', .void) ∧
      Represents s' (a.step valid (.assignCopy h r)) settled := by
  have hh' := ptr_store hr hh
  have hp' := ptr_store hr hp
  by_cases hne : h = r
  · subst hne
    refine ⟨s, ?_, by simpa [Model.step] using hr⟩
    simp [step, Store.copyAssign, hh', State.commit, free]
  · have hstep : a.step valid (.assignCopy h r) =
        { a with holders := s.store.holders.set h (some p) } := by
      rw [hr.holders]
      simp [Model.step, hne, hp]
    rw [hstep] at hw ⊢
    obtain ⟨o, d, hc, hev, how⟩ := copyAssign_spec hr.owned hh' hp' hne (Within.counts hw)
    exact ⟨_, by simp only [step, hc, Option.map_some], hr.evolve hev how⟩

/-- A holder is assigned one that is moved. -/
theorem assignMove_spec (hr : Represents s a settled) (hh : a.ptr h = some own)
    (hp : a.ptr r = some p) (hw : (a.step valid (.assignMove h r)).Within) :
    ∃ s', step valid s (.assignMove h r) = some (s', .void) ∧
      Represents s' (a.step valid (.assignMove h r)) settled := by
  have hh' := ptr_store hr hh
  have hp' := ptr_store hr hp
  by_cases hne : h = r
  · subst hne
    refine ⟨s, ?_, by simpa [Model.step] using hr⟩
    simp [step, Store.moveAssign, hh', State.commit, free]
  · have hstep : a.step valid (.assignMove h r) =
        { a with holders := (s.store.holders.set h (some p)).set r (some none) } := by
      rw [hr.holders]
      simp [Model.step, hne, hp]
    rw [hstep] at hw ⊢
    obtain ⟨o, d, hc, hev, how⟩ := moveAssign_spec hr.owned hh' hp' hne (Within.counts hw)
    exact ⟨_, by simp only [step, hc, Option.map_some], hr.evolve hev how⟩

end Holders

section Runs

/-- Every operation refines its model: it does not fail, returns what the model
says and leaves a state that represents the model after it. -/
theorem step_refines {op : Op T} (h : Represents s a settled) (hr : a.Ready op) (hw : a.Within)
    (hw' : (a.step valid op).Within) :
    ∃ s', step valid s op = some (s', a.result valid op) ∧
      Represents s' (a.step valid op) settled := by
  cases op with
  | construct => exact constructList_spec h
  | destroy l =>
    obtain ⟨xs, hl⟩ := hr
    exact destroyList_spec h hl hw
  | clear l =>
    obtain ⟨xs, hl⟩ := hr
    obtain ⟨s', hs', hrep⟩ := clear_spec h hl hw
    exact ⟨s', by simp [step, hs', Model.result], hrep⟩
  | empty l =>
    obtain ⟨xs, hl⟩ := hr
    refine ⟨s, ?_, h⟩
    simp [step, isListEmpty_spec (h.rings l xs hl), Model.result, items_eq hl]
  | pushBack l v =>
    obtain ⟨xs, hl⟩ := hr
    cases v with
    | none => exact returnNull_spec h
    | some v => exact pushBack_spec valid h hl v
  | pushFront l v =>
    obtain ⟨xs, hl⟩ := hr
    cases v with
    | none => exact returnNull_spec h
    | some v => exact pushFront_spec valid h hl v
  | popFront l =>
    obtain ⟨xs, hl⟩ := hr
    exact popFront_spec h hl hw'
  | remove l h' => exact remove_spec h hr.2 hw'
  | swap l r =>
    obtain ⟨⟨xs, hl⟩, ys, hr⟩ := hr
    obtain ⟨m, hm, hrep⟩ := swap_spec h hl hr
    exact ⟨_, by simp only [step, hm, Option.map_some]; rfl, hrep⟩
  | append l r =>
    obtain ⟨⟨xs, hl⟩, ys, hr⟩ := hr
    obtain ⟨m, hm, hrep⟩ := append_spec h hl hr
    refine ⟨_, ?_, hrep⟩
    simp [step, hm, Model.result, items_eq hr]
  | iterate l keep =>
    obtain ⟨xs, hl⟩ := hr
    exact iterate_spec keep h hl hw'
  | copyHolder r =>
    obtain ⟨p, hp⟩ := Option.isSome_iff_exists.mp hr
    exact copyHolder_spec valid h hp
  | moveHolder r =>
    obtain ⟨p, hp⟩ := Option.isSome_iff_exists.mp hr
    exact moveHolder_spec h hp
  | assignCopy h' r =>
    obtain ⟨own, hown⟩ := Option.isSome_iff_exists.mp hr.1
    obtain ⟨p, hp⟩ := Option.isSome_iff_exists.mp hr.2
    exact assignCopy_spec h hown hp hw'
  | assignMove h' r =>
    obtain ⟨own, hown⟩ := Option.isSome_iff_exists.mp hr.1
    obtain ⟨p, hp⟩ := Option.isSome_iff_exists.mp hr.2
    exact assignMove_spec h hown hp hw'
  | destroyHolder r =>
    obtain ⟨p, hp⟩ := Option.isSome_iff_exists.mp hr
    exact destroyHolder_spec h hp hw'

/-- One operation on the lists, its result dropped. -/
def next (valid : T → Bool) (s : State T) (op : Op T) : Option (State T) :=
  (step valid s op).map Prod.fst

/-- One operation on the model. -/
def modelNext (valid : T → Bool) (a : Model T) (op : Op T) : Option (Model T) :=
  some (a.step valid op)

/-- The model after a run. -/
def after (valid : T → Bool) (a : Model T) (ops : List (Op T)) : Model T :=
  ops.foldl (Model.step valid) a

/-- The state of lists, items and holders that the operations keep up: rings
over disjoint sets of items, exact counters, and every item that was deleted
was deleted once, when it was on no list and in no holder. -/
structure Intact (s : State T) (a : Model T) : Prop where
  rings : ∀ l xs, a.lists[l]? = some (some xs) → Ring s.link (.head l) (xs.map .item)
  one_ring : a.linked.Nodup
  holders : s.store.holders = a.holders
  counter : ∀ i c, s.store.objs.cell i = some c →
    c.pn = (if i ∈ a.linked then 1 else 0) + held s.store.holders i
  live_iff : ∀ i, (s.store.objs.cell i).isSome ↔ i ∈ a.linked ∨ 0 < held s.store.holders i
  deleted_once : s.store.objs.deleted.Nodup
  deleted_iff : ∀ i, i ∈ s.store.objs.deleted ↔
    i < s.store.objs.created ∧ i ∉ a.linked ∧ held s.store.holders i = 0
  value : ∀ i c, s.store.objs.cell i = some c → a.values[i]? = some c.value

/-- A represented model whose references a counter can tell is intact. -/
theorem Intact.of_represents (h : Represents s a settled) (hw : a.Within) : Intact s a := by
  have hcount : ∀ i, a.linked.count i = if i ∈ a.linked then 1 else 0 := fun i => h.nodup.count
  have hrefs : ∀ i, a.linked.count i + settled i + held s.store.holders i = a.refs i := fun i => by
    rw [h.holders]
    rfl
  have hlive : ∀ i, (s.store.objs.cell i).isSome ↔ 0 < a.refs i := by
    intro i
    cases hc : s.store.objs.cell i with
    | none =>
      have hz := h.owned.dead i hc
      simp only [hrefs] at hz
      simp [hz]
    | some c =>
      have hp := (h.owned.live i c hc).2
      simp only [hrefs] at hp
      simpa using hp
  have hpos : ∀ i, 0 < a.refs i ↔ i ∈ a.linked ∨ 0 < held s.store.holders i := by
    intro i
    rw [h.holders, Model.refs, Nat.add_pos_iff_pos_or_pos, List.count_pos_iff]
  refine ⟨h.rings, h.nodup, h.holders, ?_, fun i => (hlive i).trans (hpos i),
    h.owned.deleted_nodup, ?_, h.value⟩
  · intro i c hc
    have hpn := h.owned.pn_eq hc (by rw [hrefs]; exact hw i)
    rw [hpn]
    simp only [settled, hcount]
    push_cast
    ring
  · intro i
    have hnone : s.store.objs.cell i = none ↔ ¬(i ∈ a.linked ∨ 0 < held s.store.holders i) := by
      rw [← hpos, ← hlive]
      simp
    rw [h.owned.mem_deleted, hnone]
    simp only [not_or, not_lt, Nat.le_zero]

/-- Before the first operation. -/
theorem represents_empty : Represents (State.empty : State T) Model.empty settled where
  rings := by simp [Model.empty]
  gone := by simp [State.empty]
  null := by simp [State.empty]
  alloc := by simp [State.empty, Objects.empty]
  nodup := List.nodup_nil
  owned := exact_empty
  holders := rfl
  value := by simp [State.empty, Objects.empty]
  created := rfl
  lists := rfl

/-- There are not too many references as long as there are not too many items and holders. -/
theorem within_of_length (h : a.linked.length + a.holders.length ≤ maxCount) : a.Within :=
  fun _ => (Nat.add_le_add List.count_le_length List.count_le_length).trans h

/-- What a run of operations keeps, from any represented state on. -/
theorem run_refines {ops : List (Op T)} (h : Represents s a settled) (hw : a.Within)
    (hops : Along (fun a op => a.Ready op ∧ (a.step valid op).Within) (modelNext valid) a ops) :
    ∃ s', run (next valid) s ops = some s' ∧ Represents s' (after valid a ops) settled ∧
      (after valid a ops).Within := by
  refine exists_run_simulating (R := fun s a => Represents s a settled ∧ a.Within)
    (f := Model.step valid) ?_ ⟨h, hw⟩ hops
  rintro s a op ⟨h, hw⟩ ⟨hr, hw'⟩
  obtain ⟨s', hs', h'⟩ := step_refines h hr hw hw'
  exact ⟨s', by simp [next, hs'], h', hw'⟩

/-- In every run in which no item gets more references than its counter can
tell, no operation fails, every state reached is intact, and every operation
there returns what the sequence model says and goes to the model's next state. -/
theorem lists_intact (valid : T → Bool) (ops : List (Op T))
    (hops : Along (fun a op => a.Ready op ∧ (a.step valid op).Within) (modelNext valid)
      Model.empty ops) :
    ∃ s, run (next valid) State.empty ops = some s ∧ Intact s (after valid Model.empty ops) ∧
      ∀ op, (after valid Model.empty ops).Ready op →
        ((after valid Model.empty ops).step valid op).Within →
        ∃ s', step valid s op = some (s', (after valid Model.empty ops).result valid op) ∧
          Intact s' ((after valid Model.empty ops).step valid op) := by
  have hw₀ : (Model.empty : Model T).Within := within_of_length (Nat.zero_le _)
  obtain ⟨s, hs, hrep, hw⟩ := run_refines represents_empty hw₀ hops
  refine ⟨s, hs, .of_represents hrep hw, fun op hr hw' => ?_⟩
  obtain ⟨s', hs', hrep'⟩ := step_refines hrep hr hw hw'
  exact ⟨s', hs', .of_represents hrep' hw'⟩

/-- A run that pushes, pops and drops the item through its holders. -/
theorem lists_intact_pushPop :
    let ops : List (Op ℕ) := [.construct, .pushBack 0 (some 7), .popFront 0, .destroyHolder 0]
    ∃ s, run (next fun _ => true) State.empty ops = some s ∧
      Intact s (after (fun _ => true) Model.empty ops) := by
  have hops : Along (fun a op => a.Ready op ∧ (a.step (fun _ => true) op).Within)
      (modelNext fun _ => true) Model.empty
      ([.construct, .pushBack 0 (some 7), .popFront 0, .destroyHolder 0] : List (Op ℕ)) := by
    refine ⟨⟨trivial, within_of_length (by decide)⟩, ?_⟩
    rintro _ ⟨⟩
    refine ⟨⟨⟨[], rfl⟩, within_of_length (by decide)⟩, ?_⟩
    rintro _ ⟨⟩
    refine ⟨⟨⟨[0], rfl⟩, within_of_length (by decide)⟩, ?_⟩
    rintro _ ⟨⟩
    refine ⟨⟨rfl, within_of_length (by decide)⟩, ?_⟩
    rintro _ ⟨⟩
    trivial
  obtain ⟨s, hs, hi, -⟩ := lists_intact (fun _ => true) _ hops
  exact ⟨s, hs, hi⟩

/-- Copies of one holder pile up references on its item. -/
theorem copies_refine (valid : T → Bool) (n : ℕ) {i : ℕ} (h : Represents s a settled)
    (hp : a.ptr 0 = some (some i)) :
    Along Model.Ready (modelNext valid) a (List.replicate n (.copyHolder 0)) ∧
      ∃ s' a', after valid a (List.replicate n (.copyHolder 0)) = a' ∧
        run (next valid) s (List.replicate n (.copyHolder 0)) = some s' ∧
        Represents s' a' settled ∧ a'.linked = a.linked ∧
        held a'.holders i = held a.holders i + n := by
  induction n generalizing s a with
  | zero => exact ⟨trivial, s, a, rfl, rfl, h, rfl, rfl⟩
  | succ n ih =>
    obtain ⟨s₁, hs₁, h₁⟩ := copyHolder_spec valid h hp
    have hstep : a.step valid (.copyHolder 0) = a.newHolder (some i) := by simp [Model.step, hp]
    rw [hstep] at h₁
    have hp₁ : (a.newHolder (some i)).ptr 0 = some (some i) := join_append hp (some i)
    obtain ⟨hready, s', a', ha', hs', hrep, hlinked, hheld⟩ := ih h₁ hp₁
    refine ⟨⟨by simp [Model.Ready, hp], ?_⟩, s', a', ?_, ?_, hrep, hlinked, ?_⟩
    · rintro _ ⟨⟩
      rw [hstep]
      exact hready
    · rw [List.replicate_succ]
      change after valid (a.step valid (.copyHolder 0)) _ = a'
      rw [hstep, ha']
    · exact run_cons.mpr ⟨s₁, by simp [next, hs₁], hs'⟩
    · rw [hheld]
      simp only [Model.newHolder, held_append, points_self]
      omega

/-- One item, its list, and so many holders that its counter wraps. -/
def manyCopies : List (Op ℕ) :=
  [.construct, .pushBack 0 (some 7)] ++ List.replicate (maxCount - 1) (.copyHolder 0)

/-- With `2 ^ 31 - 1` holders on a linked item the counter is not their number plus one. -/
theorem lists_not_intact_manyCopies :
    Along Model.Ready (modelNext fun _ => true) Model.empty manyCopies ∧
      ∃ s, run (next fun _ => true) State.empty manyCopies = some s ∧
        ¬Intact s (after (fun _ => true) Model.empty manyCopies) := by
  have hw₀ : (Model.empty : Model ℕ).Within := within_of_length (Nat.zero_le _)
  have hops : Along (fun a op => a.Ready op ∧ (a.step (fun _ => true) op).Within)
      (modelNext fun _ => true) Model.empty ([.construct, .pushBack 0 (some 7)] : List (Op ℕ)) := by
    refine ⟨⟨trivial, within_of_length (by decide)⟩, ?_⟩
    rintro _ ⟨⟩
    refine ⟨⟨⟨[], rfl⟩, within_of_length (by decide)⟩, ?_⟩
    rintro _ ⟨⟩
    trivial
  obtain ⟨s₁, hs₁, h₁, -⟩ := run_refines represents_empty hw₀ hops
  obtain ⟨hready, s', a', ha', hs', hrep, hlinked, hheld⟩ :=
    copies_refine (fun _ => true) (maxCount - 1) (i := 0) h₁ rfl
  have hafter : after (fun _ => true) Model.empty manyCopies = a' := by
    rw [← ha', manyCopies, after, List.foldl_append]
    rfl
  refine ⟨⟨trivial, ?_⟩, s', run_append.mpr ⟨s₁, hs₁, hs'⟩, ?_⟩
  · rintro _ ⟨⟩
    refine ⟨⟨[], rfl⟩, ?_⟩
    rintro _ ⟨⟩
    exact hready
  · rw [hafter]
    intro hint
    have hlink : 0 ∈ a'.linked := by
      rw [hlinked]
      decide
    have hcount : a'.linked.count 0 + settled 0 + held s'.store.holders 0 = maxCount + 1 := by
      rw [hrep.holders, hheld, hlinked]
      rfl
    obtain ⟨c, hc, hpn⟩ := hrep.owned.exists_cell (i := 0) (by simp only [hcount]; omega)
    have hwrap : c.pn = -2 ^ 31 := by
      rw [hpn]
      simp only [hcount]
      exact wrap32_maxCount_succ
    have hpos := hint.counter 0 c hc
    rw [hwrap, if_pos hlink] at hpos
    omega

end Runs

end KernelLib.ListRefines
