import KernelLib.ListRefines

/-!
# Where append puts the other list

`append` links the ring of the second list between the head of the first and
its first entry, and so in front of what the first list had. The two orders
are the same when one of the lists is empty. Nothing is assumed of reference
counters here: a removal takes its item off whatever its counter says.
-/

namespace KernelLib.ListAppend

open LinkedRing ListHeads CountedObjects RefHolder ListItems ListModel ListRefines StepRuns

variable {T : Type} {valid : T → Bool} {s t : State T} {a : Model T} {l r h i n : ℕ}
  {xs ys zs : List ℕ}

/-- Two lists of live items that share none. -/
structure TwoLists (s : State T) (l r : ℕ) (xs ys : List ℕ) : Prop where
  left : Ring s.link (.head l) (xs.map .item)
  right : Ring s.link (.head r) (ys.map .item)
  apart : ∀ c ∈ Addr.head l :: xs.map .item, c ∉ Addr.head r :: ys.map .item
  alive : ∀ i ∈ xs ++ ys, (s.store.objs.cell i).isSome

/-- A list has these items in this order, whichever way one goes through it. -/
structure Lists (s : State T) (l : ℕ) (zs : List ℕ) : Prop where
  /-- The items met from the head on. -/
  ahead : ∀ n, zs.length < n → forward s.link (.head l) n = some (zs.map .item)
  /-- The items met from the head back. -/
  back : ∀ n, zs.length < n → backward s.link (.head l) n = some (zs.reverse.map .item)

/-- What appending the second list to the first has to leave. -/
structure Appended (s t : State T) (l r : ℕ) (zs : List ℕ) : Prop where
  /-- The first list has all items. -/
  lists : Lists t l zs
  /-- The second list has none. -/
  emptied : isListEmpty (.head r) t.link = some true
  /-- No counter and no holder changes. -/
  store : t.store = s.store
  /-- A holder of an item takes this item off the list. -/
  removes : ∀ h i, s.store.ptr h = some (some i) → i ∈ zs →
    ∃ u, remove h t = some (u, .bool true) ∧ Lists u l (zs.erase i)

/-- `l.append(move(r))` puts the items of `r` behind those of `l`. -/
def Appends (valid : T → Bool) (s : State T) (l r : ℕ) (xs ys : List ℕ) : Prop :=
  ∃ t, step valid s (.append l r) = some (t, .bool true) ∧ Appended s t l r (xs ++ ys)

theorem lists_of_ring (hr : Ring s.link (.head l) (zs.map .item)) : Lists s l zs :=
  ⟨fun n hn => hr.forward (by simpa using hn), fun n hn => by
    rw [hr.backward (by simpa using hn), List.map_reverse]⟩

/-- The order of the items is what a walk shows. -/
theorem Lists.unique (h₁ : Lists s l xs) (h₂ : Lists s l ys) : xs = ys := by
  have hx := h₁.ahead (xs.length + ys.length + 1) (by omega)
  have hy := h₂.ahead (xs.length + ys.length + 1) (by omega)
  have hmap := Option.some.inj (hx.symm.trans hy)
  exact (List.map_injective_iff.mpr fun _ _ hi => Addr.item.inj hi) hmap

/-- A live item is released, whatever its counter says. -/
theorem exists_release (hi : (s.store.objs.cell i).isSome) :
    ∃ t d, s.release (some i) = some t ∧ t.link = free d s.link ∧ (d = none ∨ d = some i) := by
  obtain ⟨c, hc⟩ := Option.isSome_iff_exists.mp hi
  by_cases hlast : wrap32 (c.pn - 1) < 1
  · refine ⟨s.commit ({ s.store with objs := s.store.objs.delete i }, some i), some i, ?_, rfl,
      .inr rfl⟩
    simp [State.release, releasePtr, Objects.release, hc, hlast]
  · refine ⟨s.commit ({ s.store with
      objs := s.store.objs.set i (some { c with pn := wrap32 (c.pn - 1) }) }, none), none, ?_, rfl,
      .inl rfl⟩
    simp [State.release, releasePtr, Objects.release, hc, hlast]

/-- A holder takes its item off the list that it is on. -/
theorem remove_spec (hr : Ring s.link (.head l) (zs.map .item)) (hp : s.store.ptr h = some (some i))
    (hi : i ∈ zs) (hlive : (s.store.objs.cell i).isSome) :
    ∃ u, remove h s = some (u, .bool true) ∧ Ring u.link (.head l) ((zs.erase i).map .item) := by
  obtain ⟨us, vs, rfl⟩ := List.append_of_mem hi
  rw [List.map_append, List.map_cons] at hr
  have hnot : (.item i : Addr) ∉ .head l :: (us.map .item ++ vs.map .item) := by
    have hperm : (.head l :: (us.map .item ++ .item i :: vs.map .item)).Perm
        (Addr.item i :: .head l :: (us.map .item ++ vs.map .item)) := by
      rw [← List.cons_append, ← List.cons_append]
      exact List.perm_middle
    exact (List.nodup_cons.mp (hperm.nodup_iff.mp hr.nodup)).1
  obtain ⟨entry, hentry⟩ := Option.isSome_iff_exists.mp
    (hr.isSome (List.mem_cons_of_mem _ (List.mem_append_right _ List.mem_cons_self)))
  obtain ⟨hflink, hblink⟩ := hr.entry_linked hentry
  obtain ⟨m, hm, hring, hsame, -⟩ := removeEntryList_spec hr
  obtain ⟨m', hm', -, hf⟩ := nullEntry_spec (m := m) (e := .item i) (by simp [hsame, hentry])
  obtain ⟨u, d, hu, hlink, hd⟩ := exists_release (s := { s with link := m' }) hlive
  refine ⟨u, by simp [remove, hp, hentry, hflink, hblink, hm, hm', hu], ?_⟩
  have herase : (us ++ i :: vs).erase i = us ++ vs := by
    have hus : i ∉ us := fun hx => hnot (by simp [hx])
    rw [List.erase_append_right _ hus, List.erase_cons_head]
  rw [herase, List.map_append, hlink]
  -- the entry of the item may be freed, and is on no ring any more
  refine (hring.frame hf fun c hc => ?_).congr fun c hc => ?_
  · rw [List.mem_singleton]
    rintro rfl
    exact hnot hc
  · rcases hd with rfl | rfl
    · rfl
    · refine Function.update_of_ne ?_ _ _
      rintro rfl
      exact hnot hc

/-- What `append` leaves: the items of the second list come first. -/
theorem append_leaves (valid : T → Bool) (h : TwoLists s l r xs ys) :
    ∃ t, step valid s (.append l r) = some (t, .bool true) ∧ Appended s t l r (ys ++ xs) := by
  obtain ⟨m, hm, hring, hempty⟩ : ∃ m, appendHeads (.head l) (.head r) s.link = some (true, m) ∧
      Ring m (.head l) ((ys ++ xs).map .item) ∧ Ring m (.head r) [] := by
    by_cases hy : ys = []
    · have hr := h.right
      rw [hy] at hr ⊢
      exact ⟨s.link, appendHeads_empty hr, h.left, hr⟩
    · obtain ⟨m, hm, hring, hring', -⟩ := appendHeads_spec h.left h.right (by simpa using hy) h.apart
      rw [← List.map_append] at hring
      exact ⟨m, hm, hring, hring'⟩
  refine ⟨{ s with link := m }, by simp [step, hm], lists_of_ring hring, ?_, rfl, ?_⟩
  · exact isListEmpty_spec hempty
  · intro h' i hp hi
    have hlive := h.alive i (by simpa [or_comm] using hi)
    obtain ⟨u, hu, hring'⟩ := remove_spec (s := { s with link := m }) hring hp hi hlive
    exact ⟨u, hu, lists_of_ring hring'⟩

/-- Two lists without common elements commute only if one is empty. -/
theorem append_comm_iff (hd : ∀ i ∈ xs, i ∉ ys) : ys ++ xs = xs ++ ys ↔ xs = [] ∨ ys = [] := by
  constructor
  · intro heq
    cases xs with
    | nil => exact .inl rfl
    | cons x xs =>
      cases ys with
      | nil => exact .inr rfl
      | cons y ys =>
        obtain ⟨rfl, -⟩ := List.cons.inj heq
        exact absurd List.mem_cons_self (hd y List.mem_cons_self)
  · rintro (rfl | rfl) <;> simp

/-- Lists that a represented model has. -/
theorem twoLists_of_represents {loose : ℕ → ℕ} (h : Represents s a loose)
    (hl : a.lists[l]? = some (some xs)) (hr : a.lists[r]? = some (some ys)) (hne : l ≠ r) :
    TwoLists s l r xs ys := by
  have hring := h.rings l xs hl
  have hring' := h.rings r ys hr
  refine ⟨hring, hring', fun c hx hy => h.disjoint hl hr (Ne.symm hne) c hy hx, fun i hi => ?_⟩
  rw [← h.alloc]
  rcases List.mem_append.mp hi with hi | hi
  · exact hring.isSome (List.mem_cons_of_mem _ (List.mem_map_of_mem hi))
  · exact hring'.isSome (List.mem_cons_of_mem _ (List.mem_map_of_mem hi))

/-- If the items of the second list come last, they come first as well. -/
theorem append_comm_of_appends (h : TwoLists s l r xs ys) (happ : Appends valid s l r xs ys) :
    ys ++ xs = xs ++ ys := by
  obtain ⟨t, ht, hleaves⟩ := append_leaves valid h
  obtain ⟨t', ht', happended⟩ := happ
  obtain rfl : t = t' := congrArg Prod.fst (Option.some.inj (ht.symm.trans ht'))
  exact hleaves.lists.unique happended.lists

/-- `append` puts the other list at the tail exactly when one of the two is empty. -/
theorem appends_iff (h : TwoLists s l r xs ys) :
    Appends valid s l r xs ys ↔ xs = [] ∨ ys = [] := by
  have hd : ∀ i ∈ xs, i ∉ ys := by
    intro i hx hy
    exact h.apart (.item i) (List.mem_cons_of_mem _ (List.mem_map_of_mem hx))
      (List.mem_cons_of_mem _ (List.mem_map_of_mem hy))
  rw [← append_comm_iff hd]
  refine ⟨append_comm_of_appends h, fun heq => ?_⟩
  obtain ⟨t, ht, hleaves⟩ := append_leaves valid h
  exact ⟨t, ht, heq ▸ hleaves⟩

/-- Two lists of one item each and one without items. -/
def threeLists : List (Op ℕ) :=
  [.construct, .construct, .construct, .pushBack 0 (some 50), .pushBack 1 (some 10)]

theorem run_threeLists : ∃ s, run (next fun _ => true) State.empty threeLists = some s ∧
    Represents s (after (fun _ => true) Model.empty threeLists) settled := by
  have hops : Along (fun a op => a.Ready op ∧ (a.step (fun _ => true) op).Within)
      (modelNext fun _ => true) Model.empty threeLists := by
    refine ⟨⟨trivial, within_of_length (by decide)⟩, ?_⟩
    rintro _ ⟨⟩
    refine ⟨⟨trivial, within_of_length (by decide)⟩, ?_⟩
    rintro _ ⟨⟩
    refine ⟨⟨trivial, within_of_length (by decide)⟩, ?_⟩
    rintro _ ⟨⟩
    refine ⟨⟨⟨[], rfl⟩, within_of_length (by decide)⟩, ?_⟩
    rintro _ ⟨⟩
    refine ⟨⟨⟨[], rfl⟩, within_of_length (by decide)⟩, ?_⟩
    rintro _ ⟨⟩
    trivial
  obtain ⟨s, hs, hrep, -⟩ := run_refines represents_empty (within_of_length (Nat.zero_le _)) hops
  exact ⟨s, hs, hrep⟩

/-- Appending to the list without items is in order. -/
theorem appends_to_empty : ∃ s, run (next fun _ => true) State.empty threeLists = some s ∧
    Appends (fun _ => true) s 2 1 [] [1] := by
  obtain ⟨s, hs, hrep⟩ := run_threeLists
  have htwo : TwoLists s 2 1 [] [1] := twoLists_of_represents hrep rfl rfl (by decide)
  exact ⟨s, hs, (appends_iff htwo).mpr (.inl rfl)⟩

/-- A list of one item gets the other item in front of it. -/
theorem append_puts_first : ∃ s, run (next fun _ => true) State.empty threeLists = some s ∧
    ¬Appends (fun _ => true) s 0 1 [0] [1] := by
  obtain ⟨s, hs, hrep⟩ := run_threeLists
  have htwo : TwoLists s 0 1 [0] [1] := twoLists_of_represents hrep rfl rfl (by decide)
  refine ⟨s, hs, fun happ => ?_⟩
  have hcomm := append_comm_of_appends htwo happ
  exact absurd hcomm (by decide)

end KernelLib.ListAppend
