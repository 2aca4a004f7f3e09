import KernelLib.ContainerRefines

/-!
# Undoing an insertion and clearing

Two paths of `map` and `set` that no test takes. An insertion whose item
cannot be allocated or whose key copy is invalid deletes the new node by a
search, and that search compares with the new node itself, whose pointer is
null or leads to the item just released: the undo fails for all contents.
`clear` reads the item pointer out of a node after the deletion handed the
node back, so it fails on everything but an empty table; `remove` takes the
pointer out first.
-/

namespace KernelLib.ContainerFaults

open AvlRoutines CountedObjects RefHolder AvlContainer OrderedEntries ContainerModel ContainerRefines

variable {A : Routines} {K V : Type} {O : KeyOps K} {s : State A K V} {a : Model K V}
  {loose : ℕ → ℕ} {temp : K} {us vs : List (Entry K V)}

section Undo

/-- The keys and values in the table, in order. -/
def contents (s : State A K V) : List (Option (K × V)) :=
  (A.nodes s.table).map fun n =>
    match s.memory n with
    | some (.heap i) => (s.store.objs.cell i).map fun c => c.value
    | _ => none

/-- The insertion ends, changes no contents, and returns a null holder and `false`. -/
def FailsCleanly (s : State A K V) (r : Option (State A K V × Ret)) : Prop :=
  ∃ s', r = some (s', .pair none false) ∧ contents s' = contents s

/-- A deletion that looks for a new node whose pointer leads to no key fails. -/
theorem delete_fresh_fails {s' s'' : State A K V} {n : ℕ} {p : Ptr} (hA : A.Lawful)
    (h : Represents O s a loose) (he : a.entries = us ++ vs) (hf : FreshNode O temp s us vs n s')
    (ht : s''.table = s'.table) (hm : s''.memory = Function.update s.memory n (some p))
    (hp : s''.keyAt (some temp) p = none)
    (hc : ∀ e ∈ a.entries, s''.store.objs.cell e.1 = s.store.objs.cell e.1) :
    s''.delete O (some temp) .stack = none := by
  obtain ⟨ns, ms, hn, hn', hns, hms, hl⟩ := hf.nodes
  have hnot : n ∉ ns ++ ms := fun hx => by
    have hb := h.bound n (hn ▸ hx)
    rw [hf.fresh] at hb
    omega
  have hsame : ∀ xs : List (Entry K V), (∀ x ∈ xs, x ∈ a.entries) → ∀ is : List ℕ,
      is.map s.memory = xs.map (fun x => some (.heap x.1)) → (∀ m ∈ is, m ∈ ns ++ ms) →
      ∀ m ∈ is, compareItems O (some temp) .stack s'' m = compareItems O (some temp) .stack s m := by
    intro xs hxs is his hin m hmi
    have hmn : m ≠ n := fun hx => hnot (hx ▸ hin m hmi)
    refine forall_nodes (P := fun m => m ≠ n → compareItems O (some temp) .stack s'' m =
      compareItems O (some temp) .stack s m) his (fun m x hx hxm hmn => ?_) m hmi hmn
    have hm' : s''.memory m = some (.heap x.1) := by rw [hm, Function.update_of_ne hmn, hxm]
    simp only [compareItems, State.keyAt, hm', hxm, Option.bind_eq_bind, Option.bind_some,
      hc x (hxs x hx)]
  have hself : compareItems O (some temp) .stack s'' n = none := by
    have hmn : s''.memory n = some p := by rw [hm, Function.update_self]
    simp [compareItems, hmn, hp]
  have hfail : A.delete (compareItems O (some temp) .stack s'') s''.table = none := hA.delete_fails
    (ht ▸ hn')
    (fun m hmi => (hsame us (by simp +contextual [he]) ns hns (by simp +contextual) m hmi).trans
      (hl.before m hmi))
    (fun m hmi => (hsame vs (by simp +contextual [he]) ms hms (by simp +contextual) m hmi).trans
      (hl.behind m hmi)) hnot hself
  simp [State.delete, hfail]

/-- The only reference on a new item is dropped: it is deleted. -/
theorem release_new {v : K × V} {o : Objects (K × V)} (hs : s.store.objs = o.create v) :
    ∃ s', s.release (some o.created) = some s' ∧
      s'.store.objs = (o.create v).delete o.created ∧ s'.table = s.table ∧ s'.memory = s.memory := by
  have hw : wrap32 (1 - 1) < 1 := by decide
  refine ⟨{ s with store := { s.store with objs := (o.create v).delete o.created } }, ?_, rfl, rfl,
    rfl⟩
  simp only [State.release, releasePtr, Objects.release, hs, create_cell, if_true, Option.map_some,
    hw]

/-- An insertion that has to be undone fails, for all contents without the key. -/
theorem insert_fails {alloc : Allocation} {k : K} (v : V) (hA : A.Lawful) (hO : StrictWeak O.lt)
    (h : Represents O s a loose) (hv : O.valid (O.assign k)) (hnode : alloc.node)
    (hfail : ¬(alloc.item ∧ O.valid (O.copy k))) (habsent : a.lookup O (O.assign k) = none) :
    AvlContainer.insert O alloc k v s = none := by
  obtain ⟨us, e, vs, he, hs⟩ := h.sorted.exists_splits hO (O.assign k)
  obtain rfl : e = none := by
    rw [← habsent, Model.lookup, he]
    exact hs.find_eq.symm
  have he' : a.entries = us ++ vs := by simpa using he
  obtain ⟨n, s', hins, hf⟩ :=
    insert_absent v alloc hA hO h he' hs (hO.equiv_refl _) hv hnode
  rw [hins]
  by_cases hitem : alloc.item
  · have hcopy : ¬O.valid (O.copy k) := fun hx => hfail ⟨hitem, hx⟩
    -- the item is deleted by its release, and the node still points at it
    obtain ⟨s'', hrel, hobjs, ht, hm⟩ := release_new (v := (O.copy k, v)) (o := s'.store.objs)
      (s := ({ s' with store := { s'.store with objs := s'.store.objs.create (O.copy k, v) } } :
        State A K V).write n (.heap s'.store.objs.created)) rfl
    have hcell : ∀ i, s''.store.objs.cell i =
        if i = s'.store.objs.created then none else s.store.objs.cell i := fun i => by
      rw [hobjs, delete_cell, create_cell, hf.store]
      split <;> rfl
    have hcreated : s'.store.objs.created = a.created := by rw [hf.store, h.created]
    have hdel : s''.delete O (some (O.assign k)) .stack = none := by
      refine delete_fresh_fails (p := .heap s'.store.objs.created) hA h he' hf ht ?_ ?_ fun e he => ?_
      · rw [hm]
        change Function.update s'.memory n _ = _
        rw [hf.memory, Function.update_idem]
      · simp [State.keyAt, hcell]
      · have hne : e.1 ≠ a.created := fun hx =>
          h.created_not_present (hx ▸ List.mem_map_of_mem he)
        rw [hcell, hcreated, if_neg hne]
    simp [fillNode, hitem, hcopy, hrel, hdel]
  · have hdel : (s'.write n .null).delete O (some (O.assign k)) .stack = none := by
      refine delete_fresh_fails (p := .null) hA h he' hf rfl ?_ rfl fun e _ => ?_
      · change Function.update s'.memory n _ = _
        rw [hf.memory, Function.update_idem]
      · change s'.store.objs.cell e.1 = _
        rw [hf.store]
    simp [fillNode, hitem, hdel]

/-- A map's and a set's insertion that fails after the search for its place
never leaves the contents as they were: it makes an invalid access. -/
theorem failed_insert_never_clean (alloc : Allocation) (k : K) (hA : A.Lawful)
    (hO : StrictWeak O.lt) (hv : O.valid (O.assign k)) (hnode : alloc.node)
    (hfail : ¬(alloc.item ∧ O.valid (O.copy k))) :
    (∀ (s : State A K V) (a : Model K V) (v : V), Represents O s a settled →
      a.lookup O (O.assign k) = none → ¬FailsCleanly s (mapInsert O alloc k v s)) ∧
    ∀ (s : State A K Unit) (a : Model K Unit), Represents O s a settled →
      a.lookup O (O.assign k) = none → ¬FailsCleanly s (setInsert O alloc k s) := by
  constructor
  · rintro s a v h habsent ⟨s', hs', -⟩
    rw [mapInsert, insert_fails v hA hO h hv hnode hfail habsent] at hs'
    cases hs'
  · rintro s a h habsent ⟨s', hs', -⟩
    rw [setInsert, insert_fails () hA hO h hv hnode hfail habsent] at hs'
    cases hs'

/-- The undo of an insertion into an empty map and set. -/
theorem failed_insert_never_clean_empty :
    ¬FailsCleanly (State.empty listed ℕ ℕ)
        (mapInsert natKeys ⟨true, false⟩ 1 10 (State.empty listed ℕ ℕ)) ∧
      ¬FailsCleanly (State.empty listed ℕ Unit)
        (setInsert natKeys ⟨true, false⟩ 1 (State.empty listed ℕ Unit)) := by
  have hclean := failed_insert_never_clean (V := ℕ) (O := natKeys) ⟨true, false⟩ 1 listed_lawful
    natKeys_laws.order rfl rfl (by simp)
  exact ⟨hclean.1 _ _ 10 (represents_empty listed_lawful) rfl,
    hclean.2 _ _ (represents_empty listed_lawful) rfl⟩

/-- A map with the one key 1. -/
def oneKey : State listed ℕ ℕ where
  table := [0]
  memory := Function.update (fun _ => none) 0 (some (.heap 0))
  allocated := 1
  freed := []
  store := ⟨Objects.empty.create (1, 10), []⟩

/-- Inserting 2 into it fails when the item cannot be allocated. -/
theorem not_failsCleanly_oneKey :
    ¬FailsCleanly oneKey (mapInsert natKeys ⟨true, false⟩ 2 20 oneKey) := by
  rintro ⟨s', hs', -⟩
  have hnone : (mapInsert natKeys ⟨true, false⟩ 2 20 oneKey).isNone := by decide
  rw [hs'] at hnone
  cases hnone

end Undo

section Clearing

/-- The state after `clear`: the table is empty, each of its nodes was handed
back once, and each of its items lost one reference and is gone exactly when
no holder is left on it. -/
structure Cleared (s s' : State A K V) : Prop where
  count_eq : count s' = 0
  freed : s'.freed.Perm (s.freed ++ A.nodes s.table)
  owned : Owned s'.store fun _ => 0
  holders : s'.store.holders = s.store.holders

/-- `clear` ends with the table cleared and makes no invalid access. -/
def ClearsCleanly (s : State A K V) (clear : ℕ → State A K V → Option (State A K V)) : Prop :=
  ∃ rounds s', clear rounds s = some s' ∧ Cleared s s'

/-- The first round of `clear` reads the node that the deletion handed back. -/
theorem clear_fails (hA : A.Lawful) (hO : StrictWeak O.lt) (h : Represents O s a settled)
    (hne : a.entries ≠ []) (rounds : ℕ) : clear O rounds s = none := by
  obtain ⟨x, xs, hx⟩ := List.exists_cons_of_ne_nil hne
  obtain ⟨hfirst, hnodes⟩ := hA.enumerate_first s.table
  have hrep := retable h hnodes
  obtain ⟨n, ns, hn⟩ : ∃ n ns, A.nodes s.table = n :: ns := by
    refine List.exists_cons_of_ne_nil fun hx' => hne ?_
    have hm := h.nodes
    rw [hx'] at hm
    exact List.map_eq_nil_iff.mp hm.symm
  have hmem : s.memory n = some (.heap x.1) := by
    have hm := h.nodes
    rw [hn, hx] at hm
    exact (List.cons.inj hm).1
  rw [hn, List.head?_cons] at hfirst
  cases rounds with
  | zero => simp [clear, clearLoop]
  | succ rounds =>
    obtain ⟨c, hc, hcv⟩ := h.cell (e := x) (by simp [hx])
    have hkey : ({ s with table := (A.enumerate true s.table).1 } : State A K V).keyAt none
        (.heap x.1) = some (keyOf x) := by simp [State.keyAt, hc, hcv, keyOf]
    have hsorted := h.sorted
    rw [hx] at hsorted
    have hs : Splits O.lt keyOf (keyOf x) [] (some x) xs :=
      ⟨by simp, by simp [hO.equiv_refl], (List.pairwise_cons.mp hsorted).1⟩
    obtain ⟨ns', m, ms, hn', hns, hm, -, hl⟩ := located none (.heap x.1) hO hrep hkey
      (by simp [hx]) hs (hO.equiv_refl _)
    obtain rfl : ns' = [] := List.map_eq_nil_iff.mp hns
    obtain ⟨m, rfl⟩ : ∃ m', m = some m' := by
      cases m with
      | none => simp at hm
      | some m => exact ⟨m, rfl⟩
    obtain ⟨t, ht, -⟩ := hA.delete_found _ _ [] m ms (by simpa using hn') hl
    obtain rfl : n = m := by
      rw [hnodes, hn] at hn'
      simpa using (List.cons.inj hn').1
    simp [clear, hfirst, clearLoop, hmem, State.delete, ht, State.free]

/-- `clear` on an empty table. -/
theorem clear_empty (hA : A.Lawful) (h : Represents O s a settled) (he : a.entries = []) :
    ∃ s', clear O 1 s = some s' ∧ Cleared s s' := by
  obtain ⟨hfirst, hnodes⟩ := hA.enumerate_first s.table
  have hn : A.nodes s.table = [] := by
    have hm := h.nodes
    rw [he] at hm
    exact List.map_eq_nil_iff.mp hm
  rw [hn, List.head?_nil] at hfirst
  refine ⟨{ s with table := (A.enumerate true s.table).1 }, by simp [clear, hfirst, clearLoop], ?_,
    ?_, ?_, rfl⟩
  · simp [count, hnodes, hn]
  · simp [hn]
  · exact h.owned.congr fun i => by simp [Model.present, he, settled]

/-- `clear` does what it is for exactly on empty maps and sets. -/
theorem clears_iff_empty (hA : A.Lawful) (hO : StrictWeak O.lt) :
    (∀ (s : State A K V) (a : Model K V), Represents O s a settled →
      (ClearsCleanly s (mapClear O) ↔ a.entries = [])) ∧
    ∀ (s : State A K Unit) (a : Model K Unit), Represents O s a settled →
      (ClearsCleanly s (setClear O) ↔ a.entries = []) := by
  constructor
  · intro s a h
    constructor
    · rintro ⟨rounds, s', hs', -⟩
      by_contra hne
      rw [mapClear, clear_fails hA hO h hne] at hs'
      cases hs'
    · intro he
      obtain ⟨s', hs', hc⟩ := clear_empty hA h he
      exact ⟨1, s', hs', hc⟩
  · intro s a h
    constructor
    · rintro ⟨rounds, s', hs', -⟩
      by_contra hne
      rw [setClear, clear_fails hA hO h hne] at hs'
      cases hs'
    · intro he
      obtain ⟨s', hs', hc⟩ := clear_empty hA h he
      exact ⟨1, s', hs', hc⟩

/-- An empty map and set are cleared. -/
theorem clears_empty :
    ClearsCleanly (State.empty listed ℕ ℕ) (mapClear natKeys) ∧
      ClearsCleanly (State.empty listed ℕ Unit) (setClear natKeys) := by
  have hclear := clears_iff_empty (V := ℕ) listed_lawful natKeys_laws.order
  exact ⟨(hclear.1 _ Model.empty (represents_empty listed_lawful)).mpr rfl,
    (hclear.2 _ Model.empty (represents_empty listed_lawful)).mpr rfl⟩

/-- A map with one key is not. -/
theorem not_clears_oneKey : ¬ClearsCleanly oneKey (mapClear natKeys) := by
  rintro ⟨rounds, s', hs', -⟩
  cases rounds with
  | zero => cases hs'
  | succ rounds =>
    have hnone : mapClear natKeys (rounds + 1) oneKey = none := rfl
    rw [hs'] at hnone
    cases hnone

end Clearing

end KernelLib.ContainerFaults
