import KernelLib.ContainerModel
import KernelLib.StepRuns

/-!
# Containers refine finite maps

The searches of the table routines end where the sorted entries split around
the key looked for, because `Compare` reads the keys of live items. Every
operation then does not fail, returns what the finite map says and leaves a
state that represents the map after it, as long as no item gets more
references than its counter can tell. Runs follow by induction.
-/

namespace KernelLib.ContainerRefines

open AvlRoutines CountedObjects RefHolder AvlContainer OrderedEntries ContainerModel StepRuns

variable {A : Routines} {K V : Type} {O : KeyOps K} {flag : Bool} {s : State A K V}
  {a : Model K V} {loose : ℕ → ℕ} {k temp : K} {us vs : List (Entry K V)}
  {e : Option (Entry K V)}

/-- No loose references. -/
def settled : ℕ → ℕ := fun _ => 0

section Searching

/-- `Compare` reads the key of the node's entry. -/
theorem compare_entry {n : ℕ} {e : Entry K V} {stack : Option K} {first : Ptr}
    (h : Represents O s a loose) (hf : s.keyAt stack first = some temp) (he : e ∈ a.entries)
    (hn : s.memory n = some (.heap e.1)) :
    compareItems O stack first s n = some (order O temp (keyOf e)) := by
  obtain ⟨c, hc, hv⟩ := h.cell he
  have hk : s.keyAt stack (.heap e.1) = some (keyOf e) := by simp [State.keyAt, hc, hv, keyOf]
  simp [compareItems, hf, hn, hk]

/-- The nodes of a table split with its entries. -/
theorem exists_nodes (h : Represents O s a loose) (he : a.entries = us ++ e.toList ++ vs) :
    ∃ (ns : List ℕ) (n : Option ℕ) (ms : List ℕ), A.nodes s.table = ns ++ n.toList ++ ms ∧
      ns.map s.memory = us.map (fun x => some (.heap x.1)) ∧
      n.toList.map s.memory = e.toList.map (fun x => some (.heap x.1)) ∧
      ms.map s.memory = vs.map (fun x => some (.heap x.1)) := by
  have hn := h.nodes
  rw [he, List.map_append, List.map_append, List.map_eq_append_iff] at hn
  obtain ⟨ns', ms, hns', hleft, hms⟩ := hn
  obtain ⟨ns, n', hn', hns, hn⟩ := List.map_eq_append_iff.mp hleft
  cases e with
  | none =>
    obtain rfl : n' = [] := by simpa using hn
    exact ⟨ns, none, ms, by simpa [hn'] using hns', hns, hn, hms⟩
  | some x =>
    obtain ⟨n, rfl⟩ : ∃ n, n' = [n] := by
      have hlen := congrArg List.length hn
      simpa using List.length_eq_one_iff.mp (by simpa using hlen)
    exact ⟨ns, some n, ms, by simpa [hn'] using hns', hns, hn, hms⟩

/-- A pointwise fact about entries holds of the nodes that point at them. -/
theorem forall_nodes {ns : List ℕ} {xs : List (Entry K V)} {P : ℕ → Prop}
    (hm : ns.map s.memory = xs.map fun x => some (.heap x.1))
    (hP : ∀ n, ∀ x ∈ xs, s.memory n = some (.heap x.1) → P n) : ∀ n ∈ ns, P n := by
  intro n hn
  have hmem := List.mem_map_of_mem (f := s.memory) hn
  rw [hm, List.mem_map] at hmem
  obtain ⟨x, hx, hxn⟩ := hmem
  exact hP n x hx hxn.symm

/-- A search for a key ends where the entries split around it. -/
theorem located (stack : Option K) (first : Ptr) (hO : StrictWeak O.lt)
    (h : Represents O s a loose) (hf : s.keyAt stack first = some temp)
    (he : a.entries = us ++ e.toList ++ vs) (hs : Splits O.lt keyOf k us e vs)
    (hk : equiv O.lt temp k) :
    ∃ (ns : List ℕ) (n : Option ℕ) (ms : List ℕ), A.nodes s.table = ns ++ n.toList ++ ms ∧
      ns.map s.memory = us.map (fun x => some (.heap x.1)) ∧
      n.toList.map s.memory = e.toList.map (fun x => some (.heap x.1)) ∧
      ms.map s.memory = vs.map (fun x => some (.heap x.1)) ∧
      Located (compareItems O stack first s) ns n ms := by
  obtain ⟨ns, n, ms, hnodes, hns, hn, hms⟩ := exists_nodes h he
  have hk' := equiv_comm.trans hk
  refine ⟨ns, n, ms, hnodes, hns, hn, hms, forall_nodes hns ?_, fun m hm => ?_,
    forall_nodes hms ?_⟩
  · intro m x hx hxm
    have hlt := hO.lt_of_lt_equiv (hs.below x hx) hk'
    rw [compare_entry h hf (by simp [he, hx]) hxm, order, hO.asymm hlt, hlt]
    rfl
  · refine forall_nodes (P := fun m => compareItems O stack first s m = some .eq) hn ?_ m
      (by simpa using hm)
    intro m x hx hxm
    obtain ⟨h₁, h₂⟩ := equiv_iff.mp (hO.equiv_trans (hs.found x (by simpa using hx)) hk')
    rw [compare_entry h hf (by simp only [he, List.mem_append, hx, or_true, true_or]) hxm, order,
      h₁, h₂]
    rfl
  · intro m x hx hxm
    have hlt := hO.lt_of_equiv_lt hk (hs.above x hx)
    rw [compare_entry h hf (by simp [he, hx]) hxm, order, hlt]
    rfl

/-- A search for the key of an entry ends at its node. -/
theorem located_entry {x : Entry K V} (stack : Option K) (first : Ptr) (hO : StrictWeak O.lt)
    (h : Represents O s a loose) (hf : s.keyAt stack first = some temp)
    (he : a.entries = us ++ x :: vs) (hs : Splits O.lt keyOf k us (some x) vs)
    (hk : equiv O.lt temp k) :
    ∃ ns n ms, A.nodes s.table = ns ++ n :: ms ∧
      ns.map s.memory = us.map (fun x => some (.heap x.1)) ∧ s.memory n = some (.heap x.1) ∧
      ms.map s.memory = vs.map (fun x => some (.heap x.1)) ∧
      Located (compareItems O stack first s) ns (some n) ms := by
  obtain ⟨ns, n, ms, hn, hns, hm, hms, hl⟩ := located stack first hO h hf
    (e := some x) (by simpa using he) hs hk
  cases n with
  | none => simp at hm
  | some n => exact ⟨ns, n, ms, by simpa using hn, hns, by simpa using hm, hms, hl⟩

end Searching

section Lookup

/-- The routines may rearrange a table as long as its nodes stay in order. -/
theorem retable {t : A.Table} (h : Represents O s a loose) (ht : A.nodes t = A.nodes s.table) :
    Represents O { s with table := t } a loose where
  nodes := by
    change (A.nodes t).map s.memory = _
    rw [ht, h.nodes]
  nodup := ht ▸ h.nodup
  gone n hn := h.gone n (ht ▸ hn)
  bound n hn := h.bound n (ht ▸ hn)
  freed_nodup := h.freed_nodup
  mem_freed n := by
    change n ∈ s.freed ↔ n < s.allocated ∧ n ∉ A.nodes t
    rw [ht]
    exact h.mem_freed n
  sorted := h.sorted
  present := h.present
  owned := h.owned
  holders := h.holders
  value := h.value
  created := h.created

/-- An item the model finds is in the table. -/
theorem refs_pos_of_lookup {i : ℕ} (hi : (a.lookup O k).map Prod.fst = some i) :
    0 < a.refs i + loose i := by
  obtain ⟨e, he, rfl⟩ := Option.map_eq_some_iff.mp hi
  have hpos : 0 < a.present.count e.1 :=
    List.count_pos_iff.mpr (List.mem_map_of_mem (List.mem_of_find?_eq_some he))
  simp only [Model.refs]
  omega

/-- A lookup finds the node of the entry with the key. -/
theorem lookup_spec (hA : A.Lawful) (hO : StrictWeak O.lt) (h : Represents O s a loose)
    (hk : equiv O.lt temp k) :
    ∃ n, A.lookup (compareItems O (some temp) .stack s) s.table = some n ∧
      s.itemOf n = some ((a.lookup O k).map Prod.fst) ∧
      n.isNone = (a.lookup O k).isNone := by
  obtain ⟨us, e, vs, he, hs⟩ := h.sorted.exists_splits hO k
  obtain ⟨ns, n, ms, hn, -, hm, -, hl⟩ := located (some temp) .stack hO h rfl he hs hk
  have hfind : a.lookup O k = e := by
    rw [Model.lookup, he]
    exact hs.find_eq
  refine ⟨n, hA.lookup_eq _ _ _ _ _ hn hl, ?_⟩
  rw [hfind]
  cases n with
  | none => cases e <;> simp_all [State.itemOf]
  | some n =>
    cases e with
    | none => simp at hm
    | some x =>
      have hx : s.memory n = some (.heap x.1) := by simpa using hm
      simp [State.itemOf, hx]

/-- `find` finds what the model finds, and copies a pointer to it. -/
theorem find_spec (flag : Bool) (hA : A.Lawful) (hK : KeyOrder O) (hv : O.valid (O.assign k))
    (h : Represents O s a settled) :
    ∃ s', AvlContainer.find flag O k s = some (s', a.result flag O (.find k)) ∧
      Represents O s' (a.step O (.find k)) settled := by
  obtain ⟨n, hn, hitem, -⟩ := lookup_spec hA hK.order h (hK.assign_equiv k)
  obtain ⟨s', hs', hrep, -⟩ := h.returnPair (p := (a.lookup O k).map Prod.fst) flag
    fun i hi => refs_pos_of_lookup hi
  refine ⟨s', ?_, hrep⟩
  simp [AvlContainer.find, hv, hn, hitem, hs', Model.result]

end Lookup

section Removing

/-- Deleting the node of a key hands it back and loosens the table's reference. -/
theorem delete_spec {x : Entry K V} (hA : A.Lawful) (hO : StrictWeak O.lt)
    (h : Represents O s a loose) (he : a.entries = us ++ x :: vs)
    (hs : Splits O.lt keyOf k us (some x) vs) (hk : equiv O.lt temp k) :
    ∃ s', s.delete O (some temp) .stack = some (s', true) ∧
      Represents O s' { a with entries := us ++ vs } fun i => loose i + points (some x.1) i := by
  obtain ⟨ns, n, ms, hn', hns, -, hms, hl⟩ := located_entry (some temp) .stack hO h rfl he hs hk
  obtain ⟨t, ht, hnodes⟩ := hA.delete_found _ _ _ _ _ hn' hl
  have hnd := h.nodup
  rw [hn'] at hnd
  have hnot : n ∉ ns ++ ms := (List.nodup_cons.mp (List.perm_middle.nodup_iff.mp hnd)).1
  have hmem : ∀ m, m ∈ A.nodes s.table ↔ m = n ∨ m ∈ ns ++ ms := fun m => by
    rw [hn', List.perm_middle.mem_iff, List.mem_cons]
  have hother : ∀ m ∈ ns ++ ms, Function.update s.memory n none m = s.memory m := fun m hx =>
    Function.update_of_ne (by rintro rfl; exact hnot hx) _ _
  refine ⟨({ s with table := t } : State A K V).free n, by simp [State.delete, ht], ?_⟩
  constructor
  case nodes =>
    change (A.nodes t).map (Function.update s.memory n none) = _
    rw [hnodes, List.map_congr_left hother, List.map_append, hns, hms, List.map_append]
  case nodup =>
    change (A.nodes t).Nodup
    rw [hnodes]
    exact (List.nodup_cons.mp (List.perm_middle.nodup_iff.mp hnd)).2
  case gone =>
    intro m hm
    change m ∉ A.nodes t at hm
    change Function.update s.memory n none m = none
    rw [hnodes] at hm
    by_cases hmn : m = n
    · simp [hmn]
    · rw [Function.update_of_ne hmn]
      exact h.gone m fun hx => ((hmem m).mp hx).elim hmn hm
  case bound =>
    intro m hm
    change m ∈ A.nodes t at hm
    rw [hnodes] at hm
    exact h.bound m ((hmem m).mpr (.inr hm))
  case freed_nodup =>
    refine h.freed_nodup.append (List.nodup_singleton n) ?_
    simpa [h.mem_freed] using fun _ => (hmem n).mpr (.inl rfl)
  case mem_freed =>
    intro m
    change m ∈ s.freed ++ [n] ↔ m < s.allocated ∧ m ∉ A.nodes t
    rw [List.mem_append, List.mem_singleton, h.mem_freed, hnodes, hmem]
    constructor
    · rintro (⟨h₁, h₂⟩ | rfl)
      · exact ⟨h₁, fun hx => h₂ (.inr hx)⟩
      · exact ⟨h.bound m ((hmem m).mpr (.inl rfl)), hnot⟩
    · rintro ⟨h₁, h₂⟩
      by_cases hmn : m = n
      · exact .inr hmn
      · exact .inl ⟨h₁, fun hx => hx.elim hmn h₂⟩
  case sorted =>
    have hsorted := h.sorted
    rw [he] at hsorted
    exact hsorted.sublist (by simp)
  case present =>
    have hpres := h.present
    rw [Model.present, he] at hpres
    exact hpres.sublist ((by simp : (us ++ vs).Sublist (us ++ x :: vs)).map _)
  case owned =>
    refine h.owned.congr fun i => ?_
    simp only [Model.present, he, List.map_append, List.map_cons, List.count_append,
      List.count_cons, points, beq_iff_eq, Option.some.injEq]
    ring
  case holders => exact h.holders
  case value =>
    intro y hy c hc
    refine h.value y ?_ c hc
    rw [he]
    exact List.perm_middle.mem_iff.mpr (List.mem_cons_of_mem _ hy)
  case created => exact h.created

/-- `remove` removes what the model removes. -/
theorem remove_spec (hA : A.Lawful) (hK : KeyOrder O) (hv : O.valid (O.assign k))
    (h : Represents O s a settled)
    (hw : (a.step O (.remove k)).Within) :
    ∃ s', remove O k s = some (s', a.result flag O (.remove k)) ∧
      Represents O s' (a.step O (.remove k)) settled := by
  obtain ⟨us, e, vs, he, hs⟩ := h.sorted.exists_splits hK.order k
  obtain ⟨n, hn, hitem, hnone⟩ := lookup_spec hA hK.order h (hK.assign_equiv k)
  obtain ⟨s₁, hs₁, hrep₁, -⟩ := h.returnPair (p := (a.lookup O k).map Prod.fst) false
    fun i hi => refs_pos_of_lookup hi
  have hfind : a.lookup O k = e := by
    rw [Model.lookup, he]
    exact hs.find_eq
  have hstep : a.step O (.remove k) =
      { a with entries := us ++ vs }.newHolder (e.map Prod.fst) := by
    rw [Model.step, hfind, he, hs.without_eq]
  rw [hstep] at hw ⊢
  rw [hfind] at hrep₁ hitem hnone hs₁
  cases e with
  | none =>
    have he' : a.entries = us ++ vs := by simpa using he
    obtain rfl : n = none := by simpa using hnone
    have hs₁' : s.returnPair none false = some (s₁, .pair none false) := hs₁
    refine ⟨s₁, ?_, ?_⟩
    · simp [remove, hv, hn, hitem, hs₁', Model.result, hfind]
    · rw [← he']
      exact hrep₁
  | some x =>
    have he' : a.entries = us ++ x :: vs := by simpa using he
    obtain ⟨s₂, hs₂, hrep₂⟩ := delete_spec hA hK.order hrep₁ he' hs (hK.assign_equiv k)
    obtain ⟨s', hs', hrep, -⟩ := hrep₂.release fun i _ => hw i
    refine ⟨s', ?_, hrep⟩
    have hs₁' : s.returnPair (some x.1) false = some (s₁, .pair (some x.1) false) := hs₁
    obtain ⟨m, rfl⟩ : ∃ m, n = some m := by
      cases n with
      | none => cases hnone
      | some m => exact ⟨m, rfl⟩
    simp [remove, hv, hn, hitem, hs₁', hs₂, hs', Model.result, hfind]

end Removing

section Inserting

/-- A new node for the object on the stack, in place. -/
structure FreshNode (O : KeyOps K) (temp : K) (s : State A K V) (us vs : List (Entry K V)) (n : ℕ)
    (s' : State A K V) : Prop where
  store : s'.store = s.store
  nodes : ∃ ns ms, A.nodes s.table = ns ++ ms ∧ A.nodes s'.table = ns ++ n :: ms ∧
    ns.map s.memory = us.map (fun x => some (.heap x.1)) ∧
    ms.map s.memory = vs.map (fun x => some (.heap x.1)) ∧
    Located (compareItems O (some temp) .stack s) ns none ms
  memory : s'.memory = Function.update s.memory n (some .stack)
  allocated : s'.allocated = s.allocated + 1
  freed : s'.freed = s.freed
  fresh : n = s.allocated

/-- An insertion of an absent key gives it a node that points at the stack. -/
theorem insert_absent (v : V) (alloc : Allocation) {k' : K} (hA : A.Lawful) (hO : StrictWeak O.lt)
    (h : Represents O s a loose) (he : a.entries = us ++ vs)
    (hs : Splits O.lt keyOf k' us none vs) (hk : equiv O.lt (O.assign k) k')
    (hv : O.valid (O.assign k)) (hnode : alloc.node) :
    ∃ n s', insert O alloc k v s = fillNode O alloc k v n s' ∧
      FreshNode O (O.assign k) s us vs n s' := by
  have he' : a.entries = us ++ (none : Option (Entry K V)).toList ++ vs := by simpa using he
  obtain ⟨ns, n, ms, hn, hns, hm, hms, hl⟩ := located (some (O.assign k)) .stack hO h rfl he' hs hk
  obtain rfl : n = none := by cases n <;> simp_all
  have hn' : A.nodes s.table = ns ++ ms := by simpa using hn
  obtain ⟨t, ht, hnodes⟩ := hA.insert_new _ s.allocated _ _ _ hn' hl
  refine ⟨s.allocated, ({ s with table := t, allocated := s.allocated + 1 } : State A K V).write
    s.allocated .stack, by simp [AvlContainer.insert, hv, hnode, ht], ?_⟩
  exact ⟨rfl, ⟨ns, ms, hn', hnodes, hns, hms, hl⟩, rfl, rfl, rfl, rfl⟩

section Fresh

variable {s' : State A K V} {n : ℕ}

/-- A new node was not in the table. -/
theorem FreshNode.not_mem (hf : FreshNode O temp s us vs n s') (h : Represents O s a loose) :
    n ∉ A.nodes s.table := fun hx => by
  have hb := h.bound n hx
  rw [hf.fresh] at hb
  omega

/-- It is the only new one. -/
theorem FreshNode.mem_nodes (hf : FreshNode O temp s us vs n s') (m : ℕ) :
    m ∈ A.nodes s'.table ↔ m = n ∨ m ∈ A.nodes s.table := by
  obtain ⟨ns, ms, hn, hn', -⟩ := hf.nodes
  rw [hn', hn, List.perm_middle.mem_iff, List.mem_cons]

/-- What the other nodes point at does not change when the new one is filled. -/
theorem FreshNode.memory_of_ne (hf : FreshNode O temp s us vs n s') (p : Option Ptr) {m : ℕ}
    (hm : m ≠ n) : Function.update s'.memory n p m = s.memory m := by
  rw [hf.memory, Function.update_idem, Function.update_of_ne hm]

/-- It holds its item between those of the nodes before it and behind it. -/
theorem FreshNode.map_memory (hf : FreshNode O temp s us vs n s') (h : Represents O s a loose)
    (i : ℕ) : (A.nodes s'.table).map (Function.update s'.memory n (some (.heap i))) =
      us.map (fun x => some (.heap x.1)) ++ some (.heap i) :: vs.map fun x => some (.heap x.1) := by
  have hnot := hf.not_mem h
  obtain ⟨ns, ms, hn, hn', hns, hms, -⟩ := hf.nodes
  rw [hn] at hnot
  rw [hn', List.map_append, List.map_cons, Function.update_self, ← hns, ← hms]
  congr 1
  · refine List.map_congr_left fun m hm => hf.memory_of_ne _ ?_
    rintro rfl
    exact hnot (List.mem_append_left _ hm)
  · congr 1
    refine List.map_congr_left fun m hm => hf.memory_of_ne _ ?_
    rintro rfl
    exact hnot (List.mem_append_right _ hm)

/-- A new object holds what it was created with, and the others what they held. -/
theorem value_create {x : K × V} {y : Entry K V} {c : Cell (K × V)}
    (h : Represents O s a loose) (hy : y = (a.created, x) ∨ y ∈ a.entries)
    (hc : (s.store.objs.create x).cell y.1 = some c) : c.value = y.2 := by
  rw [create_cell] at hc
  split at hc
  · next hx =>
    rcases hy with rfl | hy
    · rw [← Option.some.inj hc]
    · have hy' : a.created ∈ a.present := by
        rw [← h.created, ← hx]
        exact List.mem_map_of_mem hy
      exact absurd hy' h.created_not_present
  · next hx =>
    rcases hy with rfl | hy
    · exact absurd h.created.symm hx
    · exact h.value y hy c hc

/-- The new node is pointed at a new item. -/
theorem fresh_represents {v : V} (hK : KeyOrder O) (h : Represents O s a loose)
    (he : a.entries = us ++ vs) (hs : Splits O.lt keyOf k us none vs)
    (hf : FreshNode O temp s us vs n s') :
    Represents O (({ s' with store := { s'.store with
        objs := s'.store.objs.create (O.copy k, v) } } : State A K V).write n (.heap a.created))
      (a.add O k v) loose := by
  have hmem := hf.mem_nodes
  have hplace : (a.add O k v).entries = us ++ (a.created, O.copy k, v) :: vs := by
    rw [Model.add, he]
    exact hs.place_eq hK.order (hK.copy_equiv k)
  constructor
  case nodes =>
    rw [hplace, List.map_append, List.map_cons]
    exact hf.map_memory h a.created
  case nodup =>
    change (A.nodes s'.table).Nodup
    obtain ⟨ns, ms, hn, hn', -⟩ := hf.nodes
    rw [hn', List.perm_middle.nodup_iff, ← hn]
    exact List.nodup_cons.mpr ⟨hf.not_mem h, h.nodup⟩
  case gone =>
    intro m hm
    change m ∉ A.nodes s'.table at hm
    rw [hmem, not_or] at hm
    exact (hf.memory_of_ne _ hm.1).trans (h.gone m hm.2)
  case bound =>
    intro m hm
    change m < s'.allocated
    rw [hf.allocated]
    rcases (hmem m).mp hm with rfl | hx
    · exact hf.fresh ▸ Nat.lt_succ_self _
    · exact Nat.lt_succ_of_lt (h.bound m hx)
  case freed_nodup => exact hf.freed ▸ h.freed_nodup
  case mem_freed =>
    intro m
    change m ∈ s'.freed ↔ m < s'.allocated ∧ m ∉ A.nodes s'.table
    rw [hf.freed, hf.allocated, hmem, h.mem_freed, hf.fresh]
    constructor
    · rintro ⟨h₁, h₂⟩
      exact ⟨by omega, fun hx => hx.elim (by omega) h₂⟩
    · rintro ⟨h₁, h₂⟩
      rw [not_or] at h₂
      exact ⟨by omega, h₂.2⟩
  case sorted =>
    rw [hplace]
    exact hs.sorted hK.order (he ▸ h.sorted) (hK.copy_equiv k)
  case present =>
    rw [Model.present, hplace, List.map_append, List.map_cons, List.perm_middle.nodup_iff,
      List.nodup_cons, ← List.map_append, ← he]
    exact ⟨h.created_not_present, h.present⟩
  case owned =>
    have hcell := h.owned.create (O.copy k, v)
    rw [← hf.store] at hcell
    refine Exact.congr hcell fun i => ?_
    change _ + held s'.store.holders i = _
    rw [hf.store, h.created, Model.present, hplace]
    simp only [Model.present, he, List.map_append, List.map_cons, List.count_append,
      List.count_cons, single, beq_iff_eq, eq_comm (a := i)]
    ring
  case holders => exact (congrArg Store.holders hf.store).trans h.holders
  case value =>
    intro y hy c hc
    change (s'.store.objs.create (O.copy k, v)).cell y.1 = some c at hc
    rw [hf.store] at hc
    rw [hplace, List.perm_middle.mem_iff, List.mem_cons, ← he] at hy
    exact value_create h hy hc
  case created =>
    change s'.store.objs.created + 1 = a.created + 1
    rw [hf.store, h.created]

end Fresh

/-- `insert` with memory inserts what the model inserts. -/
theorem insert_spec (flag : Bool) (v : V) (hA : A.Lawful) (hK : KeyOrder O)
    (hv : O.valid (O.assign k)) (hc : O.valid (O.copy k)) (h : Represents O s a settled) :
    ∃ s', insert O ⟨true, true⟩ k v s = some (s', a.result flag O (.insert k v)) ∧
      Represents O s' (a.step O (.insert k v)) settled := by
  obtain ⟨us, e, vs, he, hs⟩ := h.sorted.exists_splits hK.order k
  have hfind : a.lookup O k = e := by
    rw [Model.lookup, he]
    exact hs.find_eq
  cases e with
  | none =>
    have he' : a.entries = us ++ vs := by simpa using he
    obtain ⟨n, s₁, hs₁, hf⟩ := insert_absent v ⟨true, true⟩ hA hK.order h he' hs
      (hK.assign_equiv k) hv rfl
    have hrep₁ := fresh_represents (v := v) hK h he' hs hf
    have hcreated : s₁.store.objs.created = a.created := by rw [hf.store, h.created]
    obtain ⟨s', hs', hrep, -⟩ := hrep₁.returnPair (p := some a.created) true (by
      rintro i hi
      rw [← Option.some.inj hi]
      have hmem : a.created ∈ (a.add O k v).present := by
        rw [Model.present, Model.add, he']
        refine List.mem_map.mpr ⟨(a.created, O.copy k, v), ?_, rfl⟩
        rw [hs.place_eq (x := (a.created, O.copy k, v)) hK.order (hK.copy_equiv k)]
        simp
      have hpos := List.count_pos_iff.mpr hmem
      simp only [Model.refs]
      omega)
    refine ⟨s', ?_, ?_⟩
    · rw [hs₁]
      simp [fillNode, hc, hcreated, hs', Model.result, hfind]
    · rw [Model.step, hfind]
      exact hrep
  | some x =>
    obtain ⟨ns, n, ms, hn, -, hx, -, hl⟩ := located_entry (some (O.assign k)) .stack hK.order h rfl
      (by simpa using he) hs (hK.assign_equiv k)
    obtain ⟨t, ht, hnodes⟩ := hA.insert_found _ (some s.allocated) _ _ _ _ hn hl
    obtain ⟨s', hs', hrep, -⟩ := (retable h hnodes).returnPair (p := some x.1) false
      fun i hi => refs_pos_of_lookup (O := O) (k := k) (by rw [hfind]; exact hi)
    refine ⟨s', ?_, ?_⟩
    · simp [AvlContainer.insert, hv, ht, State.itemOf, hx, hs', Model.result, hfind]
    · rw [Model.step, hfind]
      exact hrep

end Inserting

section Iteration

variable {keep : ℕ → Bool} {ys pre : List (Entry K V)} {ns ms : List ℕ}

/-- The item of the first entry. -/
def firstItem (ys : List (Entry K V)) : Option ℕ := ys.head?.map Prod.fst

/-- The handle of an iterator at the first of these nodes. -/
def handleAt (ns : List ℕ) : Handle := ns.head?.elim .stop .node

@[simp] theorem firstItem_nil : firstItem ([] : List (Entry K V)) = none := rfl

/-- The first of some entries has an item. -/
@[simp] theorem firstItem_cons (y : Entry K V) (ys : List (Entry K V)) :
    firstItem (y :: ys) = some y.1 := rfl

@[simp] theorem handleAt_nil : handleAt [] = .stop := rfl

/-- An iterator stands on the first of the nodes that are left. -/
@[simp] theorem handleAt_cons (n : ℕ) (ns : List ℕ) : handleAt (n :: ns) = .node n := rfl

/-- The model with copies of the holders of some items. -/
def withCopies (keep : ℕ → Bool) (xs : List ℕ) (a : Model K V) : Model K V :=
  { a with holders := a.holders ++ (xs.filter keep).map fun i => some (some i) }

/-- The copies that a loop keeps are made one by one. -/
theorem withCopies_cons (keep : ℕ → Bool) (i : ℕ) (xs : List ℕ) (a : Model K V) :
    withCopies keep xs (if keep i then a.newHolder (some i) else a) =
      withCopies keep (i :: xs) a := by
  by_cases hk : keep i <;> simp [withCopies, Model.newHolder, hk]

/-- Copies only add references. -/
theorem refs_le_withCopies (keep : ℕ → Bool) (xs : List ℕ) (a : Model K V) (i : ℕ) :
    a.refs i ≤ (withCopies keep xs a).refs i := by
  simp only [withCopies, Model.refs, Model.present, held, List.count_append]
  omega

/-- The item of an entry is referenced. -/
theorem refs_pos_of_firstItem {i : ℕ} (he : a.entries = pre ++ ys) (hi : firstItem ys = some i) :
    0 < a.refs i := by
  obtain ⟨y, hy, rfl⟩ := Option.map_eq_some_iff.mp hi
  have hmem : y.1 ∈ a.present := List.mem_map_of_mem (by
    rw [he]
    exact List.mem_append_right _ (List.mem_of_mem_head? hy))
  have hpos := List.count_pos_iff.mpr hmem
  simp only [Model.refs]
  omega

/-- The node an iterator steps to gives it the item of its entry. -/
theorem itemOf_head (hm : ns.map s.memory = ys.map fun x => some (.heap x.1)) :
    s.itemOf ns.head? = some (firstItem ys) := by
  cases ns with
  | nil =>
    obtain rfl : ys = [] := List.map_eq_nil_iff.mp hm.symm
    rfl
  | cons n ns =>
    cases ys with
    | nil => simp at hm
    | cons y ys =>
      have hy : s.memory n = some (.heap y.1) := (List.cons.inj hm).1
      simp [State.itemOf, hy]

/-- An iterator that steps holds the next item and lets go of its own. -/
theorem advance_spec (handle : Handle) (value : Option ℕ) {restart : Option ℕ}
    (h : Represents O s a fun i => points value i)
    (hrestart : handle.restart = some restart) (hnext : A.next restart s.table = some ns.head?)
    (hm : ns.map s.memory = ys.map fun x => some (.heap x.1)) (he : a.entries = pre ++ ys)
    (hw : ∀ i, value = some i → a.refs i + points (firstItem ys) i ≤ maxCount) :
    ∃ s', advance handle value s = some (s', handleAt ns, firstItem ys) ∧
      Represents O s' a (fun i => points (firstItem ys) i) ∧
      s'.table = s.table ∧ s'.memory = s.memory := by
  obtain ⟨s₁, hs₁, hrep₁, ht₁, hm₁⟩ := h.retain (p := firstItem ys) fun i hi =>
    Nat.add_pos_left (refs_pos_of_firstItem he hi) _
  obtain ⟨s₂, hs₂, hrep₂, ht₂, hm₂⟩ := (hrep₁.congr fun i => add_comm _ _).release hw
  refine ⟨s₂, ?_, hrep₂, ht₂.trans ht₁, hm₂.trans hm₁⟩
  simp [advance, hrestart, hnext, itemOf_head hm, hs₁, hs₂, handleAt]

/-- One round visits the entry the iterator is at and steps to the next; the
rest follows. -/
theorem iterateLoop_spec (hA : A.Lawful) (n : ℕ)
    (h : Represents O s a fun i => points (firstItem ys) i)
    (hn : A.nodes s.table = ms ++ ns) (hm : ns.map s.memory = ys.map fun x => some (.heap x.1))
    (he : a.entries = pre ++ ys) (hlt : ys.length < n)
    (hw : (withCopies keep (ys.map Prod.fst) a).Within) :
    ∃ s', iterateLoop keep n (handleAt ns) (firstItem ys) s = some (s', ys.map Prod.fst) ∧
      Represents O s' (withCopies keep (ys.map Prod.fst) a) settled := by
  induction n generalizing s a ms ns pre ys with
  | zero => omega
  | succ n ih =>
    cases ys with
    | nil =>
      obtain rfl : ns = [] := by simpa using hm
      have hnone : Represents O s a fun i => settled i + points none i :=
        h.congr fun i => by simp [settled]
      obtain ⟨s', hs', hrep, -⟩ := hnone.release (by simp)
      refine ⟨s', ?_, by simpa [withCopies] using hrep⟩
      simp [iterateLoop, hs']
    | cons y ys =>
      obtain ⟨m, ns, rfl⟩ : ∃ m ns', ns = m :: ns' := by
        cases ns with
        | nil => simp at hm
        | cons m ns => exact ⟨m, ns, rfl⟩
      -- the body may copy the holder of the current item
      obtain ⟨s₁, hs₁, hcopy, ht₁, hm₁⟩ : ∃ s₁, loopBody keep y.1 s = some s₁ ∧
          Represents O s₁ (if keep y.1 then a.newHolder (some y.1) else a)
            (fun i => points (some y.1) i) ∧ s₁.table = s.table ∧ s₁.memory = s.memory := by
        by_cases hk : keep y.1
        · obtain ⟨st, hst, hrep⟩ := h.construct (p := some y.1) (by simp [points])
          rw [if_pos hk]
          exact ⟨{ s with store := st }, by simp [loopBody, hk, hst], hrep, rfl, rfl⟩
        · rw [if_neg hk]
          exact ⟨s, by simp [loopBody, hk], h, rfl, rfl⟩
      have hw' := hw
      rw [List.map_cons, ← withCopies_cons] at hw'
      have hentries : (if keep y.1 then a.newHolder (some y.1) else a).entries = a.entries := by
        split <;> rfl
      generalize ha₁ : (if keep y.1 then a.newHolder (some y.1) else a) = a₁ at hcopy hw' hentries
      have he₁ : a₁.entries = (pre ++ [y]) ++ ys := by simp [hentries, he]
      have hnd := hcopy.present
      rw [Model.present, hentries, he, List.map_append, List.map_cons,
        List.perm_middle.nodup_iff, List.nodup_cons, List.mem_append, not_or] at hnd
      have hnodes₁ : A.nodes s₁.table = ms ++ m :: ns := by rw [ht₁, hn]
      have hm₂ : ns.map s₁.memory = ys.map fun x => some (.heap x.1) := by
        rw [hm₁]
        exact (List.cons.inj hm).2
      -- the iterator steps to the next node
      obtain ⟨s₂, hs₂, hrep₂, ht₂, hmem₂⟩ := advance_spec (.node m) (some y.1) hcopy rfl
        (hA.next_after _ _ _ _ hcopy.nodup hnodes₁) hm₂ he₁ (by
          intro i hi
          rw [← Option.some.inj hi]
          have hz : points (firstItem ys) y.1 = 0 := if_neg fun hx => by
            obtain ⟨z, hz, hzy⟩ := Option.map_eq_some_iff.mp hx
            exact hnd.1.2 (hzy ▸ List.mem_map_of_mem (List.mem_of_mem_head? hz))
          rw [hz]
          exact (refs_le_withCopies keep _ a₁ y.1).trans (hw' y.1))
      have hnodes₂ : A.nodes s₂.table = (ms ++ [m]) ++ ns := by simp [ht₂, hnodes₁]
      obtain ⟨s', hs', hrep⟩ := ih hrep₂ hnodes₂ (by rw [hmem₂, hm₂]) he₁ (by simpa using hlt) hw'
      refine ⟨s', ?_, ?_⟩
      · simp [iterateLoop, hs₁, hs₂, hs']
      · rw [List.map_cons, ← withCopies_cons, ha₁]
        exact hrep

/-- A loop over the container sees what the model sees, and keeps the same copies. -/
theorem iterate_spec (hA : A.Lawful) (h : Represents O s a settled)
    (hf : a.Fits O (.iterate keep)) :
    ∃ s', iterate keep s = some (s', a.result flag O (.iterate keep)) ∧
      Represents O s' (a.step O (.iterate keep)) settled := by
  have hstep : a.step O (.iterate keep) = withCopies keep (a.entries.map Prod.fst) a := rfl
  obtain ⟨hw, hiter⟩ := hf
  rw [hstep] at hw
  have he : a.entries = [] ++ a.entries := rfl
  have hn : A.nodes s.table = [] ++ A.nodes s.table := rfl
  have hstart : Represents O s a fun i => points none i := h.congr fun i => by simp [settled]
  obtain ⟨s₁, hs₁, h₁, ht₁, hm₁⟩ := advance_spec .start none hstart rfl
    (hA.next_first s.table) h.nodes he (by simp)
  -- the iterator is copied and then destroyed
  obtain ⟨s₂, hs₂, h₂, ht₂, hm₂⟩ := h₁.retain (p := firstItem a.entries) fun i hi =>
    Nat.add_pos_left (refs_pos_of_firstItem he hi) _
  obtain ⟨s₃, hs₃, h₃, ht₃, hm₃⟩ := h₂.release (by
    intro i hi
    obtain ⟨y, hy, rfl⟩ := Option.map_eq_some_iff.mp hi
    have hlt := hiter y.1 (List.mem_map_of_mem (List.mem_of_mem_head? hy))
    have hle := refs_le_withCopies keep (a.entries.map Prod.fst) a y.1
    rw [hstep] at hlt
    rw [hi, points_self]
    omega)
  have hnodes : A.nodes s₃.table = A.nodes s.table := by rw [ht₃, ht₂, ht₁]
  have hmem : s₃.memory = s.memory := by rw [hm₃, hm₂, hm₁]
  have hlen : a.entries.length = (A.nodes s.table).length := by
    simpa using (congrArg List.length h.nodes).symm
  obtain ⟨s', hs', hrep⟩ := iterateLoop_spec hA (count s₃ + 1) h₃ (hnodes.trans hn)
    (by rw [hmem, h.nodes]) he (by rw [count, hnodes, hlen]; omega) hw
  refine ⟨s', ?_, hrep⟩
  simp [iterate, begin, hs₁, hs₂, hs₃, hs', Model.result, Model.present]

end Iteration

section Holders

variable {h r : ℕ} {p own : Option ℕ}

/-- A holder of the model has the same pointer in the store. -/
theorem ptr_store (hr : Represents O s a settled) (hp : a.ptr h = some p) :
    s.store.ptr h = some p := by
  rw [Store.ptr, hr.holders]
  exact hp

/-- The bound on references in the form the holder operations ask for. -/
theorem Within.counts {hs : List (Option (Option ℕ))}
    (hw : ({ a with holders := hs } : Model K V).Within) :
    ∀ i, a.present.count i + settled i + held hs i ≤ maxCount := hw

/-- A holder is copied. -/
theorem copyHolder_spec (flag : Bool) (hr : Represents O s a settled) (hp : a.ptr h = some p) :
    ∃ s', step flag O s (.copyHolder h) = some (s', .void) ∧
      Represents O s' (a.step O (.copyHolder h)) settled := by
  obtain ⟨o, hc, hev, how⟩ := copyConstruct_spec hr.owned (ptr_store hr hp)
  have hstep : a.step O (.copyHolder h) = { a with holders := s.store.holders ++ [some p] } := by
    rw [hr.holders]
    simp [Model.step, Model.newHolder, hp]
  rw [hstep]
  exact ⟨_, by simp only [step, hc, Option.map_some]; rfl, hr.evolve hev how⟩

/-- A holder is moved. -/
theorem moveHolder_spec (hr : Represents O s a settled) (hp : a.ptr h = some p) :
    ∃ s', step flag O s (.moveHolder h) = some (s', .void) ∧
      Represents O s' (a.step O (.moveHolder h)) settled := by
  obtain ⟨hc, how⟩ := moveConstruct_spec hr.owned (ptr_store hr hp)
  have hstep : a.step O (.moveHolder h) =
      { a with holders := (s.store.holders ++ [some p]).set h (some none) } := by
    rw [hr.holders]
    simp [Model.step, hp]
  rw [hstep]
  exact ⟨_, by simp only [step, hc, Option.map_some]; rfl, hr.evolve (Evolves.refl _) how⟩

/-- A holder is destroyed, and its item with the last reference. -/
theorem destroyHolder_spec (hr : Represents O s a settled) (hp : a.ptr h = some p)
    (hw : (a.step O (.destroyHolder h)).Within) :
    ∃ s', step flag O s (.destroyHolder h) = some (s', .void) ∧
      Represents O s' (a.step O (.destroyHolder h)) settled := by
  have hstep : a.step O (.destroyHolder h) =
      { a with holders := s.store.holders.set h none } := by rw [hr.holders]; rfl
  rw [hstep] at hw ⊢
  obtain ⟨o, d, hc, hev, how⟩ := destroy_spec hr.owned (ptr_store hr hp) (Within.counts hw)
  exact ⟨_, by simp only [step, hc, Option.map_some]; rfl, hr.evolve hev how⟩

/-- A holder is assigned another one. -/
theorem assignCopy_spec (hr : Represents O s a settled) (hh : a.ptr h = some own)
    (hp : a.ptr r = some p) (hw : (a.step O (.assignCopy h r)).Within) :
    ∃ s', step flag O s (.assignCopy h r) = some (s', .void) ∧
      Represents O s' (a.step O (.assignCopy h r)) settled := by
  have hh' := ptr_store hr hh
  have hp' := ptr_store hr hp
  by_cases hne : h = r
  · subst hne
    refine ⟨s, ?_, by simpa [Model.step] using hr⟩
    simp [step, Store.copyAssign, hh', State.withStore]
  · have hstep : a.step O (.assignCopy h r) =
        { a with holders := s.store.holders.set h (some p) } := by
      rw [hr.holders]
      simp [Model.step, hne, hp]
    rw [hstep] at hw ⊢
    obtain ⟨o, d, hc, hev, how⟩ := copyAssign_spec hr.owned hh' hp' hne (Within.counts hw)
    exact ⟨_, by simp only [step, hc, Option.map_some]; rfl, hr.evolve hev how⟩

/-- A holder is assigned one that is moved. -/
theorem assignMove_spec (hr : Represents O s a settled) (hh : a.ptr h = some own)
    (hp : a.ptr r = some p) (hw : (a.step O (.assignMove h r)).Within) :
    ∃ s', step flag O s (.assignMove h r) = some (s', .void) ∧
      Represents O s' (a.step O (.assignMove h r)) settled := by
  have hh' := ptr_store hr hh
  have hp' := ptr_store hr hp
  by_cases hne : h = r
  · subst hne
    refine ⟨s, ?_, by simpa [Model.step] using hr⟩
    simp [step, Store.moveAssign, hh', State.withStore]
  · have hstep : a.step O (.assignMove h r) =
        { a with holders := (s.store.holders.set h (some p)).set r (some none) } := by
      rw [hr.holders]
      simp [Model.step, hne, hp]
    rw [hstep] at hw ⊢
    obtain ⟨o, d, hc, hev, how⟩ := moveAssign_spec hr.owned hh' hp' hne (Within.counts hw)
    exact ⟨_, by simp only [step, hc, Option.map_some]; rfl, hr.evolve hev how⟩

end Holders

section Runs

/-- Every operation refines its model: it does not fail, returns what the finite
map says and leaves a state that represents the map after it. -/
theorem step_refines (flag : Bool) {op : Op K V} (hA : A.Lawful) (hK : KeyOrder O)
    (hop : Accepts O op) (h : Represents O s a settled) (hr : a.Ready op) (hf : a.Fits O op) :
    ∃ s', step flag O s op = some (s', a.result flag O op) ∧
      Represents O s' (a.step O op) settled := by
  have hlen : count s = a.entries.length := by
    simpa [count] using congrArg List.length h.nodes
  cases op with
  | insert k v => exact insert_spec flag v hA hK hop.1 hop.2 h
  | find k => exact find_spec flag hA hK hop h
  | remove k => exact remove_spec hA hK hop h hf.1
  | count => exact ⟨s, by simp [step, hlen, Model.result], h⟩
  | empty => exact ⟨s, by simp [step, hlen, Model.result], h⟩
  | iterate keep => exact iterate_spec hA h hf
  | copyHolder r =>
    obtain ⟨p, hp⟩ := Option.isSome_iff_exists.mp hr
    exact copyHolder_spec flag h hp
  | moveHolder r =>
    obtain ⟨p, hp⟩ := Option.isSome_iff_exists.mp hr
    exact moveHolder_spec h hp
  | assignCopy h' r =>
    obtain ⟨own, hown⟩ := Option.isSome_iff_exists.mp hr.1
    obtain ⟨p, hp⟩ := Option.isSome_iff_exists.mp hr.2
    exact assignCopy_spec h hown hp hf.1
  | assignMove h' r =>
    obtain ⟨own, hown⟩ := Option.isSome_iff_exists.mp hr.1
    obtain ⟨p, hp⟩ := Option.isSome_iff_exists.mp hr.2
    exact assignMove_spec h hown hp hf.1
  | destroyHolder r =>
    obtain ⟨p, hp⟩ := Option.isSome_iff_exists.mp hr
    exact destroyHolder_spec h hp hf.1

/-- An operation whose copy of the key is not valid gives a null holder and `false`. -/
theorem step_refused (flag : Bool) {op : Op K V} (hop : Refuses O op)
    (h : Represents O s a settled) :
    ∃ s', step flag O s op = some (s', .pair none false) ∧
      Represents O s' (a.newHolder none) settled := by
  obtain ⟨s', hs', hrep, -⟩ := h.returnPair (p := none) false (by simp)
  refine ⟨s', ?_, hrep⟩
  cases op with
  | insert k v =>
    have hv : O.valid (O.assign k) = false := eq_false_of_ne_true hop
    simp [step, AvlContainer.insert, hv, hs']
  | find k =>
    have hv : O.valid (O.assign k) = false := eq_false_of_ne_true hop
    simp [step, AvlContainer.find, hv, hs']
  | remove k =>
    have hv : O.valid (O.assign k) = false := eq_false_of_ne_true hop
    simp [step, AvlContainer.remove, hv, hs']
  | _ => exact hop.elim

/-- One operation on the model. -/
def modelNext (O : KeyOps K) (a : Model K V) (op : Op K V) : Option (Model K V) :=
  some (a.step O op)

/-- The model after a run. -/
def after (O : KeyOps K) (a : Model K V) (ops : List (Op K V)) : Model K V :=
  ops.foldl (Model.step O) a

/-- One operation on a map, its result dropped. -/
def mapNext (O : KeyOps K) (s : State A K V) (op : Op K V) : Option (State A K V) :=
  (mapStep O s op).map Prod.fst

/-- The state of table, items and holders that the operations keep up: the
nodes in order point at the items of the sorted entries and none at the
stack, counters are exact, and every item that was deleted was deleted once,
when it was in no node and in no holder. -/
structure Intact (O : KeyOps K) (s : State A K V) (a : Model K V) : Prop where
  nodes : (A.nodes s.table).map s.memory = a.entries.map fun e => some (.heap e.1)
  no_stack : ∀ n, s.memory n ≠ some .stack
  sorted : Sorted O.lt keyOf a.entries
  present : a.present.Nodup
  value : ∀ e ∈ a.entries, ∃ c, s.store.objs.cell e.1 = some c ∧ c.value = e.2
  holders : s.store.holders = a.holders
  counter : ∀ i c, s.store.objs.cell i = some c →
    c.pn = (if i ∈ a.present then 1 else 0) + held s.store.holders i
  live_iff : ∀ i, (s.store.objs.cell i).isSome ↔ i ∈ a.present ∨ 0 < held s.store.holders i
  deleted_once : s.store.objs.deleted.Nodup
  deleted_iff : ∀ i, i ∈ s.store.objs.deleted ↔
    i < s.store.objs.created ∧ i ∉ a.present ∧ held s.store.holders i = 0

/-- A represented map whose references a counter can tell is intact. -/
theorem Intact.of_represents (h : Represents O s a settled) (hw : a.Within) : Intact O s a := by
  have hcount : ∀ i, a.present.count i = if i ∈ a.present then 1 else 0 := fun i => h.present.count
  have hrefs : ∀ i, a.present.count i + settled i + held s.store.holders i = a.refs i := fun i => by
    rw [h.holders]
    rfl
  have hlive : ∀ i, (s.store.objs.cell i).isSome ↔ 0 < a.refs i := by
    intro i
    cases hc : s.store.objs.cell i with
    | none =>
      have hz := h.owned.dead i hc
      simp only [hrefs] at hz
      simp [hz]
    | some c =>
      have hp := (h.owned.live i c hc).2
      simp only [hrefs] at hp
      simpa using hp
  have hpos : ∀ i, 0 < a.refs i ↔ i ∈ a.present ∨ 0 < held s.store.holders i := by
    intro i
    rw [h.holders, Model.refs, Nat.add_pos_iff_pos_or_pos, List.count_pos_iff]
  refine ⟨h.nodes, ?_, h.sorted, h.present, fun e he => h.cell he, h.holders, ?_,
    fun i => (hlive i).trans (hpos i), h.owned.deleted_nodup, ?_⟩
  · intro n
    by_cases hn : n ∈ A.nodes s.table
    · refine forall_nodes (P := fun n => s.memory n ≠ some .stack) h.nodes (fun m x _ hm => ?_) n hn
      simp [hm]
    · simp [h.gone n hn]
  · intro i c hc
    have hpn := h.owned.pn_eq hc (by rw [hrefs]; exact hw i)
    rw [hpn]
    simp only [settled, hcount]
    push_cast
    ring
  · intro i
    have hnone : s.store.objs.cell i = none ↔ ¬(i ∈ a.present ∨ 0 < held s.store.holders i) := by
      rw [← hpos, ← hlive]
      simp
    rw [h.owned.mem_deleted, hnone]
    simp only [not_or, not_lt, Nat.le_zero]

/-- Before the first operation. -/
theorem represents_empty (hA : A.Lawful) :
    Represents O (State.empty A K V) Model.empty settled where
  nodes := by simp [State.empty, Model.empty, hA.nodes_init]
  nodup := by simp [State.empty, hA.nodes_init]
  gone := by simp [State.empty]
  bound := by simp [State.empty, hA.nodes_init]
  freed_nodup := List.nodup_nil
  mem_freed := by simp [State.empty]
  sorted := List.Pairwise.nil
  present := List.nodup_nil
  owned := exact_empty
  holders := rfl
  value := by simp [Model.empty]
  created := rfl

/-- References come from entries and holders. -/
theorem refs_le_length (a : Model K V) (i : ℕ) :
    a.refs i ≤ a.entries.length + a.holders.length := by
  have h₁ : a.present.count i ≤ a.entries.length := by
    simpa [Model.present] using List.count_le_length (a := i) (l := a.present)
  have h₂ : held a.holders i ≤ a.holders.length := List.count_le_length
  simp only [Model.refs]
  omega

/-- So there are not too many of them as long as there are not too many of those. -/
theorem within_of_length (h : a.entries.length + a.holders.length ≤ maxCount) : a.Within :=
  fun i => (refs_le_length a i).trans h

/-- What a run of operations keeps, from any represented state on. -/
theorem run_refines {ops : List (Op K V)} (hA : A.Lawful) (hK : KeyLaws O)
    (h : Represents O s a settled) (hw : a.Within)
    (hops : Along (fun a op => a.Ready op ∧ a.Fits O op) (modelNext O) a ops) :
    ∃ s', run (mapNext O) s ops = some s' ∧ Represents O s' (after O a ops) settled ∧
      (after O a ops).Within := by
  refine exists_run_simulating (R := fun s a => Represents O s a settled ∧ a.Within)
    (f := Model.step O) ?_ ⟨h, hw⟩ hops
  rintro s a op ⟨h, -⟩ ⟨hr, hf⟩
  obtain ⟨s', hs', h'⟩ := step_refines true hA hK.keyOrder (hK.accepts op) h hr hf
  exact ⟨s', by simp [mapNext, mapStep, hs'], h', hf.1⟩

/-- In every run in which no item gets more references than its counter can
tell, no operation on a map fails, every state reached is intact, and every
operation there returns what the finite map says and goes to the map's next
state, whose lookups are those of a finite map that insertion never overwrites. -/
theorem map_intact (hA : A.Lawful) (hK : KeyLaws O) (ops : List (Op K V))
    (hops : Along (fun a op => a.Ready op ∧ a.Fits O op) (modelNext O) Model.empty ops) :
    ∃ s, run (mapNext O) (State.empty A K V) ops = some s ∧ Intact O s (after O Model.empty ops) ∧
      ∀ op, (after O Model.empty ops).Ready op → (after O Model.empty ops).Fits O op →
        (∃ s', mapStep O s op = some (s', (after O Model.empty ops).result true O op) ∧
          Intact O s' ((after O Model.empty ops).step O op)) ∧
        ∀ k, ((after O Model.empty ops).step O op).lookup O k =
          (after O Model.empty ops).lookupAfter O op k := by
  have hw₀ : (Model.empty : Model K V).Within := within_of_length (Nat.zero_le _)
  obtain ⟨s, hs, hrep, hw⟩ := run_refines hA hK (represents_empty hA) hw₀ hops
  refine ⟨s, hs, .of_represents hrep hw, fun op hr hf => ⟨?_, lookup_step hK.keyOrder hrep.sorted op⟩⟩
  obtain ⟨s', hs', hrep'⟩ := step_refines true hA hK.keyOrder (hK.accepts op) hrep hr hf
  exact ⟨s', hs', .of_represents hrep' hf.1⟩

/-- Natural numbers as keys. -/
def natKeys : KeyOps ℕ := ⟨fun a b => decide (a < b), id, id, fun _ => true⟩

/-- The keys are ordered, and none of them is refused. -/
theorem natKeys_laws : KeyLaws natKeys where
  order := ⟨by simp [natKeys], fun a b c => by simpa [natKeys] using Nat.lt_trans,
    fun a b c => by
      simp only [natKeys, decide_eq_true_eq]
      omega⟩
  assign_equiv := by simp [natKeys, equiv]
  copy_equiv := by simp [natKeys, equiv]
  valid := by simp [natKeys]

/-- A run that inserts, meets a present key, iterates and removes. -/
theorem map_intact_insertRemove :
    let ops : List (Op ℕ ℕ) :=
      [.insert 2 20, .insert 1 10, .insert 2 99, .iterate fun _ => true, .remove 2, .destroyHolder 0]
    ∃ s, run (mapNext natKeys) (State.empty listed ℕ ℕ) ops = some s ∧
      Intact natKeys s (after natKeys Model.empty ops) := by
  have hops : Along (fun a op => a.Ready op ∧ a.Fits natKeys op) (modelNext natKeys) Model.empty
      ([.insert 2 20, .insert 1 10, .insert 2 99, .iterate fun _ => true, .remove 2,
        .destroyHolder 0] : List (Op ℕ ℕ)) := by
    refine ⟨⟨trivial, within_of_length (by decide), trivial⟩, ?_⟩
    rintro _ ⟨⟩
    refine ⟨⟨trivial, within_of_length (by decide), trivial⟩, ?_⟩
    rintro _ ⟨⟩
    refine ⟨⟨trivial, within_of_length (by decide), trivial⟩, ?_⟩
    rintro _ ⟨⟩
    refine ⟨⟨trivial, within_of_length (by decide),
      fun i _ => (refs_le_length _ i).trans_lt (by decide)⟩, ?_⟩
    rintro _ ⟨⟩
    refine ⟨⟨trivial, within_of_length (by decide), trivial⟩, ?_⟩
    rintro _ ⟨⟩
    refine ⟨⟨rfl, within_of_length (by decide), trivial⟩, ?_⟩
    rintro _ ⟨⟩
    trivial
  obtain ⟨s, hs, hi, -⟩ := map_intact listed_lawful natKeys_laws _ hops
  exact ⟨s, hs, hi⟩

/-- Copies of one holder pile up references on its item. -/
theorem copies_refine (n : ℕ) {i : ℕ} (h : Represents O s a settled)
    (hp : a.ptr 0 = some (some i)) :
    Along Model.Ready (modelNext O) a (List.replicate n (.copyHolder 0)) ∧
      ∃ s' a', after O a (List.replicate n (.copyHolder 0)) = a' ∧
        run (mapNext O) s (List.replicate n (.copyHolder 0)) = some s' ∧
        Represents O s' a' settled ∧ a'.entries = a.entries ∧
        held a'.holders i = held a.holders i + n := by
  induction n generalizing s a with
  | zero => exact ⟨trivial, s, a, rfl, rfl, h, rfl, rfl⟩
  | succ n ih =>
    obtain ⟨s₁, hs₁, h₁⟩ := copyHolder_spec true h hp
    have hstep : a.step O (.copyHolder 0) = a.newHolder (some i) := by simp [Model.step, hp]
    rw [hstep] at h₁
    have hp₁ : (a.newHolder (some i)).ptr 0 = some (some i) := join_append hp (some i)
    obtain ⟨hready, s', a', ha', hs', hrep, hentries, hheld⟩ := ih h₁ hp₁
    refine ⟨⟨by simp [Model.Ready, hp], ?_⟩, s', a', ?_, ?_, hrep, hentries, ?_⟩
    · rintro _ ⟨⟩
      rw [hstep]
      exact hready
    · rw [List.replicate_succ]
      change after O (a.step O (.copyHolder 0)) _ = a'
      rw [hstep, ha']
    · exact run_cons.mpr ⟨s₁, by simp [mapNext, mapStep, hs₁], hs'⟩
    · rw [hheld]
      simp only [Model.newHolder, held_append, points_self]
      omega

/-- One item and so many holders that its counter wraps. -/
def manyCopies : List (Op ℕ ℕ) :=
  [.insert 1 10] ++ List.replicate (maxCount - 1) (.copyHolder 0)

/-- With `2 ^ 31 - 1` holders on an item in the table the counter is not their
number plus one. -/
theorem map_not_intact_manyCopies :
    Along Model.Ready (modelNext natKeys) Model.empty manyCopies ∧
      ∃ s, run (mapNext natKeys) (State.empty listed ℕ ℕ) manyCopies = some s ∧
        ¬Intact natKeys s (after natKeys Model.empty manyCopies) := by
  have hw₀ : (Model.empty : Model ℕ ℕ).Within := within_of_length (Nat.zero_le _)
  have hops : Along (fun a op => a.Ready op ∧ a.Fits natKeys op) (modelNext natKeys) Model.empty
      ([.insert 1 10] : List (Op ℕ ℕ)) := by
    refine ⟨⟨trivial, within_of_length (by decide), trivial⟩, ?_⟩
    rintro _ ⟨⟩
    trivial
  obtain ⟨s₁, hs₁, h₁, -⟩ :=
    run_refines listed_lawful natKeys_laws (represents_empty listed_lawful) hw₀ hops
  obtain ⟨hready, s', a', ha', hs', hrep, hentries, hheld⟩ :=
    copies_refine (maxCount - 1) (i := 0) h₁ rfl
  have hafter : after natKeys Model.empty manyCopies = a' := by
    rw [← ha', manyCopies, after, List.foldl_append]
    rfl
  refine ⟨⟨trivial, ?_⟩, s', run_append.mpr ⟨s₁, hs₁, hs'⟩, ?_⟩
  · rintro _ ⟨⟩
    exact hready
  · rw [hafter]
    intro hint
    have hpres : 0 ∈ a'.present := by
      rw [Model.present, hentries]
      decide
    have hcount : a'.present.count 0 + settled 0 + held s'.store.holders 0 = maxCount + 1 := by
      rw [hrep.holders, hheld, Model.present, hentries]
      rfl
    obtain ⟨c, hc, hpn⟩ := hrep.owned.exists_cell (i := 0) (by simp only [hcount]; omega)
    have hwrap : c.pn = -2 ^ 31 := by
      rw [hpn]
      simp only [hcount]
      exact wrap32_maxCount_succ
    have hpos := hint.counter 0 c hc
    rw [hwrap, if_pos hpres] at hpos
    omega

end Runs

end KernelLib.ContainerRefines
