import Mathlib.Data.List.Nodup
import Mathlib.Data.List.TakeWhile

/-!
# The generic table routines

`RtlXxxGenericTableAvl` belong to the system and are a parameter: functions
on an unspecified table of nodes, with laws for what is documented about
them. They find an element by calling the compare routine on stored nodes;
a call that fails fails the routine. The shape of the tree and its
rebalancing stay behind the order of the nodes. A table kept as a list
meets the laws, so they are not contradictory.
-/

namespace KernelLib.AvlRoutines

/-- How the element looked for compares with a stored node; `none` when the
compare routine makes an invalid access. -/
abbrev Callback := ℕ → Option Ordering

/-- The routines of a generic table. -/
structure Routines where
  /-- `RTL_AVL_TABLE`. -/
  Table : Type
  /-- `RtlInitializeGenericTableAvl`. -/
  init : Table
  /-- The nodes in order. -/
  nodes : Table → List ℕ
  /-- `RtlLookupElementGenericTableAvl`. -/
  lookup : Callback → Table → Option (Option ℕ)
  /-- `RtlInsertElementGenericTableAvl`, given the node that the allocation
  callback returns: the element's node and whether it is new. -/
  insert : Callback → Option ℕ → Table → Option (Table × Option ℕ × Bool)
  /-- `RtlDeleteElementGenericTableAvl`, with the node handed to the free callback. -/
  delete : Callback → Table → Option (Table × Option ℕ)
  /-- `RtlEnumerateGenericTableWithoutSplayingAvl` from a restart key. -/
  next : Option ℕ → Table → Option (Option ℕ)
  /-- `RtlEnumerateGenericTableAvl` with its `Restart` flag. -/
  enumerate : Bool → Table → Table × Option ℕ

/-- A search splits the nodes into those before the element, an equal one, and
those after it. -/
structure Located (cmp : Callback) (us : List ℕ) (e : Option ℕ) (vs : List ℕ) : Prop where
  before : ∀ n ∈ us, cmp n = some .gt
  equal : ∀ n ∈ e, cmp n = some .eq
  behind : ∀ n ∈ vs, cmp n = some .lt

/-- What is documented about the routines. -/
structure Routines.Lawful (A : Routines) : Prop where
  nodes_init : A.nodes A.init = []
  lookup_eq : ∀ cmp t us e vs, A.nodes t = us ++ e.toList ++ vs → Located cmp us e vs →
    A.lookup cmp t = some e
  insert_found : ∀ cmp m t us n vs, A.nodes t = us ++ n :: vs → Located cmp us (some n) vs →
    ∃ t', A.insert cmp m t = some (t', some n, false) ∧ A.nodes t' = A.nodes t
  insert_new : ∀ cmp m t us vs, A.nodes t = us ++ vs → Located cmp us none vs →
    ∃ t', A.insert cmp (some m) t = some (t', some m, true) ∧ A.nodes t' = us ++ m :: vs
  insert_failed : ∀ cmp t us vs, A.nodes t = us ++ vs → Located cmp us none vs →
    ∃ t', A.insert cmp none t = some (t', none, false) ∧ A.nodes t' = A.nodes t
  delete_found : ∀ cmp t us n vs, A.nodes t = us ++ n :: vs → Located cmp us (some n) vs →
    ∃ t', A.delete cmp t = some (t', some n) ∧ A.nodes t' = us ++ vs
  delete_absent : ∀ cmp t us vs, A.nodes t = us ++ vs → Located cmp us none vs →
    ∃ t', A.delete cmp t = some (t', none) ∧ A.nodes t' = A.nodes t
  delete_compares : ∀ cmp cmp' t r, (∀ n o, cmp n = some o → cmp' n = some o) →
    A.delete cmp t = some r → A.delete cmp' t = some r
  next_first : ∀ t, A.next none t = some (A.nodes t).head?
  next_after : ∀ t us n vs, (A.nodes t).Nodup → A.nodes t = us ++ n :: vs →
    A.next (some n) t = some vs.head?
  enumerate_first : ∀ t, (A.enumerate true t).2 = (A.nodes t).head? ∧
    A.nodes (A.enumerate true t).1 = A.nodes t

section Search

variable {A : Routines} {cmp : Callback} {t : A.Table} {n : ℕ} {us vs : List ℕ}

/-- A deletion cannot get by without comparing with the node it is looking for:
where that comparison fails, so does the deletion. -/
theorem Routines.Lawful.delete_fails (hA : A.Lawful) (ht : A.nodes t = us ++ n :: vs)
    (hus : ∀ m ∈ us, cmp m = some .gt) (hvs : ∀ m ∈ vs, cmp m = some .lt) (hn : n ∉ us ++ vs)
    (hcmp : cmp n = none) : A.delete cmp t = none := by
  cases hd : A.delete cmp t with
  | none => rfl
  | some r =>
    have hmono : ∀ o, ∀ m p, cmp m = some p → Function.update cmp n (some o) m = some p := by
      intro o m p hm
      have hne : m ≠ n := fun hx => by simp [hx, hcmp] at hm
      rw [Function.update_of_ne hne, hm]
    have hsame : ∀ o, ∀ m ∈ us ++ vs, Function.update cmp n (some o) m = cmp m := fun o m hm =>
      Function.update_of_ne (fun hx => hn (by rwa [← hx])) _ _
    have hself : ∀ o, Function.update cmp n (some o) n = some o := fun o => Function.update_self ..
    -- were the node equal, it would be deleted; were it greater, nothing would be
    obtain ⟨t₁, h₁, -⟩ := hA.delete_found (Function.update cmp n (some .eq)) t us n vs ht
      ⟨fun m hm => (hsame _ m (by simp [hm])).trans (hus m hm),
        fun m hm => by rw [← Option.mem_some.mp hm]; exact hself _,
        fun m hm => (hsame _ m (by simp [hm])).trans (hvs m hm)⟩
    obtain ⟨t₂, h₂, -⟩ := hA.delete_absent (Function.update cmp n (some .lt)) t us (n :: vs) ht
      ⟨fun m hm => (hsame _ m (by simp [hm])).trans (hus m hm), by simp,
        List.forall_mem_cons.mpr
          ⟨hself _, fun m hm => (hsame _ m (by simp [hm])).trans (hvs m hm)⟩⟩
    rw [hA.delete_compares cmp _ t r (hmono .eq) hd] at h₁
    rw [hA.delete_compares cmp _ t r (hmono .lt) hd] at h₂
    have hx := (Option.some.inj h₁).symm.trans (Option.some.inj h₂)
    simp at hx

end Search

section Listed

/-- Compare with the nodes in order until one is not before the element. -/
def search (cmp : Callback) : List ℕ → Option (List ℕ × Option ℕ × List ℕ)
  | [] => some ([], none, [])
  | n :: ns =>
    match cmp n with
    | none => none
    | some .lt => some ([], none, n :: ns)
    | some .eq => some ([], some n, ns)
    | some .gt => (search cmp ns).map fun (us, e, vs) => (n :: us, e, vs)

theorem search_located {cmp : Callback} {us vs : List ℕ} {e : Option ℕ}
    (h : Located cmp us e vs) : search cmp (us ++ e.toList ++ vs) = some (us, e, vs) := by
  induction us with
  | nil =>
    cases e with
    | none =>
      cases vs with
      | nil => rfl
      | cons n vs => simp [search, h.behind n]
    | some n => simp [search, h.equal n rfl]
  | cons n us ih =>
    have hrest : Located cmp us e vs := ⟨fun m hm => h.before m (by simp [hm]), h.equal, h.behind⟩
    have hs := ih hrest
    rw [List.append_assoc] at hs
    simp [search, h.before n, hs]

theorem search_mono {cmp cmp' : Callback} (h : ∀ n o, cmp n = some o → cmp' n = some o)
    {ns : List ℕ} {r : List ℕ × Option ℕ × List ℕ} (hr : search cmp ns = some r) :
    search cmp' ns = some r := by
  induction ns generalizing r with
  | nil => exact hr
  | cons n ns ih =>
    unfold search at hr ⊢
    cases hc : cmp n with
    | none => simp [hc] at hr
    | some o =>
      rw [hc] at hr
      rw [h n o hc]
      cases o with
      | lt => exact hr
      | eq => exact hr
      | gt =>
        obtain ⟨p, hp, he⟩ := Option.map_eq_some_iff.mp hr
        simp [ih hp, ← he]

/-- A table kept as the list of its nodes. -/
def listed : Routines where
  Table := List ℕ
  init := []
  nodes := id
  lookup cmp t := (search cmp t).map fun (_, e, _) => e
  insert cmp m t := (search cmp t).map fun
    | (_, some n, _) => (t, some n, false)
    | (us, none, vs) => match m with
      | some m => (us ++ m :: vs, some m, true)
      | none => (t, none, false)
  delete cmp t := (search cmp t).map fun (us, e, vs) => (us ++ vs, e)
  next
    | none, t => some t.head?
    | some n, t => (t.dropWhile (· ≠ n)).tail?.map List.head?
  enumerate
    | true, t => (t, t.head?)
    | false, t => (t, none)

/-- The laws can be met. -/
theorem listed_lawful : listed.Lawful where
  nodes_init := rfl
  lookup_eq cmp t us e vs ht h := by
    have ht' : t = us ++ e.toList ++ vs := ht
    simp only [listed, ht', search_located h, Option.map_some]
  insert_found cmp m t us n vs ht h := by
    have ht' : t = us ++ (some n).toList ++ vs := by
      rw [Option.toList_some, List.append_assoc]
      exact ht
    exact ⟨t, by simp only [listed, ht', search_located h, Option.map_some], rfl⟩
  insert_new cmp m t us vs ht h := by
    have ht' : t = us ++ (none : Option ℕ).toList ++ vs := by
      rw [Option.toList_none, List.append_nil]
      exact ht
    exact ⟨us ++ m :: vs, by simp only [listed, ht', search_located h, Option.map_some], rfl⟩
  insert_failed cmp t us vs ht h := by
    have ht' : t = us ++ (none : Option ℕ).toList ++ vs := by
      rw [Option.toList_none, List.append_nil]
      exact ht
    exact ⟨t, by simp only [listed, ht', search_located h, Option.map_some], rfl⟩
  delete_found cmp t us n vs ht h := by
    have ht' : t = us ++ (some n).toList ++ vs := by
      rw [Option.toList_some, List.append_assoc]
      exact ht
    exact ⟨us ++ vs, by simp only [listed, ht', search_located h, Option.map_some], rfl⟩
  delete_absent cmp t us vs ht h := by
    have ht' : t = us ++ (none : Option ℕ).toList ++ vs := by
      rw [Option.toList_none, List.append_nil]
      exact ht
    exact ⟨us ++ vs, by simp only [listed, ht', search_located h, Option.map_some], ht.symm⟩
  delete_compares cmp cmp' t r h hr := by
    obtain ⟨p, hp, he⟩ := Option.map_eq_some_iff.mp hr
    simp only [listed, search_mono h hp, Option.map_some, ← he]
  next_first _ := rfl
  next_after t us n vs hnd ht := by
    have ht' : t = us ++ n :: vs := ht
    have hus : ∀ m ∈ us, (decide (m ≠ n)) = true := by
      intro m hm
      have hnd' : (us ++ n :: vs).Nodup := ht' ▸ hnd
      simpa using (List.nodup_append.mp hnd').2.2 m hm n (by simp)
    change (t.dropWhile fun m => decide (m ≠ n)).tail?.map List.head? = _
    rw [ht', List.dropWhile_append_of_pos hus]
    simp
  enumerate_first _ := ⟨rfl, rfl⟩

end Listed

section Resuming

/-- What a loop that deletes the elements it is given relies on. The table keeps the element
returned last; without `Restart` the enumeration goes on from there, or from the first element
when there is none. When the first element is deleted while it is the last one returned, there
is none. -/
structure Routines.Resumes (A : Routines) (restartKey : A.Table → Option ℕ) : Prop where
  restarted : ∀ t, restartKey (A.enumerate true t).1 = (A.nodes t).head?
  nodes_resumed : ∀ t, A.nodes (A.enumerate false t).1 = A.nodes t
  resumed : ∀ t, restartKey t = none → (A.enumerate false t).2 = (A.nodes t).head?
  returned : ∀ t n, (A.enumerate false t).2 = some n → restartKey (A.enumerate false t).1 = some n
  deleted : ∀ cmp t t' n vs, A.nodes t = n :: vs → restartKey t = some n →
    A.delete cmp t = some (t', some n) → restartKey t' = none

/-- A list of nodes with the `RestartKey` of the table: an enumeration leaves it on the element
that it returns, and at the end where it is; a deletion moves it to the element before. -/
def cursored : Routines where
  Table := List ℕ × Option ℕ
  init := ([], none)
  nodes := Prod.fst
  lookup cmp t := listed.lookup cmp t.1
  insert cmp m t := (listed.insert cmp m t.1).map fun (l, r) => ((l, t.2), r)
  delete cmp t := (listed.delete cmp t.1).map fun (l, e) =>
    ((l, if t.2 = e then e.bind fun n => (t.1.takeWhile (· ≠ n)).getLast? else t.2), e)
  next key t := listed.next key t.1
  enumerate
    | true, t => ((t.1, t.1.head?), t.1.head?)
    | false, t =>
      let n := (listed.next t.2 t.1).join
      ((t.1, n.or t.2), n)

/-- The laws of the routines hold of it. -/
theorem cursored_lawful : cursored.Lawful where
  nodes_init := rfl
  lookup_eq cmp t us e vs ht h := listed_lawful.lookup_eq cmp t.1 us e vs ht h
  insert_found cmp m t us n vs ht h := by
    obtain ⟨l, hl, hn⟩ := listed_lawful.insert_found cmp m t.1 us n vs ht h
    exact ⟨_, congrArg (Option.map _) hl, hn⟩
  insert_new cmp m t us vs ht h := by
    obtain ⟨l, hl, hn⟩ := listed_lawful.insert_new cmp m t.1 us vs ht h
    exact ⟨_, congrArg (Option.map _) hl, hn⟩
  insert_failed cmp t us vs ht h := by
    obtain ⟨l, hl, hn⟩ := listed_lawful.insert_failed cmp t.1 us vs ht h
    exact ⟨_, congrArg (Option.map _) hl, hn⟩
  delete_found cmp t us n vs ht h := by
    obtain ⟨l, hl, hn⟩ := listed_lawful.delete_found cmp t.1 us n vs ht h
    exact ⟨_, congrArg (Option.map _) hl, hn⟩
  delete_absent cmp t us vs ht h := by
    obtain ⟨l, hl, hn⟩ := listed_lawful.delete_absent cmp t.1 us vs ht h
    exact ⟨_, congrArg (Option.map _) hl, hn⟩
  delete_compares cmp cmp' t r h hr := by
    obtain ⟨q, hq, he⟩ := Option.map_eq_some_iff.mp hr
    exact (congrArg (Option.map _) (listed_lawful.delete_compares cmp cmp' t.1 q h hq)).trans
      (congrArg some he)
  next_first t := listed_lawful.next_first t.1
  next_after t us n vs hnd ht := listed_lawful.next_after t.1 us n vs hnd ht
  enumerate_first _ := ⟨rfl, rfl⟩

/-- Its enumeration goes on from where it is. -/
theorem cursored_resumes : cursored.Resumes Prod.snd where
  restarted _ := rfl
  nodes_resumed _ := rfl
  resumed t ht := by
    have ht' : t.2 = none := ht
    simp only [cursored, listed, ht', Option.join_some]
  returned t n h := by
    have hn : (listed.next t.2 t.1).join = some n := h
    simp only [cursored, hn, Option.some_or]
  deleted cmp t t' n vs ht hk hd := by
    obtain ⟨⟨l, e⟩, -, he⟩ := Option.map_eq_some_iff.mp hd
    obtain ⟨rfl, rfl⟩ := Prod.mk.injEq .. ▸ he
    have ht' : t.1 = n :: vs := ht
    have hk' : t.2 = some n := hk
    simp [hk', ht']

end Resuming

end KernelLib.AvlRoutines
