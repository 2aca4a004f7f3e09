import Mathlib.Data.Finset.Card
import KernelLib.AvlRoutines
import KernelLib.OrderedEntries
import KernelLib.OrderedWalks
import KernelLib.StepRuns

/-!
# The table of 64-bit numbers

`Uint64GenericTable` keeps numbers in the nodes of a generic table, which its
callbacks take from a lookaside list and give back. Next to `find` and
`remove` it deletes all elements while it enumerates them, and it enumerates
them for a caller with a restart key. Whatever its callers do and whichever
allocations fail, it is a finite set of numbers with a walk over it, its
compare callback never reads a node that was given back, and each node is
given back once.
-/

namespace KernelLib.Uint64Table

open AvlRoutines OrderedEntries OrderedWalks StepRuns

/-- Unsigned comparison is a linear order. -/
instance uint64LinearOrder : LinearOrder UInt64 where
  le_refl := UInt64.le_refl
  le_trans _ _ _ := UInt64.le_trans
  lt_iff_le_not_ge _ _ := by rw [UInt64.not_le]; exact ⟨fun h => ⟨UInt64.le_of_lt h, h⟩, And.right⟩
  le_antisymm _ _ := UInt64.le_antisymm
  le_total := UInt64.le_total
  toDecidableLE := inferInstance

/-- A table, the nodes of its elements, and the restart key of a caller. -/
structure State (A : Routines) where
  /-- `_root`. -/
  root : A.Table
  /-- `_64` in each node that is allocated. -/
  item : ℕ → Option UInt64
  /-- How many nodes were allocated. -/
  allocated : ℕ
  /-- Nodes handed to `Free`, in order. -/
  freed : List ℕ
  /-- `RestartKey`, a null pointer at the start. -/
  restartKey : Walk ℕ

/-- `eInsertResult`. -/
inductive InsertResult where
  /-- `IR_Error`. -/
  | error
  /-- `IR_Ok`. -/
  | ok
  /-- `IR_Existed`. -/
  | existed
  deriving DecidableEq, Repr

/-- What a caller does with the table. -/
inductive Op where
  /-- `insert`, and whether its allocation would succeed. -/
  | insert (alloc : Bool) (val : UInt64)
  /-- `remove`. -/
  | remove (val : UInt64)
  /-- `find`. -/
  | find (val : UInt64)
  /-- `count`. -/
  | count
  /-- `empty`. -/
  | empty
  /-- `clear`, and the destructor. -/
  | clear
  /-- The restart key becomes null. -/
  | restart
  /-- `Enum` with the restart key. -/
  | Enum
  deriving DecidableEq, Repr

/-- What an operation returns. An element comes with its node. -/
inductive Ret where
  /-- Nothing. -/
  | void
  /-- The result of `insert`. -/
  | insert (r : InsertResult)
  /-- The result of `remove` and `empty`. -/
  | bool (b : Bool)
  /-- The result of `count`. -/
  | count (n : ℕ)
  /-- The element `find` returns. -/
  | item (p : Option (ℕ × UInt64))
  /-- The element `Enum` returns. -/
  | visit (p : Option (ℕ × UInt64))
  deriving DecidableEq, Repr

section Table

variable {A : Routines}

/-- The constructor. -/
def State.init (A : Routines) : State A := ⟨A.init, fun _ => none, 0, [], .start⟩

/-- `Compare` of a number, where it can be read, with that in a node. -/
def State.compare (first : Option UInt64) (s : State A) : Callback := fun n => do
  let f ← first
  let second ← s.item n
  return if f = second then .eq else if second < f then .gt else .lt

/-- `Free`. -/
def State.free (n : ℕ) (s : State A) : State A :=
  { s with item := Function.update s.item n none, freed := s.freed ++ [n] }

/-- `RtlDeleteElementGenericTableAvl` on this table. -/
def State.delete (first : Option UInt64) (s : State A) : Option (State A × Bool) :=
  (A.delete (s.compare first) s.root).map fun
    | (t, none) => ({ s with root := t }, false)
    | (t, some n) => ({ s with root := t }.free n, true)

/-- What a caller reads through the pointer to an element. -/
def State.read (s : State A) : Option ℕ → Option (Option (ℕ × UInt64))
  | none => some none
  | some n => (s.item n).map fun v => some (n, v)

/-- `insert`. -/
def insert (alloc : Bool) (val : UInt64) (s : State A) : Option (State A × InsertResult) := do
  let node := if alloc then some s.allocated else none
  let (t, pItem, newElement) ← A.insert (s.compare (some val)) node s.root
  match pItem with
  | none => return ({ s with root := t }, .error)
  | some n =>
    if newElement then
      return ({ s with
        root := t
        allocated := s.allocated + 1
        item := Function.update s.item n (some val) }, .ok)
    else return ({ s with root := t }, .existed)

/-- The loop of `clear`, for at most so many rounds. -/
def clearLoop : ℕ → Option ℕ → State A → Option (State A)
  | _, none, s => some s
  | 0, some _, _ => none
  | rounds + 1, some p, s => do
    -- the number that is looked for lies in the node itself
    let (s, _) ← s.delete (s.item p)
    let r := A.enumerate false s.root
    clearLoop rounds r.2 { s with root := r.1 }

/-- `clear`. -/
def clear (rounds : ℕ) (s : State A) : Option (State A) :=
  let r := A.enumerate true s.root
  clearLoop rounds r.2 { s with root := r.1 }

/-- The restart key as the routine gets it. Past the last element it is of no use. -/
def State.key (s : State A) : Option (Option ℕ) :=
  match s.restartKey with
  | .start => some none
  | .on n => some (some n)
  | .ended => none

/-- `Enum`. -/
def Enum (s : State A) : Option (State A × Option (ℕ × UInt64)) := do
  let key ← s.key
  let p ← A.next key s.root
  let item ← s.read p
  return ({ s with restartKey := .after p }, item)

/-- Perform one operation. A round of `clear` deletes an element, so there are rounds enough. -/
def step (s : State A) : Op → Option (State A × Ret)
  | .insert alloc val => (insert alloc val s).map fun r => (r.1, .insert r.2)
  | .remove val => (s.delete (some val)).map fun r => (r.1, .bool r.2)
  | .find val => do
    let p ← A.lookup (s.compare (some val)) s.root
    let item ← s.read p
    return (s, .item item)
  | .count => some (s, .count (A.nodes s.root).length)
  | .empty => some (s, .bool (A.nodes s.root).isEmpty)
  | .clear => (clear (A.nodes s.root).length s).map fun s => (s, .void)
  | .restart => some ({ s with restartKey := .start }, .void)
  | .Enum => (Enum s).map fun r => (r.1, .visit r.2)

/-- Perform operations in order and collect what they return. -/
def calls : State A → List Op → Option (State A × List Ret)
  | s, [] => some (s, [])
  | s, op :: ops => do
    let (s, r) ← step s op
    let (s, rs) ← calls s ops
    return (s, r :: rs)

end Table

section Abstract

/-- What the table is for: a set of numbers, each at a node that it keeps, and a walk over it. -/
structure Model where
  /-- The numbers. -/
  members : Finset UInt64
  /-- The node of each number that was ever a member. -/
  node : UInt64 → ℕ
  /-- How many numbers became members. -/
  created : ℕ
  /-- Where the walk is. -/
  walk : Walk UInt64

/-- The empty set. -/
def Model.init : Model := ⟨∅, fun _ => 0, 0, .start⟩

/-- A number with its node. -/
def Model.located (a : Model) (v : UInt64) : ℕ × UInt64 := (a.node v, v)

/-- What an operation does and returns. -/
def Model.step (a : Model) : Op → Model × Ret
  | .insert alloc val =>
    if val ∈ a.members then (a, .insert .existed)
    else if alloc then
      ({ a with
        members := Insert.insert val a.members
        node := Function.update a.node val a.created
        created := a.created + 1 }, .insert .ok)
    else (a, .insert .error)
  | .remove val => ({ a with members := a.members.erase val }, .bool (val ∈ a.members))
  | .find val => (a, .item (if val ∈ a.members then some (a.located val) else none))
  | .count => (a, .count a.members.card)
  | .empty => (a, .bool (a.members = ∅))
  | .clear => ({ a with members := ∅ }, .void)
  | .restart => ({ a with walk := .start }, .void)
  | .Enum =>
    let v := a.walk.next a.members
    ({ a with walk := .after v }, .visit (v.map a.located))

/-- Perform operations in order and collect what they return. -/
def Model.calls : Model → List Op → Model × List Ret
  | a, [] => (a, [])
  | a, op :: ops =>
    let r := a.step op
    let q := Model.calls r.1 ops
    (q.1, r.2 :: q.2)

/-- A caller that walks over the table leaves the element it is on there, and
starts again after the last one. -/
def Model.Permits (a : Model) : Op → Prop
  | .remove val => a.walk ≠ .on val
  | .clear => ∀ v, a.walk ≠ .on v
  | .Enum => a.walk ≠ .ended
  | _ => True

instance (a : Model) : DecidablePred a.Permits
  | .remove val => inferInstanceAs (Decidable (a.walk ≠ .on val))
  | .clear => inferInstanceAs (Decidable (∀ v, a.walk ≠ .on v))
  | .Enum => inferInstanceAs (Decidable (a.walk ≠ .ended))
  | .insert _ _ | .find _ | .count | .empty | .restart => inferInstanceAs (Decidable True)

/-- A caller keeps to that in all of its operations. -/
abbrev Model.PermitsAll (a : Model) (ops : List Op) : Prop :=
  Along Model.Permits (fun a op => some (a.step op).1) a ops

/-- What the calls of `Enum` visited, with a null pointer at the end. -/
def visits (rs : List Ret) : List (Option UInt64) :=
  rs.filterMap fun
    | .visit p => some (p.map Prod.snd)
    | _ => none

end Abstract

section Represents

variable {A : Routines} {s : State A} {a : Model} {u v : UInt64} {us vs : List UInt64} {n : ℕ}

/-- A table and the set it keeps. -/
structure Represents (s : State A) (a : Model) : Prop where
  /-- The nodes are in the order of the numbers. -/
  listed : ∃ l : List UInt64, l.Pairwise (· < ·) ∧ (∀ v, v ∈ l ↔ v ∈ a.members) ∧
    A.nodes s.root = l.map a.node
  /-- The nodes that are allocated are those of the members. -/
  item : ∀ n v, s.item n = some v ↔ v ∈ a.members ∧ a.node v = n
  /-- Nodes to come are new. -/
  bound : ∀ v ∈ a.members, a.node v < s.allocated
  /-- An allocation makes a member. -/
  allocated : s.allocated = a.created
  /-- No node is given back twice. -/
  freed_nodup : s.freed.Nodup
  /-- The nodes given back are those that are allocated no more. -/
  freed : ∀ n, n ∈ s.freed ↔ n < s.allocated ∧ s.item n = none
  /-- The restart key is the node the walk is on. -/
  restartKey : s.restartKey = a.walk.map a.node
  /-- The walk is on a member. -/
  walk : ∀ v, a.walk = .on v → v ∈ a.members

theorem represents_init (hA : A.Lawful) : Represents (State.init A) Model.init where
  listed := ⟨[], List.Pairwise.nil, by simp [Model.init], by simp [State.init, hA.nodes_init]⟩
  item := by simp [State.init, Model.init]
  bound := by simp [Model.init]
  allocated := rfl
  freed_nodup := List.nodup_nil
  freed := by simp [State.init]
  restartKey := rfl
  walk := nofun

/-- The other members in order, around a number. -/
structure Around (a : Model) (v : UInt64) (us vs : List UInt64) : Prop where
  below : ∀ u ∈ us, u < v
  above : ∀ u ∈ vs, v < u
  sorted : (us ++ vs).Pairwise (· < ·)
  mem : ∀ u, u ∈ us ++ vs ↔ u ≠ v ∧ u ∈ a.members

/-- Unsigned order as `operator<`. -/
theorem strictWeak_lt : StrictWeak fun u v : UInt64 => decide (u < v) where
  irrefl v := by simp
  trans u v w huv hvw := by simpa using lt_trans (of_decide_eq_true huv) (of_decide_eq_true hvw)
  cotrans u v w huw := by
    have h : u < w := of_decide_eq_true huw
    rcases lt_or_ge u v with huv | hvu
    · exact .inl (decide_eq_true huv)
    · exact .inr (decide_eq_true (hvu.trans_lt h))

theorem equiv_lt : equiv (fun u v : UInt64 => decide (u < v)) u v ↔ u = v := by
  simp only [equiv_iff, decide_eq_false_iff_not, not_lt]
  exact ⟨fun h => le_antisymm h.2 h.1, fun h => ⟨h.ge, h.le⟩⟩

/-- Every number has its place among the members. -/
theorem Represents.exists_around (h : Represents s a) (v : UInt64) :
    ∃ us vs, Around a v us vs ∧
      A.nodes s.root = us.map a.node ++ (if v ∈ a.members then [a.node v] else []) ++ vs.map a.node := by
  obtain ⟨l, hl, hmem, hnodes⟩ := h.listed
  have hsorted : Sorted (fun u v : UInt64 => decide (u < v)) id l := hl.imp decide_eq_true
  obtain ⟨us, e, vs, rfl, hs⟩ := hsorted.exists_splits strictWeak_lt v
  have hbelow : ∀ u ∈ us, u < v := fun u hu => of_decide_eq_true (hs.below u hu)
  have habove : ∀ u ∈ vs, v < u := fun u hu => of_decide_eq_true (hs.above u hu)
  have hus : v ∉ us := fun hv => lt_irrefl v (hbelow v hv)
  have hvs : v ∉ vs := fun hv => lt_irrefl v (habove v hv)
  have he : e.toList = if v ∈ a.members then [v] else [] := by
    cases e with
    | none =>
      have hv : v ∉ a.members := by simp [← hmem, hus, hvs]
      simp [hv]
    | some u =>
      obtain rfl : u = v := equiv_lt.mp (hs.found u rfl)
      have hu : u ∈ a.members := by simp [← hmem]
      simp [hu]
  refine ⟨us, vs, ⟨hbelow, habove, ?_, fun u => ?_⟩, ?_⟩
  · exact hl.sublist (by simp)
  · have hu := hmem u
    rw [he] at hu
    simp only [List.mem_append] at hu ⊢
    constructor
    · rintro (hx | hx)
      · exact ⟨(hbelow u hx).ne, hu.mp (.inl (.inl hx))⟩
      · exact ⟨(habove u hx).ne', hu.mp (.inr hx)⟩
    · rintro ⟨hne, hx⟩
      rcases hu.mpr hx with (hx | hx) | hx
      · exact .inl hx
      · split_ifs at hx
        · exact (hne (List.mem_singleton.mp hx)).elim
        · cases hx
      · exact .inr hx
  · rw [hnodes, he]
    split_ifs <;> simp

/-- A member's node is compared as the member. -/
theorem Represents.compare_eq (h : Represents s a) (hu : u ∈ a.members) :
    s.compare (some v) (a.node u) =
      some (if v = u then .eq else if u < v then .gt else .lt) := by
  simp [State.compare, (h.item _ u).mpr ⟨hu, rfl⟩]

/-- The search for a number ends at its place. -/
theorem Represents.located (h : Represents s a) (hr : Around a v us vs) :
    Located (s.compare (some v)) (us.map a.node) (if v ∈ a.members then some (a.node v) else none)
      (vs.map a.node) := by
  constructor
  case before =>
    rintro n hn
    obtain ⟨u, hu, rfl⟩ := List.mem_map.mp hn
    have hlt := hr.below u hu
    rw [h.compare_eq ((hr.mem u).mp (List.mem_append_left _ hu)).2, if_neg hlt.ne', if_pos hlt]
  case equal =>
    intro n hn
    split_ifs at hn with hv
    · obtain rfl : a.node v = n := by simpa using hn
      rw [h.compare_eq hv, if_pos rfl]
    · cases hn
  case behind =>
    rintro n hn
    obtain ⟨u, hu, rfl⟩ := List.mem_map.mp hn
    have hlt := hr.above u hu
    rw [h.compare_eq ((hr.mem u).mp (List.mem_append_right _ hu)).2, if_neg hlt.ne, if_neg hlt.asymm]

/-- The table may be changed as long as its nodes stay. -/
theorem Represents.retable (h : Represents s a) {t : A.Table} (ht : A.nodes t = A.nodes s.root) :
    Represents { s with root := t } a :=
  ⟨by simpa only [ht] using h.listed, h.item, h.bound, h.allocated, h.freed_nodup, h.freed,
    h.restartKey, h.walk⟩

/-- The node of a member is that of no other one. -/
theorem Represents.node_inj (h : Represents s a) (hu : u ∈ a.members) (hv : v ∈ a.members)
    (he : a.node u = a.node v) : u = v := by
  have hu' := (h.item (a.node v) u).mpr ⟨hu, he⟩
  have hv' := (h.item (a.node v) v).mpr ⟨hv, rfl⟩
  exact Option.some.inj (hu'.symm.trans hv')

end Represents

section Steps

variable {A : Routines} {s : State A} {a : Model} {u v : UInt64} {us vs : List UInt64}

/-- The table deletes the node of a member. -/
theorem Represents.delete_table (hA : A.Lawful) (h : Represents s a) (hv : v ∈ a.members)
    (hr : Around a v us vs) (hn : A.nodes s.root = us.map a.node ++ a.node v :: vs.map a.node) :
    ∃ t, A.delete (s.compare (some v)) s.root = some (t, some (a.node v)) ∧
      A.nodes t = (us ++ vs).map a.node := by
  have hl := h.located hr
  rw [if_pos hv] at hl
  obtain ⟨t, ht, hnodes⟩ := hA.delete_found _ _ _ _ _ hn hl
  exact ⟨t, ht, hnodes.trans List.map_append.symm⟩

/-- The member whose node was given back is gone. -/
theorem Represents.freed_member (h : Represents s a) (hv : v ∈ a.members)
    (hw : a.walk ≠ .on v) (hr : Around a v us vs) {t : A.Table}
    (ht : A.nodes t = (us ++ vs).map a.node) :
    Represents (({ s with root := t } : State A).free (a.node v))
      { a with members := a.members.erase v } where
  listed := ⟨us ++ vs, hr.sorted, fun u => (hr.mem u).trans Finset.mem_erase.symm, ht⟩
  item n u := by
    change Function.update s.item (a.node v) none n = some u ↔ u ∈ a.members.erase v ∧ a.node u = n
    rw [Finset.mem_erase]
    rcases eq_or_ne n (a.node v) with rfl | hne
    · simpa using fun hu hm he => hu (h.node_inj hm hv he)
    · rw [Function.update_of_ne hne, h.item]
      exact ⟨fun ⟨hm, he⟩ => ⟨⟨fun hu => hne (he ▸ hu ▸ rfl), hm⟩, he⟩, fun ⟨hm, he⟩ => ⟨hm.2, he⟩⟩
  bound u hu := h.bound u (Finset.mem_of_mem_erase hu)
  allocated := h.allocated
  freed_nodup := by
    refine h.freed_nodup.append (List.nodup_singleton _) ?_
    simpa [h.freed] using fun _ => (h.item _ v).mpr ⟨hv, rfl⟩ ▸ Option.some_ne_none v
  freed n := by
    change n ∈ s.freed ++ [a.node v] ↔ n < s.allocated ∧ Function.update s.item (a.node v) none n = none
    rw [List.mem_append, List.mem_singleton, h.freed]
    rcases eq_or_ne n (a.node v) with rfl | hne
    · simpa using h.bound v hv
    · simp [hne]
  restartKey := h.restartKey
  walk u hu := Finset.mem_erase.mpr ⟨fun he => hw (he ▸ hu), h.walk u hu⟩

/-- `RtlDeleteElementGenericTableAvl` for a number. -/
theorem delete_spec (hA : A.Lawful) (h : Represents s a) (hw : a.walk ≠ .on v) :
    ∃ s', s.delete (some v) = some (s', decide (v ∈ a.members)) ∧
      Represents s' { a with members := a.members.erase v } := by
  obtain ⟨us, vs, hr, hn⟩ := h.exists_around v
  by_cases hv : v ∈ a.members
  · have hn' : A.nodes s.root = us.map a.node ++ a.node v :: vs.map a.node := by simpa [hv] using hn
    obtain ⟨t, ht, hnodes⟩ := h.delete_table hA hv hr hn'
    exact ⟨_, by simp [State.delete, ht, hv], h.freed_member hv hw hr hnodes⟩
  · have hl := h.located hr
    rw [if_neg hv] at hl
    obtain ⟨t, ht, hnodes⟩ := hA.delete_absent _ s.root _ _ (by simpa [hv] using hn) hl
    refine ⟨{ s with root := t }, by simp [State.delete, ht, hv], ?_⟩
    rw [Finset.erase_eq_of_notMem hv]
    exact h.retable hnodes

/-- A new number in its new node. -/
theorem Represents.new_member (h : Represents s a) (hv : v ∉ a.members) (hr : Around a v us vs)
    {t : A.Table} (ht : A.nodes t = us.map a.node ++ s.allocated :: vs.map a.node) :
    Represents { s with
        root := t
        allocated := s.allocated + 1
        item := Function.update s.item s.allocated (some v) }
      { a with
        members := Insert.insert v a.members
        node := Function.update a.node v a.created
        created := a.created + 1 } := by
  rw [← h.allocated]
  let node := Function.update a.node v s.allocated
  have hne : ∀ u ∈ a.members, u ≠ v := fun u hu he => hv (he ▸ hu)
  have hnew : node v = s.allocated := Function.update_self ..
  have hold : ∀ u ∈ a.members, node u = a.node u := fun u hu => Function.update_of_ne (hne u hu) _ _
  have hus : us.map node = us.map a.node := List.map_congr_left fun u hu =>
    hold u ((hr.mem u).mp (List.mem_append_left _ hu)).2
  have hvs : vs.map node = vs.map a.node := List.map_congr_left fun u hu =>
    hold u ((hr.mem u).mp (List.mem_append_right _ hu)).2
  have hfresh : s.item s.allocated = none := by
    refine Option.eq_none_iff_forall_ne_some.mpr fun u hu => ?_
    obtain ⟨hm, he⟩ := (h.item _ u).mp hu
    exact (h.bound u hm).ne he
  constructor
  case listed =>
    refine ⟨us ++ v :: vs, ?_, fun u => ?_, ?_⟩
    · obtain ⟨hus, hvs, hall⟩ := List.pairwise_append.mp hr.sorted
      refine List.pairwise_append.mpr ⟨hus, List.pairwise_cons.mpr ⟨hr.above, hvs⟩, fun x hx y hy => ?_⟩
      rcases List.mem_cons.mp hy with rfl | hy
      · exact hr.below x hx
      · exact hall x hx y hy
    · rw [List.perm_middle.mem_iff, List.mem_cons, hr.mem, Finset.mem_insert]
      exact ⟨fun hu => hu.imp_right And.right, fun hu => hu.imp_right fun hu => ⟨hne u hu, hu⟩⟩
    · change A.nodes t = (us ++ v :: vs).map node
      rw [ht, List.map_append, List.map_cons, hus, hvs, hnew]
  case item =>
    intro n u
    change Function.update s.item s.allocated (some v) n = some u ↔
      u ∈ Insert.insert v a.members ∧ node u = n
    rw [Finset.mem_insert]
    rcases eq_or_ne n s.allocated with rfl | hn
    · rw [Function.update_self, Option.some.injEq]
      refine ⟨fun hu => hu ▸ ⟨.inl rfl, hnew⟩, fun ⟨hu, he⟩ => ?_⟩
      rcases hu with rfl | hu
      · rfl
      · exact ((h.bound u hu).ne ((hold u hu).symm.trans he)).elim
    · rw [Function.update_of_ne hn, h.item]
      refine ⟨fun ⟨hu, he⟩ => ⟨.inr hu, (hold u hu).trans he⟩, fun ⟨hu, he⟩ => ?_⟩
      rcases hu with rfl | hu
      · exact (hn (he.symm.trans hnew)).elim
      · exact ⟨hu, (hold u hu).symm.trans he⟩
  case bound =>
    intro u hu
    change node u < s.allocated + 1
    rcases Finset.mem_insert.mp hu with rfl | hu
    · exact hnew.trans_lt (Nat.lt_succ_self _)
    · exact (hold u hu).trans_lt (Nat.lt_succ_of_lt (h.bound u hu))
  case allocated => rfl
  case freed_nodup => exact h.freed_nodup
  case freed =>
    intro n
    change n ∈ s.freed ↔ n < s.allocated + 1 ∧ Function.update s.item s.allocated (some v) n = none
    rw [h.freed]
    rcases eq_or_ne n s.allocated with rfl | hn
    · simp
    · rw [Function.update_of_ne hn, Nat.lt_succ_iff_lt_or_eq]
      simp [hn]
  case restartKey =>
    exact h.restartKey.trans (Walk.map_congr fun u hu => (hold u (h.walk u hu)).symm)
  case walk => exact fun u hu => Finset.mem_insert_of_mem (h.walk u hu)

theorem insert_spec (hA : A.Lawful) (alloc : Bool) (h : Represents s a) :
    ∃ s' r, insert alloc v s = some (s', r) ∧ (a.step (.insert alloc v)).2 = .insert r ∧
      Represents s' (a.step (.insert alloc v)).1 := by
  obtain ⟨us, vs, hr, hn⟩ := h.exists_around v
  have hl := h.located hr
  by_cases hv : v ∈ a.members
  · rw [if_pos hv] at hl
    obtain ⟨t, ht, hnodes⟩ := hA.insert_found (s.compare (some v))
      (if alloc then some s.allocated else none) s.root _ _ _ (by simpa [hv] using hn) hl
    refine ⟨{ s with root := t }, .existed, by simp [insert, ht], by simp [Model.step, hv], ?_⟩
    simpa [Model.step, hv] using h.retable hnodes
  · rw [if_neg hv] at hl
    have hn' : A.nodes s.root = us.map a.node ++ vs.map a.node := by simpa [hv] using hn
    cases alloc with
    | true =>
      obtain ⟨t, ht, hnodes⟩ := hA.insert_new _ s.allocated s.root _ _ hn' hl
      have hrep := h.new_member hv hr hnodes
      refine ⟨_, .ok, ?_, by simp [Model.step, hv], by simpa [Model.step, hv] using hrep⟩
      simp only [insert, if_true, ht]
      rfl
    | false =>
      obtain ⟨t, ht, hnodes⟩ := hA.insert_failed _ s.root _ _ hn' hl
      refine ⟨{ s with root := t }, .error, by simp [insert, ht], by simp [Model.step, hv], ?_⟩
      simpa [Model.step, hv] using h.retable hnodes

/-- What a caller reads in the node of a member. -/
theorem Represents.read (h : Represents s a) {e : Option UInt64} (he : ∀ v ∈ e, v ∈ a.members) :
    s.read (e.map a.node) = some (e.map a.located) := by
  cases e with
  | none => rfl
  | some v => simp [State.read, (h.item _ v).mpr ⟨he v rfl, rfl⟩, Model.located]

theorem find_spec (hA : A.Lawful) (h : Represents s a) :
    ∃ p, A.lookup (s.compare (some v)) s.root = some p ∧
      s.read p = some (if v ∈ a.members then some (a.located v) else none) := by
  obtain ⟨us, vs, hr, hn⟩ := h.exists_around v
  have hp := hA.lookup_eq _ s.root _ _ _ (by split_ifs at hn ⊢ <;> simpa using hn) (h.located hr)
  refine ⟨_, hp, ?_⟩
  have hread := h.read (e := if v ∈ a.members then some v else none) (by simp)
  split_ifs at hread ⊢ <;> exact hread

/-- The elements after a place in an ordered list are those that are ahead of it. -/
theorem next_on (hr : Around a v us vs) :
    (Walk.on v).next a.members = vs.head? := by
  have hsorted := (List.pairwise_append.mp hr.sorted).2.1
  have hahead : ∀ u ∈ a.members, v < u → u ∈ vs := fun u hu hlt => by
    rcases List.mem_append.mp ((hr.mem u).mpr ⟨hlt.ne', hu⟩) with hx | hx
    · exact (hlt.asymm (hr.below u hx)).elim
    · exact hx
  cases vs with
  | nil => exact next_eq_none.mpr fun u hu hlt => List.not_mem_nil (hahead u hu hlt)
  | cons x xs =>
    refine next_eq_some.mpr ⟨⟨((hr.mem x).mp (by simp)).2, hr.above x (by simp)⟩, fun u hu hlt => ?_⟩
    rcases List.mem_cons.mp (hahead u hu hlt) with rfl | hx
    · exact le_rfl
    · exact ((List.pairwise_cons.mp hsorted).1 u hx).le

/-- The first element of the ordered list is the least member. -/
theorem next_start {l : List UInt64} (hl : l.Pairwise (· < ·)) (hmem : ∀ v, v ∈ l ↔ v ∈ a.members) :
    Walk.start.next a.members = l.head? := by
  cases l with
  | nil => exact next_eq_none.mpr fun u hu => ((hmem u).mpr hu |> List.not_mem_nil).elim
  | cons x xs =>
    refine next_eq_some.mpr ⟨⟨(hmem x).mp (by simp), trivial⟩, fun u hu _ => ?_⟩
    rcases List.mem_cons.mp ((hmem u).mpr hu) with rfl | hx
    · exact le_rfl
    · exact ((List.pairwise_cons.mp hl).1 u hx).le

/-- The nodes of the members are distinct. -/
theorem Represents.nodes_nodup (h : Represents s a) : (A.nodes s.root).Nodup := by
  obtain ⟨l, hl, hmem, hnodes⟩ := h.listed
  rw [hnodes, List.nodup_map_iff_inj_on (hl.imp ne_of_lt)]
  exact fun u hu v hv => h.node_inj ((hmem u).mp hu) ((hmem v).mp hv)

theorem Enum_spec (hA : A.Lawful) (h : Represents s a) (hw : a.walk ≠ .ended) :
    ∃ s', Enum s = some (s', (a.walk.next a.members).map a.located) ∧
      Represents s' { a with walk := .after (a.walk.next a.members) } := by
  have hnext : ∃ key, s.key = some key ∧
      A.next key s.root = some ((a.walk.next a.members).map a.node) := by
    cases hx : a.walk with
    | start =>
      obtain ⟨l, hl, hmem, hnodes⟩ := h.listed
      refine ⟨none, by simp [State.key, h.restartKey, hx, Walk.map], ?_⟩
      rw [hA.next_first, hnodes, next_start hl hmem, List.head?_map]
    | on v =>
      obtain ⟨us, vs, hr, hn⟩ := h.exists_around v
      have hv := h.walk v hx
      refine ⟨some (a.node v), by simp [State.key, h.restartKey, hx, Walk.map], ?_⟩
      rw [hA.next_after _ (us.map a.node) (a.node v) (vs.map a.node) h.nodes_nodup
        (by simpa [hv] using hn), next_on hr, List.head?_map]
    | ended => exact (hw hx).elim
  obtain ⟨key, hk, hp⟩ := hnext
  have hmem : ∀ v ∈ a.walk.next a.members, v ∈ a.members := fun v hv => (next_eq_some.mp hv).1.1
  refine ⟨{ s with restartKey := .after ((a.walk.next a.members).map a.node) }, ?_, ?_⟩
  · simp [Enum, hk, hp, h.read hmem]
  · refine ⟨h.listed, h.item, h.bound, h.allocated, h.freed_nodup, h.freed, ?_, fun v hv => ?_⟩
    · cases a.walk.next a.members <;> rfl
    · cases hx : a.walk.next a.members with
      | none =>
        rw [hx] at hv
        cases hv
      | some u =>
        rw [hx] at hv
        obtain rfl : u = v := by simpa [Walk.after] using hv
        exact hmem u hx

/-- `clear` deletes the elements one after the other. -/
theorem clearLoop_spec {restartKey : A.Table → Option ℕ} (hA : A.Lawful)
    (hR : A.Resumes restartKey) (l : List UInt64) {s : State A} {a : Model} (h : Represents s a)
    (hw : ∀ v, a.walk ≠ .on v)
    (hl : l.Pairwise (· < ·)) (hmem : ∀ v, v ∈ l ↔ v ∈ a.members)
    (hnodes : A.nodes s.root = l.map a.node)
    (hkey : ∀ n, l.head?.map a.node = some n → restartKey s.root = some n) :
    ∃ s', clearLoop l.length (l.head?.map a.node) s = some s' ∧
      Represents s' { a with members := ∅ } := by
  induction l generalizing s a with
  | nil =>
    refine ⟨s, rfl, ?_⟩
    have he : a.members = ∅ := Finset.eq_empty_of_forall_notMem fun v hv => by
      simpa using (hmem v).mpr hv
    rwa [← he]
  | cons v l ih =>
    obtain ⟨hv, hl⟩ := List.pairwise_cons.mp hl
    have hm : v ∈ a.members := (hmem v).mp List.mem_cons_self
    have hmem' : ∀ u, u ∈ l ↔ u ≠ v ∧ u ∈ a.members := fun u => by
      rw [← hmem, List.mem_cons]
      exact ⟨fun hu => ⟨(hv u hu).ne', .inr hu⟩, fun hu => hu.2.resolve_left hu.1⟩
    have hr : Around a v [] l := ⟨by simp, hv, hl, hmem'⟩
    obtain ⟨t, ht, hnodes'⟩ := h.delete_table hA hm hr hnodes
    have hs : s.delete (s.item (a.node v)) =
        some (({ s with root := t } : State A).free (a.node v), true) := by
      rw [(h.item _ v).mpr ⟨hm, rfl⟩]
      simp [State.delete, ht]
    have hrep := h.freed_member hm (hw v) hr hnodes'
    have hstart : restartKey t = none :=
      hR.deleted _ _ _ (a.node v) (l.map a.node) hnodes (hkey _ rfl) ht
    have hgo : (A.enumerate false t).2 = l.head?.map a.node := by
      rw [hR.resumed t hstart, hnodes', List.nil_append, List.head?_map]
    have hsame := hR.nodes_resumed t
    obtain ⟨s', hs', hrep'⟩ := ih (hrep.retable hsame) hw hl
      (fun u => (hmem' u).trans Finset.mem_erase.symm) (hsame.trans hnodes')
      fun n hn => hR.returned t n (hgo.trans hn)
    refine ⟨s', ?_, hrep'⟩
    simpa [clearLoop, hs, State.free, hgo] using hs'

theorem clear_spec {restartKey : A.Table → Option ℕ} (hA : A.Lawful) (hR : A.Resumes restartKey)
    (h : Represents s a) (hw : ∀ v, a.walk ≠ .on v) :
    ∃ s', clear (A.nodes s.root).length s = some s' ∧ Represents s' { a with members := ∅ } := by
  obtain ⟨l, hl, hmem, hnodes⟩ := h.listed
  obtain ⟨hfirst, hsame⟩ := hA.enumerate_first s.root
  obtain ⟨s', hs', hrep⟩ := clearLoop_spec hA hR l (h.retable hsame) hw hl hmem
    (hsame.trans hnodes) fun n hn => by rw [hR.restarted, hnodes, List.head?_map, hn]
  refine ⟨s', ?_, hrep⟩
  rw [clear, hfirst, hnodes, List.length_map, List.head?_map]
  exact hs'

/-- The restart key of a caller has no part in `clear`. -/
theorem clearLoop_restartKey (key : Walk ℕ) (rounds : ℕ) (p : Option ℕ) (s : State A) :
    clearLoop rounds p { s with restartKey := key } =
      (clearLoop rounds p s).map fun s => { s with restartKey := key } := by
  induction rounds generalizing p s with
  | zero => cases p <;> rfl
  | succ rounds ih =>
    cases p with
    | none => rfl
    | some p =>
      have hcompare : ({ s with restartKey := key } : State A).compare (s.item p) =
          s.compare (s.item p) := rfl
      simp only [clearLoop, State.delete, hcompare]
      cases A.delete (s.compare (s.item p)) s.root with
      | none => rfl
      | some r =>
        obtain ⟨t, n⟩ := r
        cases n with
        | none => exact ih (A.enumerate false t).2 { s with root := (A.enumerate false t).1 }
        | some n =>
          exact ih (A.enumerate false t).2
            { ({ s with root := t } : State A).free n with root := (A.enumerate false t).1 }

/-- One operation does to the table what it does to the set. -/
theorem step_spec {restartKey : A.Table → Option ℕ} (hA : A.Lawful) (hR : A.Resumes restartKey)
    (h : Represents s a) {op : Op} (hp : a.Permits op) :
    ∃ s', step s op = some (s', (a.step op).2) ∧ Represents s' (a.step op).1 := by
  cases op with
  | insert alloc v =>
    obtain ⟨s', r, hs, hr, hrep⟩ := insert_spec (v := v) hA alloc h
    exact ⟨s', by simp [step, hs, hr], hrep⟩
  | remove v =>
    obtain ⟨s', hs, hrep⟩ := delete_spec hA h hp
    exact ⟨s', by simp [step, hs, Model.step], hrep⟩
  | find v =>
    obtain ⟨p, hp, hread⟩ := find_spec (v := v) hA h
    exact ⟨s, by simp [step, hp, hread, Model.step], h⟩
  | count =>
    obtain ⟨l, hl, hmem, hnodes⟩ := h.listed
    have hcard : a.members.card = l.length := by
      rw [← List.toFinset_card_of_nodup (hl.imp ne_of_lt)]
      congr 1
      ext v
      simp [hmem]
    exact ⟨s, by simp [step, hnodes, Model.step, hcard], h⟩
  | empty =>
    obtain ⟨l, hl, hmem, hnodes⟩ := h.listed
    have hempty : (l = []) ↔ a.members = ∅ := by
      rw [List.eq_nil_iff_forall_not_mem, Finset.eq_empty_iff_forall_notMem]
      simp [hmem]
    refine ⟨s, ?_, h⟩
    simp only [step, hnodes, Model.step, ← hempty]
    cases l <;> simp
  | clear =>
    obtain ⟨s', hs, hrep⟩ := clear_spec hA hR h hp
    exact ⟨s', by simp [step, hs, Model.step], hrep⟩
  | restart =>
    exact ⟨_, rfl, h.listed, h.item, h.bound, h.allocated, h.freed_nodup, h.freed, rfl, nofun⟩
  | Enum =>
    obtain ⟨s', hs, hrep⟩ := Enum_spec hA h hp
    exact ⟨s', by simp [step, hs, Model.step], hrep⟩

end Steps

section Calls

variable {A : Routines} {s : State A} {a : Model} {v : UInt64} {ops : List Op}

/-- Operations do to the table what they do to the set. -/
theorem calls_spec {restartKey : A.Table → Option ℕ} (hA : A.Lawful)
    (hR : A.Resumes restartKey) (h : Represents s a) (hp : a.PermitsAll ops) :
    ∃ s', calls s ops = some (s', (a.calls ops).2) ∧ Represents s' (a.calls ops).1 := by
  induction ops generalizing s a with
  | nil => exact ⟨s, rfl, h⟩
  | cons op ops ih =>
    obtain ⟨u, hu, hrep⟩ := step_spec hA hR h hp.1
    obtain ⟨s', hs', hrep'⟩ := ih hrep (hp.2 _ rfl)
    exact ⟨s', by simp [calls, hu, hs', Model.calls], hrep'⟩

/-- Callers see a finite set of 64-bit numbers, and the table keeps one: each number has its node
as long as it is a member, and once the destructor ran each node was given back once. -/
theorem table_keeps_set {restartKey : A.Table → Option ℕ} (hA : A.Lawful)
    (hR : A.Resumes restartKey) (hp : Model.init.PermitsAll ops) :
    ∃ s, calls (State.init A) ops = some (s, (Model.init.calls ops).2) ∧
      Represents s (Model.init.calls ops).1 ∧
      ∃ s', clear (A.nodes s.root).length s = some s' ∧
        s'.freed.Perm (List.range s'.allocated) := by
  obtain ⟨s, hs, hrep⟩ := calls_spec hA hR (represents_init hA) hp
  refine ⟨s, hs, hrep, ?_⟩
  -- no walk goes on after the destructor
  obtain ⟨u, hu, hrep'⟩ := clear_spec hA hR (s := { s with restartKey := .start })
    (a := { (Model.init.calls ops).1 with walk := .start })
    ⟨hrep.listed, hrep.item, hrep.bound, hrep.allocated, hrep.freed_nodup, hrep.freed, rfl, nofun⟩
    nofun
  have hclear : clear (A.nodes s.root).length { s with restartKey := .start } =
      (clear (A.nodes s.root).length s).map fun s => { s with restartKey := .start } :=
    clearLoop_restartKey .start _ _ { s with root := (A.enumerate true s.root).1 }
  obtain ⟨s', hs', rfl⟩ := Option.map_eq_some_iff.mp (hclear.symm.trans hu)
  have hnone : ∀ n, s'.item n = none := fun n =>
    Option.eq_none_iff_forall_ne_some.mpr fun v hv => by simpa using ((hrep'.item n v).mp hv).1
  refine ⟨s', hs', (List.perm_ext_iff_of_nodup hrep'.freed_nodup List.nodup_range).mpr fun n => ?_⟩
  have hfreed : n ∈ s'.freed ↔ n < s'.allocated ∧ s'.item n = none := hrep'.freed n
  simp [hfreed, hnone]

/-- Two walks, the second one over a table that changes. -/
def twoWalks : List Op :=
  [.insert true 7, .insert true 3, .insert false 5, .insert true 3, .Enum, .Enum, .Enum, .restart,
    .Enum, .insert true 9, .remove 7, .find 9, .Enum, .Enum, .count, .clear, .empty]

theorem table_keeps_set_twoWalks :
    ∃ s, calls (State.init cursored) twoWalks = some (s,
      [.insert .ok, .insert .ok, .insert .error, .insert .existed, .visit (some (1, 3)),
        .visit (some (0, 7)), .visit none, .void, .visit (some (1, 3)), .insert .ok, .bool true,
        .item (some (2, 9)), .visit (some (2, 9)), .visit none, .count 2, .void, .bool true]) :=
  have hrs : (Model.init.calls twoWalks).2 = _ := by decide +kernel
  (table_keeps_set cursored_lawful cursored_resumes
    (show Model.init.PermitsAll twoWalks by decide +kernel)).imp
    fun _ h => h.1.trans (congrArg (fun rs => some (_, rs)) hrs)

/-- The sets that calls of `Enum` meet. -/
def enumSets : Model → List Op → List (Finset UInt64)
  | _, [] => []
  | a, .Enum :: ops => a.members :: enumSets (a.step .Enum).1 ops
  | a, op :: ops => enumSets (a.step op).1 ops

theorem visits_cons (r : Ret) (rs : List Ret) : visits (r :: rs) = visits [r] ++ visits rs :=
  List.filterMap_append (l := [r])

/-- Calls of `Enum` walk over the set. -/
theorem visits_eq_tour (hr : .restart ∉ ops) :
    visits (a.calls ops).2 = tour a.walk (enumSets a ops) := by
  induction ops generalizing a with
  | nil => rfl
  | cons op ops ih =>
    obtain ⟨hop, hops⟩ := not_or.mp (List.mem_cons.not.mp hr)
    have hrest := ih (a := (a.step op).1) hops
    rw [Model.calls, visits_cons, hrest]
    cases op with
    | restart => exact (hop rfl).elim
    | Enum => simp [visits, enumSets, tour, Model.step, Model.located, Function.comp_def]
    | insert alloc v =>
      simp only [Model.step, enumSets]
      split_ifs <;> rfl
    | remove v => rfl
    | find v => rfl
    | count => rfl
    | empty => rfl
    | clear => rfl

/-- Numbers come into the set by insertions. -/
theorem mem_of_mem_enumSets {S : Finset UInt64} (hS : S ∈ enumSets a ops) (hv : v ∈ S) :
    v ∈ a.members ∨ ∃ alloc, .insert alloc v ∈ ops := by
  induction ops generalizing a with
  | nil => cases hS
  | cons op ops ih =>
    have hnext : v ∈ (a.step op).1.members → v ∈ a.members ∨ ∃ alloc, .insert alloc v ∈ op :: ops := by
      cases op with
      | insert alloc u =>
        simp only [Model.step]
        split_ifs
        · exact .inl
        · intro hm
          rcases Finset.mem_insert.mp hm with rfl | hm
          · exact .inr ⟨alloc, List.mem_cons_self⟩
          · exact .inl hm
        · exact .inl
      | remove u => exact fun hm => .inl (Finset.mem_of_mem_erase hm)
      | clear => exact fun hm => (Finset.notMem_empty v hm).elim
      | _ => exact .inl
    have hlater : S ∈ enumSets (a.step op).1 ops →
        v ∈ a.members ∨ ∃ alloc, .insert alloc v ∈ op :: ops := fun hS => by
      rcases ih hS with hm | ⟨alloc, hm⟩
      · exact hnext hm
      · exact .inr ⟨alloc, List.mem_cons_of_mem _ hm⟩
    cases op with
    | Enum =>
      rcases List.mem_cons.mp hS with rfl | hS
      · exact .inl hv
      · exact hlater hS
    | _ => exact hlater hS

/-- A number stays in the set until it is removed. -/
theorem mem_enumSets (hv : v ∈ a.members) (hremove : .remove v ∉ ops) (hclear : .clear ∉ ops)
    {S : Finset UInt64} (hS : S ∈ enumSets a ops) : v ∈ S := by
  induction ops generalizing a with
  | nil => cases hS
  | cons op ops ih =>
    obtain ⟨hop, hremove⟩ := not_or.mp (List.mem_cons.not.mp hremove)
    obtain ⟨hop', hclear⟩ := not_or.mp (List.mem_cons.not.mp hclear)
    have hlater : S ∈ enumSets (a.step op).1 ops → v ∈ S := fun hS => by
      refine ih ?_ hremove hclear hS
      cases op with
      | insert alloc u =>
        simp only [Model.step]
        split_ifs
        · exact hv
        · exact Finset.mem_insert_of_mem hv
        · exact hv
      | remove u => exact Finset.mem_erase.mpr ⟨fun he => hop (he ▸ rfl), hv⟩
      | clear => exact (hop' rfl).elim
      | _ => exact hv
    cases op with
    | Enum =>
      rcases List.mem_cons.mp hS with rfl | hS
      · exact hv
      · exact hlater hS
    | _ => exact hlater hS

/-- Calls lead to where single operations do. -/
theorem run_step (a : Model) (ops : List Op) :
    run (fun a op => some (a.step op).1) a ops = some (a.calls ops).1 := by
  induction ops generalizing a with
  | nil => rfl
  | cons op ops ih => exact ih (a.step op).1

/-- A walk visits numbers in ascending order, none of them that was not there, and once it ends
it has visited all that stayed, whatever its callers do to the table meanwhile. -/
theorem Enum_visits {restartKey : A.Table → Option ℕ} (hA : A.Lawful)
    (hR : A.Resumes restartKey) {before : List Op}
    (hp : Model.init.PermitsAll (before ++ .restart :: ops))
    (hops : .restart ∉ ops) :
    ∃ s u rs rs', calls (State.init A) before = some (s, rs) ∧
      calls s (.restart :: ops) = some (u, rs') ∧
      ((visits rs').filterMap id).Pairwise (· < ·) ∧
      (∀ v, some v ∈ visits rs' → (∃ n, s.item n = some v) ∨ ∃ alloc, .insert alloc v ∈ ops) ∧
      (none ∈ visits rs' → ∀ n v, s.item n = some v → .remove v ∉ ops → .clear ∉ ops →
        some v ∈ visits rs') := by
  obtain ⟨hbefore, hp'⟩ := along_append.mp hp
  obtain ⟨s, hs, hrep⟩ := calls_spec hA hR (represents_init hA) hbefore
  have hafter := hp' _ (run_step Model.init before)
  obtain ⟨u, hu, -⟩ := calls_spec hA hR hrep hafter
  have htour : visits ((Model.init.calls before).1.calls (.restart :: ops)).2 =
      tour .start (enumSets ((Model.init.calls before).1.step .restart).1 ops) :=
    visits_eq_tour (a := ((Model.init.calls before).1.step .restart).1) hops
  refine ⟨s, u, _, _, hs, hu, ?_, fun v hv => ?_, fun hend n v hn hremove hclear => ?_⟩
  · rw [htour]
    exact tour_ascending
  · rw [htour] at hv
    obtain ⟨-, S, hS, hvS⟩ := mem_tour hv
    exact (mem_of_mem_enumSets hS hvS).imp_left fun hm => ⟨_, (hrep.item _ v).mpr ⟨hm, rfl⟩⟩
  · rw [htour] at hend ⊢
    exact tour_complete hend
      (fun S => mem_enumSets (a := ((Model.init.calls before).1.step .restart).1)
        ((hrep.item n v).mp hn).1 hremove hclear) trivial

/-- The second walk sees 3 and 9. -/
theorem Enum_visits_twoWalks :
    ∃ s u rs rs', calls (State.init cursored) (twoWalks.take 7) = some (s, rs) ∧
      calls s (.restart :: twoWalks.drop 8) = some (u, rs') ∧
      ((visits rs').filterMap id).Pairwise (· < ·) ∧ visits rs' = [some 3, some 9, none] := by
  obtain ⟨s, u, rs, rs', hs, hu, hsorted, -⟩ := Enum_visits cursored_lawful cursored_resumes
    (show Model.init.PermitsAll (twoWalks.take 7 ++ .restart :: twoWalks.drop 8) by decide +kernel)
    (by decide)
  have hvisits : ((calls (State.init cursored) (twoWalks.take 7)).bind fun x =>
      calls x.1 (.restart :: twoWalks.drop 8)).map (fun x => visits x.2) =
        some [some 3, some 9, none] := by decide +kernel
  rw [hs, Option.bind_some, hu, Option.map_some] at hvisits
  exact ⟨s, u, rs, rs', hs, hu, hsorted, Option.some.inj hvisits⟩

end Calls

end KernelLib.Uint64Table
