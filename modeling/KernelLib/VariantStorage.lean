import KernelLib.StepRuns
import KernelLib.VariantModel

/-!
# The storage of a variant matches its tag

Between operations each variant holds one live object of the type its tag
names, or none if it is void, and each object constructed is live in one
variant or was destroyed once. Assignment destroys before it reads its
source, and sets the tag last: a variant assigned to itself, or from one that
lived inside of its object, reads an object that is gone, and a copy that
throws leaves the tag of what was destroyed. Runs without these keep the
storage in order, and no others do.
-/

namespace KernelLib.VariantStorage

open StepRuns VariantModel

variable {Ty Val : Type}

/-- The live object of a variant. -/
def held (v : Var Ty Val) : Option (Object Ty Val) :=
  match v.data with
  | .live o => some o
  | _ => none

/-- The storage holds a live object of the type that the tag names, or none. -/
def Matches (types : List Ty) (v : Var Ty Val) : Prop :=
  match v.typeIndex with
  | none => held v = none
  | some T => T ∈ types ∧ ∃ o, v.data = .live o ∧ o.type = T

/-- The number of the live object in a variant. -/
def liveId (s : State Ty Val) (x : ℕ) : Option ℕ := ((s.var x).bind held).map Object.id

/-- Every object constructed is live in one variant or was destroyed once. -/
structure Accounted (live : ℕ → Option ℕ) (created : ℕ) (destroyed : List ℕ) : Prop where
  unique : ∀ x y i, live x = some i → live y = some i → x = y
  all : ∀ i, i < created ↔ (∃ x, live x = some i) ∨ i ∈ destroyed
  apart : ∀ x i, live x = some i → i ∉ destroyed
  once : destroyed.Nodup

/-- All variants match their tags and all objects are accounted for. -/
structure Intact (types : List Ty) (s : State Ty Val) : Prop where
  matched : ∀ x v, s.var x = some v → Matches types v
  accounted : Accounted (liveId s) s.created s.destroyed

section Accounts

variable {live : ℕ → Option ℕ} {created : ℕ} {destroyed : List ℕ} {x i : ℕ}

/-- Before the first construction. -/
theorem accounted_empty : Accounted (fun _ => none) 0 [] where
  unique := by simp
  all := by simp
  apart := by simp
  once := List.nodup_nil

/-- A new object in a storage that held none. -/
theorem Accounted.construct (h : Accounted live created destroyed) (hx : live x = none) :
    Accounted (Function.update live x (some created)) (created + 1) destroyed := by
  have hold : ∀ y i, live y = some i → i < created := fun y i hy => (h.all i).mpr (.inl ⟨y, hy⟩)
  have hgone : ∀ i ∈ destroyed, i < created := fun i hi => (h.all i).mpr (.inr hi)
  have hcases : ∀ y i, Function.update live x (some created) y = some i →
      (y = x ∧ i = created) ∨ (y ≠ x ∧ live y = some i) := by
    intro y i hy
    by_cases hyx : y = x
    · subst hyx
      rw [Function.update_self] at hy
      exact .inl ⟨rfl, (Option.some.inj hy).symm⟩
    · rw [Function.update_of_ne hyx] at hy
      exact .inr ⟨hyx, hy⟩
  constructor
  · intro y z i hy hz
    rcases hcases y i hy with ⟨hyx, hi⟩ | ⟨-, hy'⟩
    · rcases hcases z i hz with ⟨hzx, -⟩ | ⟨-, hz'⟩
      · rw [hyx, hzx]
      · exact absurd (hold z i hz') (by rw [hi]; exact Nat.lt_irrefl created)
    · rcases hcases z i hz with ⟨-, hi⟩ | ⟨-, hz'⟩
      · exact absurd (hold y i hy') (by rw [hi]; exact Nat.lt_irrefl created)
      · exact h.unique _ _ _ hy' hz'
  · intro i
    rw [Nat.lt_succ_iff_lt_or_eq, h.all]
    constructor
    · rintro ((⟨y, hy⟩ | hi) | rfl)
      · have hyx : y ≠ x := fun he => by simp [he, hx] at hy
        exact .inl ⟨y, by rw [Function.update_of_ne hyx, hy]⟩
      · exact .inr hi
      · exact .inl ⟨x, Function.update_self ..⟩
    · rintro (⟨y, hy⟩ | hi)
      · rcases hcases y i hy with ⟨-, rfl⟩ | ⟨-, hy⟩
        · exact .inr rfl
        · exact .inl (.inl ⟨y, hy⟩)
      · exact .inl (.inr hi)
  · intro y i hy hi
    rcases hcases y i hy with ⟨-, he⟩ | ⟨-, hy'⟩
    · exact absurd (hgone i hi) (by rw [he]; exact Nat.lt_irrefl created)
    · exact h.apart _ _ hy' hi
  · exact h.once

/-- A live object is destroyed. -/
theorem Accounted.destroy (h : Accounted live created destroyed) (hx : live x = some i) :
    Accounted (Function.update live x none) created (destroyed ++ [i]) := by
  have hcases : ∀ y j, Function.update live x none y = some j → y ≠ x ∧ live y = some j := by
    intro y j hy
    by_cases hyx : y = x
    · simp [hyx] at hy
    · exact ⟨hyx, by rwa [Function.update_of_ne hyx] at hy⟩
  constructor
  · intro y z j hy hz
    exact h.unique _ _ _ (hcases y j hy).2 (hcases z j hz).2
  · intro j
    rw [h.all, List.mem_append, List.mem_singleton]
    constructor
    · rintro (⟨y, hy⟩ | hj)
      · by_cases hyx : y = x
        · subst hyx
          exact .inr (.inr (Option.some.inj (hy.symm.trans hx)))
        · exact .inl ⟨y, by rw [Function.update_of_ne hyx, hy]⟩
      · exact .inr (.inl hj)
    · rintro (⟨y, hy⟩ | hj | rfl)
      · exact .inl ⟨y, (hcases y j hy).2⟩
      · exact .inr hj
      · exact .inl ⟨x, hx⟩
  · intro y j hy hj
    obtain ⟨hyx, hy⟩ := hcases y j hy
    rcases List.mem_append.mp hj with hj | hj
    · exact h.apart _ _ hy hj
    · obtain rfl := List.mem_singleton.mp hj
      exact hyx (h.unique _ _ _ hy hx)
  · exact h.once.append (List.nodup_singleton i) (by simpa using h.apart x i hx)

end Accounts

section Storages

variable {types : List Ty} {s t : State Ty Val} {x y : ℕ} {v w : Var Ty Val}

/-- The variant that was set is what it was set to. -/
@[simp] theorem put_self (s : State Ty Val) (x : ℕ) (v : Option (Var Ty Val)) :
    (s.put x v).var x = v := Function.update_self ..

/-- Setting a variant leaves the others. -/
theorem put_of_ne (s : State Ty Val) (v : Option (Var Ty Val)) (h : y ≠ x) :
    (s.put x v).var y = s.var y := Function.update_of_ne h ..

/-- Setting the storage of a variant sets the variant. -/
theorem setData_eq (hx : s.var x = some v) (d : Storage Ty Val) :
    s.setData x d = s.put x (some { v with data := d }) := by
  rw [State.setData, hx, Option.map_some]

/-- So does setting its tag. -/
theorem setTypeIndex_eq (hx : s.var x = some v) (id : Option Ty) :
    s.setTypeIndex x id = s.put x (some { v with typeIndex := id }) := by
  rw [State.setTypeIndex, hx, Option.map_some]

/-- The object of a variant that is set is the one in its storage. -/
theorem liveId_put (s : State Ty Val) (x : ℕ) (v : Option (Var Ty Val)) :
    liveId (s.put x v) = Function.update (liveId s) x ((v.bind held).map Object.id) := by
  funext y
  by_cases hy : y = x
  · subst hy
    simp [liveId]
  · simp [liveId, put_of_ne s v hy, Function.update_of_ne hy]

/-- The object of a variant is the one in its storage. -/
theorem liveId_of_var (hx : s.var x = some v) : liveId s x = (held v).map Object.id := by
  simp [liveId, hx]

/-- All objects are accounted for and all variants but one match their tags. -/
structure IntactBut (types : List Ty) (x : ℕ) (s : State Ty Val) : Prop where
  matched : ∀ y v, y ≠ x → s.var y = some v → Matches types v
  accounted : Accounted (liveId s) s.created s.destroyed

/-- What is intact is so but for any variant. -/
theorem Intact.but (h : Intact types s) (x : ℕ) : IntactBut types x s :=
  ⟨fun y v _ hv => h.matched y v hv, h.accounted⟩

/-- What is intact but for a variant is so when this one matches its tag. -/
theorem IntactBut.intact (h : IntactBut types x s)
    (hx : ∀ v, s.var x = some v → Matches types v) : Intact types s := by
  refine ⟨fun y v hv => ?_, h.accounted⟩
  by_cases hy : y = x
  · exact hx v (hy ▸ hv)
  · exact h.matched y v hy hv

/-- Change a variant without a change of its live object. -/
theorem IntactBut.put (h : IntactBut types x s) {u : Option (Var Ty Val)}
    (hu : (u.bind held).map Object.id = liveId s x) : IntactBut types x (s.put x u) := by
  refine ⟨fun y v hy hv => h.matched y v hy ((put_of_ne s u hy).symm.trans hv), ?_⟩
  rw [liveId_put, hu, Function.update_eq_self]
  exact h.accounted

/-- Put a new object into a storage that holds none. -/
theorem IntactBut.construct (h : IntactBut types x s) (hx : liveId s x = none)
    {o : Object Ty Val} (ho : o.id = s.created) (id : Option Ty) :
    IntactBut types x { s.put x (some ⟨id, .live o⟩) with created := s.created + 1 } := by
  refine ⟨fun y v hy hv => h.matched y v hy ((put_of_ne s _ hy).symm.trans hv), ?_⟩
  have hlive : liveId (s.put x (some ⟨id, .live o⟩)) =
      Function.update (liveId s) x (some s.created) := by
    rw [liveId_put, ← ho]
    rfl
  exact hlive ▸ h.accounted.construct hx

/-- A variant after the call of a destructor on its storage. -/
def ended (v : Var Ty Val) : Var Ty Val :=
  { v with data := match v.data with | .live o => .dead o | d => d }

/-- A variant that was destroyed holds nothing. -/
@[simp] theorem held_ended (v : Var Ty Val) : held (ended v) = none := by
  rcases v with ⟨T, d⟩
  cases d <;> rfl

/-- All variants after that. -/
def afterDestroy (x : ℕ) (v : Var Ty Val) (s : State Ty Val) : State Ty Val :=
  { s.put x (some (ended v)) with
    destroyed := s.destroyed ++ ((held v).map Object.id).toList }

/-- Destroying an object and setting the variant again can be swapped. -/
theorem afterDestroy_put (s : State Ty Val) (x : ℕ) (v : Var Ty Val) (u : Option (Var Ty Val)) :
    (afterDestroy x v s).put x u = { s.put x u with
      destroyed := s.destroyed ++ ((held v).map Object.id).toList } := by
  simp [afterDestroy, State.put]

/-- What was live in the variant is destroyed. -/
theorem accounted_afterDestroy (h : Accounted (liveId s) s.created s.destroyed)
    (hx : s.var x = some v) :
    liveId (afterDestroy x v s) = Function.update (liveId s) x none ∧
      Accounted (Function.update (liveId s) x none) s.created (afterDestroy x v s).destroyed := by
  have hlive : liveId (afterDestroy x v s) = Function.update (liveId s) x none := by
    have hput := liveId_put s x (some (ended v))
    rw [Option.bind_some, held_ended] at hput
    exact hput
  refine ⟨hlive, ?_⟩
  have hid := liveId_of_var hx
  cases hv : held v with
  | none =>
    rw [hv, Option.map_none] at hid
    rw [← hid, Function.update_eq_self]
    simpa [afterDestroy, hv, State.put] using h
  | some o =>
    rw [hv, Option.map_some] at hid
    simpa [afterDestroy, hv, State.put] using h.destroy hid

/-- Destroying the object of a variant leaves the rest intact. -/
theorem IntactBut.afterDestroy (h : IntactBut types x s) (hx : s.var x = some v) :
    IntactBut types x (afterDestroy x v s) := by
  obtain ⟨hlive, haccounted⟩ := accounted_afterDestroy h.accounted hx
  exact ⟨fun y u hy hu => h.matched y u hy ((put_of_ne s _ hy).symm.trans hu), hlive ▸ haccounted⟩

/-- A variant inside of an object ends with it. -/
theorem IntactBut.end (h : IntactBut types x s) (hy : s.var y = some w) :
    IntactBut types x ((VariantStorage.afterDestroy y w s).put y none) := by
  obtain ⟨hlive, haccounted⟩ := accounted_afterDestroy h.accounted hy
  constructor
  · intro u v hu hv
    by_cases huy : u = y
    · rw [huy, put_self] at hv
      cases hv
    · rw [put_of_ne _ _ huy] at hv
      exact h.matched u v hu ((put_of_ne s _ huy).symm.trans hv)
  · rw [liveId_put, hlive, Option.bind_none, Option.map_none, Function.update_idem]
    exact haccounted

variable [DecidableEq Ty]

/-- `Destroy` ends what the storage of a matching variant holds. -/
theorem destroyAs_eq (hx : s.var x = some v) (hm : Matches types v) :
    destroyAs types v.typeIndex x s = some (afterDestroy x v s) := by
  rcases v with ⟨_ | T, d⟩
  · have hvoid : ∀ l : List Ty, destroyAs l none x s = some s := by
      intro l
      induction l with
      | nil => rfl
      | cons T rest ih => simpa [destroyAs] using ih
    have hheld : held ⟨none, d⟩ = none := hm
    have hended : ended ⟨none, d⟩ = ⟨none, d⟩ := by
      cases d with
      | live o => simp [held] at hheld
      | raw => rfl
      | dead o => rfl
    rw [hvoid, afterDestroy, hended, hheld]
    simp [State.put, ← hx]
  · obtain ⟨hT, o, rfl, rfl⟩ := hm
    have hrun : s.runDestructor o.type x = some (afterDestroy x ⟨some o.type, .live o⟩ s) := by
      simp only [State.runDestructor, hx, Option.map_some, if_true, setData_eq hx]
      rfl
    induction types with
    | nil => simp at hT
    | cons T rest ih =>
      by_cases hTo : o.type = T
      · subst hTo
        simpa [destroyAs] using hrun
      · simpa [destroyAs, hTo] using ih ((List.mem_cons.mp hT).resolve_left hTo)

/-- `Destroy` fails where the object is gone. -/
theorem destroyAs_dead {T : Ty} {o : Object Ty Val} (hT : T ∈ types) (hx : s.var x = some v)
    (hd : v.data = .dead o) : destroyAs types (some T) x s = none := by
  have hrun : s.runDestructor T x = none := by
    simp only [State.runDestructor, hx, Option.map_some, hd]
  induction types with
  | nil => simp at hT
  | cons U rest ih =>
    by_cases hTU : T = U
    · subst hTU
      simpa [destroyAs] using hrun
    · simpa [destroyAs, hTU] using ih ((List.mem_cons.mp hT).resolve_left hTU)

/-- The variants inside of an object end one after the other. -/
theorem end_spec {ends : List ℕ} (h : IntactBut types x s) (hnodup : ends.Nodup)
    (hsome : ∀ z ∈ ends, (s.var z).isSome) (hx : x ∉ ends) :
    ∃ t, ends.foldlM (endVariant types) s = some t ∧ IntactBut types x t ∧
      ∀ u, t.var u = if u ∈ ends then none else s.var u := by
  induction ends generalizing s with
  | nil => exact ⟨s, rfl, h, fun u => by rw [if_neg List.not_mem_nil]⟩
  | cons z ends ih =>
    rw [List.mem_cons, not_or] at hx
    rw [List.nodup_cons] at hnodup
    obtain ⟨w, hw⟩ := Option.isSome_iff_exists.mp (hsome z List.mem_cons_self)
    have hend : endVariant types s z = some ((afterDestroy z w s).put z none) := by
      simp [endVariant, hw, destroyAs_eq hw (h.matched z w (Ne.symm hx.1) hw)]
    have hvar : ∀ u, ((afterDestroy z w s).put z none).var u = if u = z then none else s.var u := by
      intro u
      by_cases hu : u = z
      · rw [hu, put_self, if_pos rfl]
      · rw [put_of_ne _ _ hu, if_neg hu]
        exact put_of_ne s _ hu
    obtain ⟨t, ht, hi, hvar'⟩ := ih (h.end hw) hnodup.2 (fun u hu => by
      rw [hvar, if_neg (ne_of_mem_of_not_mem hu hnodup.1)]
      exact hsome u (List.mem_cons_of_mem _ hu)) hx.2
    refine ⟨t, by rw [List.foldlM_cons, hend, Option.bind_eq_bind, Option.bind_some, ht], hi, ?_⟩
    intro u
    rw [hvar', hvar]
    by_cases hu : u ∈ ends <;> by_cases huz : u = z <;> simp [hu, huz]

/-- `Destroy` ends the object of a variant, and the variants inside of it. -/
theorem destroyWith_spec {ends : List ℕ} (h : Intact types s) (hxv : s.var x = some v)
    (hnodup : ends.Nodup) (hsome : ∀ z ∈ ends, (s.var z).isSome) (hx : x ∉ ends) :
    ∃ t, destroyWith types ends x s = some t ∧ IntactBut types x t ∧
      t.var x = some (ended v) ∧ ∀ u, u ≠ x → t.var u = if u ∈ ends then none else s.var u := by
  have hold : ∀ u, u ≠ x → (afterDestroy x v s).var u = s.var u := fun u hu => put_of_ne s _ hu
  obtain ⟨t, ht, hi, hvar⟩ := end_spec ((h.but x).afterDestroy hxv) hnodup (fun z hz => by
    rw [hold z (ne_of_mem_of_not_mem hz hx)]
    exact hsome z hz) hx
  refine ⟨t, by simp [destroyWith, hxv, destroyAs_eq hxv (h.matched x v hxv), ht], hi, ?_, ?_⟩
  · rw [hvar, if_neg hx]
    exact put_self ..
  · intro u hu
    rw [hvar, hold u hu]

/-- A variant that lives inside of its own object is destroyed twice. -/
theorem destroyWith_fails {ends : List ℕ} {T : Ty} (h : Intact types s) (hxv : s.var x = some v)
    (hT : v.typeIndex = some T) (hnodup : ends.Nodup) (hsome : ∀ z ∈ ends, (s.var z).isSome)
    (hx : x ∈ ends) : destroyWith types ends x s = none := by
  have hm := h.matched x v hxv
  obtain ⟨hmem, o, ho, hoT⟩ : T ∈ types ∧ ∃ o, v.data = .live o ∧ o.type = T := by
    simpa only [Matches, hT] using hm
  obtain ⟨before, after, rfl⟩ := List.append_of_mem hx
  rw [List.nodup_append] at hnodup
  have hbefore : x ∉ before := fun hb => hnodup.2.2 x hb x List.mem_cons_self rfl
  have hold : ∀ u, u ≠ x → (afterDestroy x v s).var u = s.var u := fun u hu => put_of_ne s _ hu
  obtain ⟨t, ht, -, hvar⟩ := end_spec ((h.but x).afterDestroy hxv) hnodup.1 (fun z hz => by
    rw [hold z (ne_of_mem_of_not_mem hz hbefore)]
    exact hsome z (List.mem_append_left _ hz)) hbefore
  have htx : t.var x = some (ended v) := by
    rw [hvar, if_neg hbefore]
    exact put_self ..
  have hdead : (ended v).data = .dead o := by simp [ended, ho]
  have htag : (ended v).typeIndex = some T := hT
  have hend : endVariant types t x = none := by
    simp [endVariant, htx, htag, destroyAs_dead hmem htx hdead]
  simp [destroyWith, hxv, destroyAs_eq hxv hm, List.foldlM_append, ht, hend]

end Storages

section Transfers

variable {types : List Ty} {E : Alternatives Ty Val} {s t : State Ty Val} {x y : ℕ}
variable {v w : Var Ty Val} {throws : Bool}

/-- The constructor of the alternative that a variant holds throws. -/
def Throws (E : Alternatives Ty Val) (throws : Bool) (w : Var Ty Val) : Prop :=
  throws = true ∧ ∃ T, w.typeIndex = some T ∧ E.scalar T = false

/-- A new object is placed in a storage without a live one, or the constructor throws. -/
theorem placeNew_spec (E : Alternatives Ty Val) (throws : Bool) (T : Ty) (z : Val)
    (h : IntactBut types x s) (hx : s.var x = some v) (hv : held v = none) :
    ∃ s' threw d, s.placeNew E T z throws x = (s', threw) ∧ IntactBut types x s' ∧
      (∀ u, u ≠ x → s'.var u = s.var u) ∧ s'.var x = some ⟨v.typeIndex, d⟩ ∧
      (threw = (throws && !E.scalar T)) ∧
      if threw then d = .raw else d = .live ⟨s.created, T, z⟩ := by
  have hid : liveId s x = none := by rw [liveId_of_var hx, hv, Option.map_none]
  have hdata := setData_eq hx
  by_cases ht : (throws && !E.scalar T) = true
  · refine ⟨s.setData x .raw, true, .raw, by rw [State.placeNew, if_pos ht], ?_, ?_, ?_, ht.symm,
      rfl⟩
    · rw [hdata]
      exact h.put (hid.trans rfl).symm
    · intro u hu
      rw [hdata]
      exact put_of_ne s _ hu
    · rw [hdata]
      exact put_self ..
  · refine ⟨_, false, .live ⟨s.created, T, z⟩, by rw [State.placeNew, if_neg ht], ?_, ?_, ?_,
      (Bool.eq_false_iff.mpr ht).symm, rfl⟩
    · rw [hdata]
      exact h.construct hid rfl v.typeIndex
    · intro u hu
      rw [hdata]
      exact put_of_ne s _ hu
    · rw [hdata]
      exact put_self ..

variable [DecidableEq Ty]

/-- What copying and moving have in common: a void variant gives nothing, and any other
constructs its alternative from the value that is read at the source. -/
structure Transfers (E : Alternatives Ty Val) (types : List Ty) (throws : Bool)
    (transfer : Transfer Ty Val) : Prop where
  void : ∀ y x s, transfer types none y x s = some (s, false)
  typed : ∀ T ∈ types, ∃ f g : Val → Val, (E.scalar T = true → ∀ z, f z = z) ∧
    ∀ y x s w, s.var y = some w → transfer types (some T) y x s =
      (readAs E T w.data).map fun z =>
        (s.setData y (w.data.withValue (g z))).placeNew E T (f z) throws x

/-- Storing the value that is there changes nothing. -/
theorem withValue_of_readAs {T : Ty} {d : Storage Ty Val} {z : Val} (h : readAs E T d = some z) :
    d.withValue z = d := by
  cases d with
  | raw => rfl
  | live o =>
    simp only [readAs, Option.ite_none_right_eq_some, Option.some.injEq] at h
    simp [Storage.withValue, ← h.2]
  | dead o =>
    simp only [readAs, Option.ite_none_right_eq_some, Option.some.injEq] at h
    simp [Storage.withValue, ← h.2]

/-- Copying leaves its source as it is. -/
theorem copy_transfers : Transfers E types throws (copyAs E throws) := by
  constructor
  · intro y x s
    induction types with
    | nil => rfl
    | cons T rest ih => simpa [copyAs] using ih
  · intro T hT
    refine ⟨E.copied T, id, fun hs z => E.copied_scalar T z hs, fun y x s w hw => ?_⟩
    induction types with
    | nil => simp at hT
    | cons U rest ih =>
      by_cases hU : T = U
      · subst hU
        have hsame : ∀ z, readAs E T w.data = some z →
            s.setData y (w.data.withValue z) = s := fun z hz => by
          rw [withValue_of_readAs hz, setData_eq hw]
          simp [State.put, ← hw]
        simp only [copyAs, if_true, hw, Option.bind_eq_bind, Option.bind_some, id_eq]
        cases hz : readAs E T w.data with
        | none => rfl
        | some z =>
          rw [Option.map_some, hsame z hz]
          rfl
      · simpa [copyAs, hU] using ih ((List.mem_cons.mp hT).resolve_left hU)

/-- A move makes an object from the source or throws. -/
theorem move_transfers : Transfers E types throws (moveAs E throws) := by
  constructor
  · intro y x s
    induction types with
    | nil => rfl
    | cons T rest ih => simpa [moveAs] using ih
  · intro T hT
    refine ⟨E.taken T, E.left (throws && !E.scalar T) T, fun hs z => E.taken_scalar T z hs,
      fun y x s w hw => ?_⟩
    induction types with
    | nil => simp at hT
    | cons U rest ih =>
      by_cases hU : T = U
      · subst hU
        simp only [moveAs, if_true, hw, Option.bind_eq_bind, Option.bind_some]
        cases hz : readAs E T w.data with
        | none => rfl
        | some z => rfl
      · simpa [moveAs, hU] using ih ((List.mem_cons.mp hT).resolve_left hU)

/-- Copy or move from one variant into the storage of another. -/
theorem transfer_spec {transfer : Transfer Ty Val} (htr : Transfers E types throws transfer)
    (h : IntactBut types x s) (hne : y ≠ x) (hx : s.var x = some v) (hv : held v = none)
    (hy : s.var y = some w) :
    ∃ s' threw w' d, transfer types w.typeIndex y x s = some (s', threw) ∧ IntactBut types x s' ∧
      s'.var y = some w' ∧ w'.typeIndex = w.typeIndex ∧ s'.var x = some ⟨v.typeIndex, d⟩ ∧
      (threw = true ↔ Throws E throws w) ∧
      if threw then d = .raw else Matches types ⟨w.typeIndex, d⟩ := by
  have hm := h.matched y w hne hy
  rcases hw : w.typeIndex with _ | T
  · refine ⟨s, false, w, v.data, htr.void .., h, hy, hw, hx, ?_, hv⟩
    simp [Throws, hw]
  · obtain ⟨hT, o, ho, hoT⟩ : T ∈ types ∧ ∃ o, w.data = .live o ∧ o.type = T := by
      simpa only [Matches, hw] using hm
    obtain ⟨f, g, -, heq⟩ := htr.typed T hT
    have hread : readAs E T w.data = some o.value := by simp [readAs, ho, hoT]
    have hleft : w.data.withValue (g o.value) = .live { o with value := g o.value } := by
      rw [ho]
      rfl
    rw [heq y x s w hy, hread, Option.map_some, hleft, setData_eq hy]
    -- the source keeps its object, with another value
    have h₁ : IntactBut types x
        (s.put y (some { w with data := .live { o with value := g o.value } })) := by
      refine ⟨fun u v hu hv => ?_, ?_⟩
      · by_cases huy : u = y
        · subst huy
          rw [put_self] at hv
          obtain rfl := Option.some.inj hv
          simp only [Matches, hw]
          exact ⟨hT, _, rfl, hoT⟩
        · exact h.matched u v hu ((put_of_ne s _ huy).symm.trans hv)
      · have hlive : ((some { w with data := .live { o with value := g o.value } } :
            Option (Var Ty Val)).bind held).map Object.id = liveId s y := by
          rw [liveId_of_var hy]
          simp [held, ho]
        rw [liveId_put, hlive, Function.update_eq_self]
        exact h.accounted
    obtain ⟨s', threw, d, hplace, hbut, hsame, hxv, hthrew, hd⟩ :=
      placeNew_spec E throws T (f o.value) h₁ ((put_of_ne s _ hne.symm).trans hx) hv
    refine ⟨s', threw, _, d, by rw [hplace], hbut, (hsame y hne).trans (put_self ..), hw, hxv, ?_, ?_⟩
    · simp [hthrew, Throws, hw]
    · cases threw with
      | true => exact hd
      | false =>
        have hd' : d = .live ⟨s.created, T, f o.value⟩ := hd
        exact ⟨hT, _, hd', rfl⟩

end Transfers

section Members

variable {types : List Ty} {E : Alternatives Ty Val} {s t : State Ty Val} {x y : ℕ}
variable {v w : Var Ty Val} {throws : Bool} {transfer : Transfer Ty Val}

/-- The type index of a variant, if it is not `typeid(void)`. -/
def typeOf (s : State Ty Val) (x : ℕ) : Option Ty := (s.var x).bind Var.typeIndex

/-- A variant that is not there has no object. -/
theorem liveId_of_none (hx : s.var x = none) : liveId s x = none := by simp [liveId, hx]

/-- A variant that holds no live object begins, or ends. -/
theorem Intact.put_none (h : Intact types s) (hx : liveId s x = none) {u : Option (Var Ty Val)}
    (hu : ∀ v, u = some v → Matches types v ∧ held v = none) : Intact types (s.put x u) := by
  have hlive : (u.bind held).map Object.id = liveId s x := by
    cases u with
    | none => exact hx.symm
    | some v => rw [hx, Option.bind_some, (hu v rfl).2, Option.map_none]
  refine ((h.but x).put hlive).intact fun v hv => ?_
  rw [put_self] at hv
  exact (hu v hv).1

variable [DecidableEq Ty]

/-- A variant constructed from another one, unless that throws. -/
theorem constructFrom_intact (htr : Transfers E types throws transfer) (h : Intact types s)
    (hx : s.var x = none) (hy : s.var y = some w) :
    ∃ t, constructFrom transfer types x y s = some t ∧ Intact types t := by
  have hne : y ≠ x := fun he => by simp [he, hx] at hy
  have h₀ : IntactBut types x (s.put x (some ⟨w.typeIndex, .raw⟩)) :=
    (h.but x).put ((liveId_of_none hx).trans rfl).symm
  obtain ⟨s', threw, w', d, htransfer, hbut, hy', htag, hx', -, hd⟩ := transfer_spec htr h₀ hne
    (put_self ..) rfl ((put_of_ne s _ hne).trans hy)
  refine ⟨if threw then s'.put x none else s', by simp [constructFrom, hy, htransfer], ?_⟩
  cases threw with
  | true =>
    obtain rfl : d = .raw := hd
    have hid : liveId s' x = none := by rw [liveId_of_var hx']; rfl
    refine (hbut.put (u := none) hid.symm).intact fun v hv => ?_
    rw [put_self] at hv
    cases hv
  | false =>
    refine hbut.intact fun v hv => ?_
    obtain rfl := Option.some.inj (hx'.symm.trans hv)
    exact hd

/-- The object in a variant owns other variants only if it is no scalar. -/
def Inside (E : Alternatives Ty Val) (s : State Ty Val) (x : ℕ) (zs : List ℕ) : Prop :=
  (∀ z ∈ zs, (s.var z).isSome) ∧ (zs ≠ [] → ∃ T ∈ typeOf s x, E.scalar T = false)

/-- Neither the target nor the source, nor what its object is copied from, ends with the
object that the target held; and no copy is made from the target while it is destroyed. -/
def Apart (E : Alternatives Ty Val) (s : State Ty Val) (x y : ℕ) (inner : Inner) : Prop :=
  x ∉ inner.ends ∧ y ∉ inner.ends ∧
    ∀ z ∈ inner.reads, z ∉ inner.ends ∧ (z = x → ∀ T ∈ typeOf s x, E.scalar T = true)

/-- What matches its tag can be read. -/
theorem readable_of_matches {z : ℕ} (hz : s.var z = some w) (hm : Matches types w) :
    readable E s z = true := by
  rcases w with ⟨_ | T, d⟩
  · simp [readable, hz]
  · obtain ⟨-, o, rfl, rfl⟩ := hm
    simp [readable, hz, readAs]

/-- After its object is destroyed a variant can be read if it is void or held a scalar. -/
theorem readable_ended (hx : s.var x = some (ended v)) (hm : Matches types v) :
    readable E s x = true ↔ ∀ T ∈ v.typeIndex, E.scalar T = true := by
  rcases v with ⟨_ | T, d⟩
  · have htag : (ended ⟨none, d⟩).typeIndex = none := rfl
    simp [readable, hx, htag]
  · obtain ⟨-, o, rfl, rfl⟩ := hm
    simp [readable, hx, readAs, ended]

/-- What the object of the source is copied from can be read when the target is destroyed. -/
theorem all_readable {inner : Inner} (h : Intact types s) (hx : s.var x = some v)
    (hnodup : inner.ends.Nodup) (hends : Inside E s x inner.ends) (hreads : Inside E s y inner.reads)
    (hapart : Apart E s x y inner) (t : State Ty Val)
    (ht : destroyWith types inner.ends x s = some t) : inner.reads.all (readable E t) = true := by
  obtain ⟨hxe, -, hread⟩ := hapart
  obtain ⟨t', ht', -, hxd, hvar⟩ := destroyWith_spec h hx hnodup hends.1 hxe
  obtain rfl := Option.some.inj (ht.symm.trans ht')
  rw [List.all_eq_true]
  intro z hz
  obtain ⟨hze, hzx⟩ := hread z hz
  by_cases hzx' : z = x
  · subst hzx'
    have htag : typeOf s z = v.typeIndex := by simp [typeOf, hx]
    exact (readable_ended hxd (h.matched z v hx)).mpr (htag ▸ hzx rfl)
  · obtain ⟨u, hu⟩ := Option.isSome_iff_exists.mp (hreads.1 z hz)
    exact readable_of_matches (by rw [hvar z hzx', if_neg hze, hu]) (h.matched z u hu)

/-- An assignment between two variants, which keeps everything in order if the
constructor does not throw or there was nothing to destroy. -/
theorem assignFrom_spec {inner : Inner} (htr : Transfers E types throws transfer)
    (h : Intact types s) (hx : s.var x = some v) (hy : s.var y = some w) (hne : y ≠ x)
    (hnodup : inner.ends.Nodup) (hends : Inside E s x inner.ends) (hreads : Inside E s y inner.reads)
    (hapart : Apart E s x y inner) :
    ∃ t, assignFrom E transfer types x y inner s = some t ∧
      (Intact types t ↔ (Throws E throws w → v.typeIndex = none)) := by
  obtain ⟨s₁, hdestroy, hbut, hxd, hvar⟩ := destroyWith_spec h hx hnodup hends.1 hapart.1
  have hyd : s₁.var y = some w := by rw [hvar y hne, if_neg hapart.2.1, hy]
  have hall := all_readable h hx hnodup hends hreads hapart s₁ hdestroy
  obtain ⟨s', threw, w', d, htransfer, hbut', hy', htag, hx', hthrew, hd⟩ :=
    transfer_spec htr hbut hne hxd (held_ended v) hyd
  cases threw with
  | true =>
    obtain rfl : d = .raw := hd
    refine ⟨s', ?_, fun hi _ => ?_, fun hv => ?_⟩
    · simp only [assignFrom, hdestroy, hyd, if_pos hall, htransfer, Option.bind_eq_bind,
        Option.bind_some, if_true]
      rfl
    · -- the tag names what was destroyed
      have hm := hi.matched x _ hx'
      rcases v with ⟨_ | T, d⟩
      · rfl
      · obtain ⟨-, o, ho, -⟩ := hm
        cases ho
    · refine hbut'.intact fun u hu => ?_
      obtain rfl := Option.some.inj (hx'.symm.trans hu)
      have htag : (ended v).typeIndex = none := hv (hthrew.mp rfl)
      simp only [Matches, htag]
      rfl
  | false =>
    have hnot : ¬Throws E throws w := fun ht => Bool.noConfusion (hthrew.mpr ht)
    refine ⟨s'.setTypeIndex x w.typeIndex, ?_, fun _ ht => absurd ht hnot, fun _ => ?_⟩
    · simp only [assignFrom, hdestroy, hyd, if_pos hall, htransfer, hy', htag, Option.bind_eq_bind,
        Option.bind_some, Bool.false_eq_true, if_false]
      rfl
    rw [setTypeIndex_eq hx']
    refine (hbut'.put ?_).intact fun u hu => ?_
    · rw [liveId_of_var hx']
      rfl
    · rw [put_self] at hu
      obtain rfl := Option.some.inj hu
      exact hd

/-- An assignment that is not apart from what it ends reads or destroys what is gone. -/
theorem assignFrom_fails {inner : Inner} (h : Intact types s) (hx : s.var x = some v)
    (hy : s.var y = some w) (hne : y ≠ x) (hnodup : inner.ends.Nodup)
    (hends : Inside E s x inner.ends) (hapart : ¬Apart E s x y inner) :
    assignFrom E transfer types x y inner s = none := by
  have htag : typeOf s x = v.typeIndex := by simp [typeOf, hx]
  by_cases hxe : x ∈ inner.ends
  · obtain ⟨T, hT, -⟩ := hends.2 (List.ne_nil_of_mem hxe)
    have hfails := destroyWith_fails h hx (htag.symm.trans hT) hnodup hends.1 hxe
    simp [assignFrom, hfails]
  · obtain ⟨s₁, hdestroy, -, hxd, hvar⟩ := destroyWith_spec h hx hnodup hends.1 hxe
    by_cases hye : y ∈ inner.ends
    · have hyd : s₁.var y = none := by rw [hvar y hne, if_pos hye]
      simp [assignFrom, hdestroy, hyd]
    · have hall : ¬inner.reads.all (readable E s₁) = true := by
        rw [List.all_eq_true]
        refine fun hall => hapart ⟨hxe, hye, fun z hz => ⟨fun hze => ?_, fun hzx => ?_⟩⟩
        · have hgone : s₁.var z = none := by
            rw [hvar z (ne_of_mem_of_not_mem hze hxe), if_pos hze]
          have hread := hall z hz
          simp [readable, hgone] at hread
        · subst hzx
          exact htag ▸ (readable_ended hxd (h.matched z v hx)).mp (hall z hz)
      have hyd : s₁.var y = some w := by rw [hvar y hne, if_neg hye, hy]
      simp only [assignFrom, hdestroy, hyd, if_neg hall, Option.bind_eq_bind, Option.bind_some,
        Option.bind_none]

/-- The type and the value in a variant. -/
def valueOf (s : State Ty Val) (x : ℕ) : Option (Ty × Val) :=
  ((s.var x).bind held).map fun o => (o.type, o.value)

/-- A void variant or one with a scalar survives an assignment to itself. -/
theorem assignSelf_spec (htr : Transfers E types throws transfer) (h : Intact types s)
    (hx : s.var x = some v) (hs : ∀ T, v.typeIndex = some T → E.scalar T = true) :
    ∃ t, assignFrom E transfer types x x .none s = some t ∧ Intact types t ∧
      valueOf t x = valueOf s x := by
  have hm := h.matched x v hx
  have hdestroy := destroyAs_eq hx hm
  have hbut := (h.but x).afterDestroy hx
  have hxd : (afterDestroy x v s).var x = some (ended v) := put_self ..
  rcases v with ⟨_ | T, d⟩
  · have hvoid : (ended ⟨none, d⟩).typeIndex = none := rfl
    have hset : (afterDestroy x ⟨none, d⟩ s).setTypeIndex x none = afterDestroy x ⟨none, d⟩ s := by
      rw [setTypeIndex_eq hxd]
      exact afterDestroy_put ..
    refine ⟨afterDestroy x ⟨none, d⟩ s, ?_, hbut.intact fun u hu => ?_, ?_⟩
    · simp [assignFrom, destroyWith, Inner.none, hx, hdestroy, hxd, hvoid, htr.void, hset]
    · obtain rfl := Option.some.inj (hxd.symm.trans hu)
      exact held_ended _
    · have hnone : held ⟨none, d⟩ = none := hm
      simp [valueOf, hxd, hx, hnone]
  · obtain ⟨hT, o, rfl, rfl⟩ := hm
    have hsc := hs o.type rfl
    obtain ⟨f, g, hf, heq⟩ := htr.typed o.type hT
    have hread : readAs E o.type (ended ⟨some o.type, .live o⟩).data = some o.value := by
      simp [readAs, ended, hsc]
    have hset := setData_eq hxd ((ended ⟨some o.type, .live o⟩).data.withValue (g o.value))
    have htransfer := heq x x _ _ hxd
    rw [hread, Option.map_some, hset] at htransfer
    have h₁ := hbut.put (u := some { ended ⟨some o.type, .live o⟩ with
      data := (ended ⟨some o.type, .live o⟩).data.withValue (g o.value) }) (by
        rw [liveId_of_var hxd]
        rfl)
    obtain ⟨s', threw, d, hplace, hbut', -, hx', hthrew, hd⟩ :=
      placeNew_spec E throws o.type (f o.value) h₁ (put_self ..) rfl
    obtain rfl : threw = false := by simp [hthrew, hsc]
    rw [hplace] at htransfer
    have hmatch : Matches types ⟨some o.type, d⟩ := ⟨hT, _, hd, rfl⟩
    have htag : (ended ⟨some o.type, .live o⟩).typeIndex = some o.type := rfl
    refine ⟨s'.setTypeIndex x (some o.type), ?_, ?_, ?_⟩
    · simp [assignFrom, destroyWith, Inner.none, hx, hdestroy, hxd, htag, htransfer, hx']
    · rw [setTypeIndex_eq hx']
      refine (hbut'.put ?_).intact fun u hu => ?_
      · rw [liveId_of_var hx']
        rfl
      · rw [put_self] at hu
        obtain rfl := Option.some.inj hu
        exact hmatch
    · have hd' : d = .live ⟨_, o.type, f o.value⟩ := hd
      rw [setTypeIndex_eq hx']
      simp [valueOf, hx, held, hd', hf hsc]

/-- Any other variant reads the object that it destroyed. -/
theorem assignSelf_fails {T : Ty} {inner : Inner} (htr : Transfers E types throws transfer)
    (h : Intact types s) (hx : s.var x = some v) (hT : v.typeIndex = some T)
    (hs : E.scalar T = false) (hnodup : inner.ends.Nodup) (hends : Inside E s x inner.ends) :
    assignFrom E transfer types x x inner s = none := by
  by_cases hxe : x ∈ inner.ends
  · simp [assignFrom, destroyWith_fails h hx hT hnodup hends.1 hxe]
  · obtain ⟨s₁, hdestroy, -, hxd, -⟩ := destroyWith_spec h hx hnodup hends.1 hxe
    obtain ⟨hT', o, ho, hoT⟩ : T ∈ types ∧ ∃ o, v.data = .live o ∧ o.type = T := by
      simpa only [Matches, hT] using h.matched x v hx
    obtain ⟨f, g, -, heq⟩ := htr.typed T hT'
    have hread : readAs E T (ended v).data = none := by simp [readAs, ended, ho, hs]
    have htransfer := heq x x _ _ hxd
    rw [hread, Option.map_none] at htransfer
    have htag : (ended v).typeIndex = some T := hT
    simp [assignFrom, hdestroy, hxd, htag, htransfer]

end Members

section Runs

/-- Before the first operation. -/
theorem intact_empty {types : List Ty} : Intact types (State.empty : State Ty Val) :=
  ⟨fun _ _ hv => (nomatch hv), accounted_empty⟩

variable [DecidableEq Ty]

/-- Variants are constructed once, from what their types allow, and used while they live;
what ends with an object, and what one is made from, are variants that live. -/
def Ready (E : Alternatives Ty Val) (types : List Ty) (s : State Ty Val) : Op Ty Val → Prop
  | .default x => (s.var x).isNone
  | .value x T _ _ => (s.var x).isNone ∧ T ∈ types
  | .copy x y _ | .move x y _ => (s.var x).isNone ∧ (s.var y).isSome
  | .assignCopy x y _ inner | .assignMove x y _ inner =>
    ((s.var x).isSome ∧ (s.var y).isSome) ∧
      inner.ends.Nodup ∧ Inside E s x inner.ends ∧ Inside E s y inner.reads
  | .destroy x ends => (s.var x).isSome ∧ ends.Nodup ∧ Inside E s x ends

instance {E : Alternatives Ty Val} {s : State Ty Val} {x : ℕ} {zs : List ℕ} :
    Decidable (Inside E s x zs) := inferInstanceAs (Decidable (_ ∧ _))

instance {E : Alternatives Ty Val} {s : State Ty Val} {x y : ℕ} {inner : Inner} :
    Decidable (Apart E s x y inner) := inferInstanceAs (Decidable (_ ∧ _))

instance {E : Alternatives Ty Val} {types : List Ty} {s : State Ty Val} :
    DecidablePred (Ready E types s)
  | .default x => inferInstanceAs (Decidable (s.var x).isNone)
  | .value x T _ _ => inferInstanceAs (Decidable ((s.var x).isNone ∧ T ∈ types))
  | .copy x y _ | .move x y _ => inferInstanceAs (Decidable ((s.var x).isNone ∧ (s.var y).isSome))
  | .assignCopy x y _ inner | .assignMove x y _ inner =>
    inferInstanceAs (Decidable (((s.var x).isSome ∧ (s.var y).isSome) ∧
      inner.ends.Nodup ∧ Inside E s x inner.ends ∧ Inside E s y inner.reads))
  | .destroy x ends =>
    inferInstanceAs (Decidable ((s.var x).isSome ∧ ends.Nodup ∧ Inside E s x ends))

/-- The operation assigns a variant to itself. -/
def SelfAssigns (x : ℕ) : Op Ty Val → Prop
  | .assignCopy y z _ _ => y = x ∧ z = x
  | .assignMove y z _ _ => y = x ∧ z = x
  | _ => False

/-- The operation reads and destroys live objects only, storages match their tags after
it and all objects are accounted for, it leaves the value of what it assigns to itself,
and every variant can be destroyed after it, whether it threw or not. -/
def Sound (E : Alternatives Ty Val) (types : List Ty) (s : State Ty Val) (op : Op Ty Val) :
    Prop :=
  ∃ t, step E types s op = some t ∧ Intact types t ∧
    (∀ x, SelfAssigns x op → valueOf t x = valueOf s x) ∧
    ∀ x ends, Ready E types t (.destroy x ends) → x ∉ ends →
      (step E types t (.destroy x ends)).isSome

/-- A variant that is assigned to itself is void or holds a scalar; one that is assigned
another whose constructor throws is void; and what an assignment reads does not end with
the object that it destroys. -/
def SafeAssign (E : Alternatives Ty Val) (throws : Bool) (s : State Ty Val) (x y : ℕ)
    (inner : Inner) : Prop :=
  (x = y → ∀ T ∈ typeOf s x, E.scalar T = true) ∧
    (x ≠ y → throws = true → (∃ T ∈ typeOf s y, E.scalar T = false) → typeOf s x = none) ∧
    Apart E s x y inner

/-- The operations that leave everything in order: assignments like these, and the
destruction of a variant that its own object does not own. -/
def Safe (E : Alternatives Ty Val) (s : State Ty Val) : Op Ty Val → Prop
  | .assignCopy x y throws inner => SafeAssign E throws s x y inner
  | .assignMove x y throws inner => SafeAssign E throws s x y inner
  | .destroy x ends => x ∉ ends
  | _ => True

variable {types : List Ty} {E : Alternatives Ty Val} {s : State Ty Val} {op : Op Ty Val}
variable {x y : ℕ} {v : Var Ty Val} {throws : Bool} {transfer : Transfer Ty Val}

instance {inner : Inner} : Decidable (SafeAssign E throws s x y inner) :=
  inferInstanceAs (Decidable (_ ∧ _))

instance : DecidablePred (Safe E s)
  | .assignCopy x y throws inner | .assignMove x y throws inner =>
    inferInstanceAs (Decidable (SafeAssign E throws s x y inner))
  | .destroy x ends => inferInstanceAs (Decidable (x ∉ ends))
  | .default _ | .value .. | .copy .. | .move .. => inferInstanceAs (Decidable True)

omit [DecidableEq Ty] in
/-- A void variant or a scalar owns no variants. -/
theorem Inside.eq_nil {zs : List ℕ} (h : Inside E s x zs)
    (hs : ∀ T ∈ typeOf s x, E.scalar T = true) : zs = [] := by
  by_contra hne
  obtain ⟨T, hT, hsc⟩ := h.2 hne
  rw [hs T hT] at hsc
  cases hsc

/-- A variant that its own object does not own can be destroyed. -/
theorem destroy_intact {ends : List ℕ} (h : Intact types s) (hx : s.var x = some v)
    (hnodup : ends.Nodup) (hsome : ∀ z ∈ ends, (s.var z).isSome) (hxe : x ∉ ends) :
    ∃ t, step E types s (.destroy x ends) = some t ∧ Intact types t := by
  obtain ⟨s₁, hdestroy, hbut, hxd, -⟩ := destroyWith_spec h hx hnodup hsome hxe
  have hid : liveId s₁ x = none := by rw [liveId_of_var hxd, held_ended, Option.map_none]
  refine ⟨s₁.put x none, by simp [step, hdestroy], ?_⟩
  refine (hbut.put (u := none) hid.symm).intact fun u hu => ?_
  rw [put_self] at hu
  cases hu

/-- A step that leaves everything in order is sound if it keeps what it assigns to itself. -/
theorem sound_of_intact {t : State Ty Val} (ht : step E types s op = some t) (hi : Intact types t)
    (hself : ∀ x, SelfAssigns x op → valueOf t x = valueOf s x) : Sound E types s op := by
  refine ⟨t, ht, hi, hself, fun x ends ⟨hx, hnodup, hends⟩ hxe => ?_⟩
  obtain ⟨v, hv⟩ := Option.isSome_iff_exists.mp hx
  obtain ⟨u, hu, -⟩ := destroy_intact (E := E) hi hv hnodup hends.1 hxe
  rw [hu]
  rfl

/-- Assignments are sound exactly when they are safe. -/
theorem sound_assign_iff {inner : Inner} (htr : Transfers E types throws transfer)
    (h : Intact types s) (hop : step E types s op = assignFrom E transfer types x y inner s)
    (hself : ∀ z, SelfAssigns z op → x = z ∧ y = z)
    (hr : ((s.var x).isSome ∧ (s.var y).isSome) ∧
      inner.ends.Nodup ∧ Inside E s x inner.ends ∧ Inside E s y inner.reads) :
    Sound E types s op ↔ SafeAssign E throws s x y inner := by
  obtain ⟨⟨hx, hy⟩, hnodup, hends, hreads⟩ := hr
  obtain ⟨v, hv⟩ := Option.isSome_iff_exists.mp hx
  obtain ⟨w, hw⟩ := Option.isSome_iff_exists.mp hy
  have htx : typeOf s x = v.typeIndex := by simp [typeOf, hv]
  have hty : typeOf s y = w.typeIndex := by simp [typeOf, hw]
  by_cases hxy : x = y
  · subst hxy
    constructor
    · rintro ⟨t, ht, -⟩
      have hscalar : ∀ T ∈ typeOf s x, E.scalar T = true := by
        intro T hT
        by_contra hsc
        rw [hop, assignSelf_fails htr h hv (htx ▸ hT) (Bool.eq_false_iff.mpr hsc) hnodup hends]
          at ht
        cases ht
      refine ⟨fun _ => hscalar, fun hne => absurd rfl hne, ?_⟩
      rw [Apart, hends.eq_nil hscalar, hreads.eq_nil hscalar]
      simp
    · rintro ⟨hs, -⟩
      obtain ⟨ends, reads⟩ := inner
      obtain rfl : ends = [] := hends.eq_nil (hs rfl)
      obtain rfl : reads = [] := hreads.eq_nil (hs rfl)
      obtain ⟨t, ht, hi, hval⟩ := assignSelf_spec htr h hv fun T hT => hs rfl T (htx ▸ hT)
      exact sound_of_intact (hop.trans ht) hi fun z hz => (hself z hz).1 ▸ hval
  · by_cases hapart : Apart E s x y inner
    · obtain ⟨t, ht, hiff⟩ :=
        assignFrom_spec htr h hv hw (Ne.symm hxy) hnodup hends hreads hapart
      rw [SafeAssign, htx, hty]
      constructor
      · rintro ⟨t', ht', hi, -⟩
        obtain rfl := Option.some.inj ((hop.trans ht).symm.trans ht')
        exact ⟨fun he => absurd he hxy, fun _ hthrows hT => hiff.mp hi ⟨hthrows, hT⟩, hapart⟩
      · rintro ⟨-, hsafe, -⟩
        refine sound_of_intact (hop.trans ht)
          (hiff.mpr fun hthrows => hsafe hxy hthrows.1 hthrows.2) fun z hz => ?_
        obtain ⟨hxz, hyz⟩ := hself z hz
        exact absurd (hxz.trans hyz.symm) hxy
    · refine iff_of_false ?_ fun hs => hapart hs.2.2
      rintro ⟨t, ht, -⟩
      rw [hop, assignFrom_fails h hv hw (Ne.symm hxy) hnodup hends hapart] at ht
      cases ht

/-- Constructors always leave everything in order. -/
theorem sound_construct (htr : Transfers E types throws transfer) (h : Intact types s)
    (hop : step E types s op = constructFrom transfer types x y s)
    (hself : ∀ z, ¬SelfAssigns z op) (hx : (s.var x).isNone) (hy : (s.var y).isSome) :
    Sound E types s op := by
  obtain ⟨w, hw⟩ := Option.isSome_iff_exists.mp hy
  obtain ⟨t, ht, hi⟩ := constructFrom_intact htr h (Option.isNone_iff_eq_none.mp hx) hw
  exact sound_of_intact (hop.trans ht) hi fun z hz => absurd hz (hself z)

/-- A value can be put into a new variant. -/
theorem sound_value {T : Ty} {z : Val} (h : Intact types s) (hx : s.var x = none) (hT : T ∈ types) :
    Sound E types s (.value x T z throws) := by
  have h₀ : IntactBut types x (s.put x (some ⟨some T, .raw⟩)) :=
    (h.but x).put ((liveId_of_none hx).trans rfl).symm
  obtain ⟨s', threw, d, hplace, hbut, -, hx', -, hd⟩ :=
    placeNew_spec E throws T z h₀ (put_self ..) rfl
  refine sound_of_intact (t := if threw then s'.put x none else s') (by simp [step, hplace]) ?_
    fun _ hz => hz.elim
  cases threw with
  | true =>
    obtain rfl : d = .raw := hd
    have hid : liveId s' x = none := by rw [liveId_of_var hx']; rfl
    refine (hbut.put (u := none) hid.symm).intact fun v hv => ?_
    rw [put_self] at hv
    cases hv
  | false =>
    have hd' : d = .live ⟨_, T, z⟩ := hd
    refine hbut.intact fun v hv => ?_
    obtain rfl := Option.some.inj (hx'.symm.trans hv)
    exact ⟨hT, _, hd', rfl⟩

/-- In a state in order, an operation is sound exactly when it is safe. -/
theorem sound_iff (h : Intact types s) (hr : Ready E types s op) :
    Sound E types s op ↔ Safe E s op := by
  cases op with
  | default x =>
    have hx := liveId_of_none (Option.isNone_iff_eq_none.mp hr)
    have hi : Intact types (s.put x (some ⟨none, .raw⟩)) := h.put_none hx fun v hv => by
      obtain rfl := Option.some.inj hv
      exact ⟨rfl, rfl⟩
    exact iff_of_true (sound_of_intact rfl hi fun _ hz => hz.elim) trivial
  | value x T z throws =>
    exact iff_of_true (sound_value h (Option.isNone_iff_eq_none.mp hr.1) hr.2) trivial
  | copy x y throws =>
    exact iff_of_true (sound_construct copy_transfers h rfl (fun _ hz => hz) hr.1 hr.2) trivial
  | move x y throws =>
    exact iff_of_true (sound_construct move_transfers h rfl (fun _ hz => hz) hr.1 hr.2) trivial
  | assignCopy x y throws inner => exact sound_assign_iff copy_transfers h rfl (fun _ hz => hz) hr
  | assignMove x y throws inner => exact sound_assign_iff move_transfers h rfl (fun _ hz => hz) hr
  | destroy x ends =>
    obtain ⟨hx, hnodup, hends⟩ := hr
    obtain ⟨v, hv⟩ := Option.isSome_iff_exists.mp hx
    constructor
    · rintro ⟨t, ht, -⟩ hxe
      obtain ⟨T, hT, -⟩ := hends.2 (List.ne_nil_of_mem hxe)
      have htag : typeOf s x = v.typeIndex := by simp [typeOf, hv]
      have hfails := destroyWith_fails h hv (htag.symm.trans hT) hnodup hends.1 hxe
      simp [step, hfails] at ht
    · intro hxe
      obtain ⟨t, ht, hi⟩ := destroy_intact (E := E) h hv hnodup hends.1 hxe
      exact sound_of_intact ht hi fun _ hz => hz.elim

/-- In every run of special members the storages match their tags, all objects are
destroyed once and self-assignments keep the value, exactly when each assignment of a
variant to itself finds it void or with a scalar, each one that throws finds its target
void, and no variant that an operation still uses ends with the object it destroys. -/
theorem sound_along_iff (E : Alternatives Ty Val) {types : List Ty} {ops : List (Op Ty Val)}
    (hr : Along (Ready E types) (step E types) State.empty ops) :
    Along (Sound E types) (step E types) State.empty ops ↔
      Along (Safe E) (step E types) State.empty ops := by
  refine along_iff_of_step (I := Intact types) (fun s op hi hready => ?_) intact_empty hr
  refine ⟨sound_iff hi hready, ?_⟩
  rintro ⟨t, ht, hit, -⟩ u hu
  obtain rfl := Option.some.inj (ht.symm.trans hu)
  exact hit

end Runs

/-- A type without and one with a destructor. -/
inductive Kind where
  /-- `int`. -/
  | int
  /-- `std::string`. -/
  | string
  deriving DecidableEq, Repr

/-- A variant of an `int` and a `std::string`; a text that was moved from is empty. -/
def intOrString : Alternatives Kind ℕ where
  scalar T := T = .int
  copied _ z := z
  taken _ z := z
  left threw T z := if threw ∨ T = .int then z else 0
  copied_scalar _ _ _ := rfl
  taken_scalar _ _ _ := rfl

/-- Texts are copied, an `int` is assigned to itself and moved over a text, and a text that
owns a variant is overwritten. -/
def shared : List (Op Kind ℕ) :=
  [.value 0 .string 7 false, .copy 1 0 false, .assignCopy 0 1 false .none, .value 2 .int 3 false,
    .assignCopy 2 2 false .none, .copy 3 0 false, .assignMove 1 2 true ⟨[3], []⟩,
    .destroy 0 []]

/-- The run keeps to the rules, and a variant ends with the object that owns it. -/
theorem sound_along_shared :
    Along (Sound intOrString [.int, .string]) (step intOrString [.int, .string]) State.empty
      shared := by
  refine (sound_along_iff intOrString ?_).mpr (by decide)
  decide

/-- A text is assigned to itself, or over another one when copying it throws, or from a
variant that the text before it owned. -/
theorem not_sound_self :
    (¬Along (Sound intOrString [.int, .string]) (step intOrString [.int, .string]) State.empty
      [.value 0 .string 7 false, .assignCopy 0 0 false .none]) ∧
    (¬Along (Sound intOrString [.int, .string]) (step intOrString [.int, .string]) State.empty
      [.value 0 .string 7 false, .copy 1 0 false, .assignCopy 0 1 true .none]) ∧
    ¬Along (Sound intOrString [.int, .string]) (step intOrString [.int, .string]) State.empty
      [.value 0 .string 7 false, .copy 1 0 false, .assignCopy 0 1 false ⟨[1], []⟩] := by
  refine ⟨?_, ?_, ?_⟩
  · rintro ⟨-, h⟩
    obtain ⟨⟨t, ht, -⟩, -⟩ := h _ rfl
    cases ht
  · rintro ⟨-, h⟩
    obtain ⟨-, h⟩ := h _ rfl
    obtain ⟨⟨t, ht, hi, -⟩, -⟩ := h _ rfl
    obtain rfl := Option.some.inj ht
    obtain ⟨-, o, ho, -⟩ := hi.matched 0 _ rfl
    cases ho
  · rintro ⟨-, h⟩
    obtain ⟨-, h⟩ := h _ rfl
    obtain ⟨⟨t, ht, -⟩, -⟩ := h _ rfl
    cases ht

end KernelLib.VariantStorage
