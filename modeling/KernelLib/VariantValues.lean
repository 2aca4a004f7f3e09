import KernelLib.AnsweredRuns
import KernelLib.VariantStorage
import Mathlib.Data.Int.Notation

/-!
# A variant is a sum

What the members of `Variant` read, over any history of its special members
that assigns no object to itself, throws over none and uses none that ends
with the object of the target, is what a plain sum would give: at most one
alternative, whose type `Is`, `Empty` and `Type` tell, whose value `Get` and
`To` return and `Visit` passes to the first function for its type. The members
read raw storage, so reading an object that is gone or of another type has no
result here.
-/

namespace KernelLib.VariantValues

open AnsweredRuns VariantModel VariantStorage

variable {Ty Val F : Type}

section Members

variable [DecidableEq Ty]

/-- `Is`. -/
def Is (T : Ty) (v : Var Ty Val) : Bool := v.typeIndex = some T

/-- `Get`; no value means that `std::bad_cast` was thrown. -/
def Get (E : Alternatives Ty Val) (T : Ty) (v : Var Ty Val) : Option (Option Val) :=
  if Is T v then (readAs E T v.data).map some else some none

/-- `To` with its default, and what it writes to `ok`. -/
def To (E : Alternatives Ty Val) (T : Ty) (dflt : Val) (v : Var Ty Val) : Option (Val × Bool) :=
  if Is T v then (readAs E T v.data).map fun z => (z, true) else some (dflt, false)

/-- `Visit` with one function for a type. -/
def VisitOne (E : Alternatives Ty Val) (v : Var Ty Val) (f : Ty × F) : Option (Option (F × Val)) :=
  if Is f.1 v then (Get E f.1 v).map fun z => z.map fun z => (f.2, z) else some none

/-- `Visit`: the function that it calls, and on what. -/
def Visit (E : Alternatives Ty Val) (v : Var Ty Val) : List (Ty × F) → Option (Option (F × Val))
  -- there is no overload without functions
  | [] => some none
  | [f] => VisitOne E v f
  | f :: rest => if Is f.1 v then VisitOne E v f else Visit E v rest

/-- `GetLeftSize`: how many types come after the first such type. -/
def GetLeftSize (T : Ty) : List Ty → ℤ
  | [] => -1
  | U :: rest => if T = U then rest.length else GetLeftSize T rest

/-- `Index`, which `GetIndexOf` returns. -/
def Index (T : Ty) (types : List Ty) : ℤ := types.length - GetLeftSize T types - 1

end Members

/-- A use of variants. -/
inductive Call (Ty Val F : Type) where
  /-- A special member. -/
  | perform (op : Op Ty Val)
  /-- `Is`. -/
  | is (x : ℕ) (T : Ty)
  /-- `Empty`. -/
  | empty (x : ℕ)
  /-- `Type`. -/
  | type (x : ℕ)
  /-- `Get`. -/
  | get (x : ℕ) (T : Ty)
  /-- `To`. -/
  | To (x : ℕ) (T : Ty) (dflt : Val)
  /-- `GetIndexOf`. -/
  | getIndexOf (x : ℕ) (T : Ty)
  /-- `Visit` with functions for these types. -/
  | visit (x : ℕ) (fs : List (Ty × F))
  /-- `operator==`. -/
  | equal (x y : ℕ)
  /-- `operator<`. -/
  | less (x y : ℕ)

/-- What it returns. -/
inductive Ret (Ty Val F : Type) where
  /-- Nothing. -/
  | done
  /-- A `bool`. -/
  | bool (b : Bool)
  /-- A type index, none for `typeid(void)`. -/
  | type (id : Option Ty)
  /-- A value, or `std::bad_cast`. -/
  | got (z : Option Val)
  /-- A value and whether it is the alternative's. -/
  | read (z : Val) (ok : Bool)
  /-- An index. -/
  | index (i : ℤ)
  /-- The function called, and its argument. -/
  | visited (f : Option (F × Val))
  deriving DecidableEq

section Uses

variable [DecidableEq Ty]

/-- Use a variant. Type indices are ordered as the implementation likes. -/
def use (E : Alternatives Ty Val) (types : List Ty) (before : Option Ty → Option Ty → Bool)
    (s : State Ty Val) : Call Ty Val F → Option (State Ty Val × Ret Ty Val F)
  | .perform op => (step E types s op).map fun t => (t, .done)
  | .is x T => (s.var x).map fun v => (s, .bool (Is T v))
  | .empty x => (s.var x).map fun v => (s, .bool (v.typeIndex = none))
  | .type x => (s.var x).map fun v => (s, .type v.typeIndex)
  | .get x T => ((s.var x).bind (Get E T)).map fun z => (s, .got z)
  | .To x T dflt => ((s.var x).bind (To E T dflt)).map fun z => (s, .read z.1 z.2)
  | .getIndexOf x T => (s.var x).map fun _ => (s, .index (Index T types))
  | .visit x fs => ((s.var x).bind fun v => Visit E v fs).map fun f => (s, .visited f)
  | .equal x y => do
    let v ← s.var x
    let rhs ← s.var y
    return (s, .bool (v.typeIndex = rhs.typeIndex))
  | .less x y => do
    let v ← s.var x
    let rhs ← s.var y
    return (s, .bool (before v.typeIndex rhs.typeIndex))

end Uses

/-!
## The sum
-/

/-- For each variant that is constructed its alternative, if it has one. -/
abbrev Values (Ty Val : Type) := ℕ → Option (Option (Ty × Val))

/-- The type of the alternative of a variant. -/
def Values.tag (m : Values Ty Val) (x : ℕ) : Option Ty := (m x).join.map Prod.fst

/-- A constructor of this alternative throws. -/
def raises (E : Alternatives Ty Val) (throws : Bool) (c : Option (Ty × Val)) : Bool :=
  c.any fun a => throws && !E.scalar a.1

/-- What becomes of an alternative. -/
def become (f : Ty → Val → Val) (c : Option (Ty × Val)) : Option (Ty × Val) :=
  c.map fun a => (a.1, f a.1 a.2)

/-- One variant is given what arrives of another's alternative, and the other keeps what stays. -/
def Values.transfer (E : Alternatives Ty Val) (throws : Bool) (arrives stays : Ty → Val → Val)
    (x y : ℕ) (m : Values Ty Val) : Values Ty Val :=
  let kept := Function.update m y (some (become stays (m y).join))
  if raises E throws (m y).join then kept
  else Function.update kept x (some (become arrives (m y).join))

/-- What a move leaves. -/
def moved (E : Alternatives Ty Val) (throws : Bool) (T : Ty) : Val → Val :=
  E.left (throws && !E.scalar T) T

/-- The variants that end with an object. -/
def Values.drop (ends : List ℕ) (m : Values Ty Val) : Values Ty Val :=
  fun z => if z ∈ ends then none else m z

/-- A special member on sums. -/
def Values.perform (E : Alternatives Ty Val) (m : Values Ty Val) : Op Ty Val → Values Ty Val
  | .default x => Function.update m x (some none)
  | .value x T z throws =>
    if raises E throws (some (T, z)) then m else Function.update m x (some (some (T, z)))
  | .copy x y throws => m.transfer E throws E.copied (fun _ => id) x y
  | .move x y throws => m.transfer E throws E.taken (moved E throws) x y
  | .assignCopy x y throws inner =>
    if x = y then m else (m.drop inner.ends).transfer E throws E.copied (fun _ => id) x y
  | .assignMove x y throws inner =>
    if x = y then m else (m.drop inner.ends).transfer E throws E.taken (moved E throws) x y
  | .destroy x ends => Function.update (m.drop ends) x none

section Sums

variable [DecidableEq Ty]

/-- The value of an alternative of this type. -/
def valueAs (T : Ty) (c : Option (Ty × Val)) : Option Val :=
  c.bind fun a => if a.1 = T then some a.2 else none

/-- What a sum answers. -/
def Values.answer (types : List Ty) (before : Option Ty → Option Ty → Bool) (m : Values Ty Val) :
    Call Ty Val F → Ret Ty Val F
  | .perform _ => .done
  | .is x T => .bool (m.tag x = some T)
  | .empty x => .bool (m.tag x = none)
  | .type x => .type (m.tag x)
  | .get x T => .got (valueAs T (m x).join)
  | .To x T dflt => .read ((valueAs T (m x).join).getD dflt) (valueAs T (m x).join).isSome
  | .getIndexOf _ T => .index (types.idxOf T)
  | .visit x fs => .visited (fs.findSome? fun f => (valueAs f.1 (m x).join).map fun z => (f.2, z))
  | .equal x y => .bool (m.tag x = m.tag y)
  | .less x y => .bool (before (m.tag x) (m.tag y))

/-- The sums after a use of one of them. -/
def Values.after (E : Alternatives Ty Val) (m : Values Ty Val) : Call Ty Val F → Values Ty Val
  | .perform op => m.perform E op
  | _ => m

/-- Only an alternative that is no scalar owns variants, each of which lives. -/
def Values.Inside (E : Alternatives Ty Val) (m : Values Ty Val) (x : ℕ) (zs : List ℕ) : Prop :=
  (∀ z ∈ zs, (m z).isSome) ∧ (zs ≠ [] → ∃ T ∈ m.tag x, E.scalar T = false)

/-- A variant that is assigned to itself is void or a scalar; nothing is thrown over an
alternative; and nothing that is still used ends with the alternative of the target. -/
def Values.Spares (E : Alternatives Ty Val) (throws : Bool) (m : Values Ty Val) (x y : ℕ)
    (inner : Inner) : Prop :=
  (if x = y then ∀ T ∈ m.tag x, E.scalar T = true
    else raises E throws (m y).join = true → m.tag x = none) ∧
  x ∉ inner.ends ∧ y ∉ inner.ends ∧
    ∀ z ∈ inner.reads, z ∉ inner.ends ∧ (z = x → ∀ T ∈ m.tag x, E.scalar T = true)

/-- Variants are constructed once, from what their types allow, and used while they live. -/
def Values.Permits (E : Alternatives Ty Val) (types : List Ty) (m : Values Ty Val) :
    Call Ty Val F → Prop
  | .perform (.default x) => m x = none
  | .perform (.value x T _ _) => m x = none ∧ T ∈ types
  | .perform (.copy x y _) | .perform (.move x y _) => m x = none ∧ (m y).isSome
  | .perform (.assignCopy x y throws inner) | .perform (.assignMove x y throws inner) =>
    (((m x).isSome ∧ (m y).isSome) ∧
      inner.ends.Nodup ∧ m.Inside E x inner.ends ∧ m.Inside E y inner.reads) ∧
      m.Spares E throws x y inner
  | .perform (.destroy x ends) =>
    ((m x).isSome ∧ ends.Nodup ∧ m.Inside E x ends) ∧ x ∉ ends
  | .is x _ | .empty x | .type x | .get x _ | .To x _ _ | .getIndexOf x _ | .visit x _ =>
    (m x).isSome
  | .equal x y | .less x y => (m x).isSome ∧ (m y).isSome

instance Values.decidableInside {E : Alternatives Ty Val} {m : Values Ty Val} {x : ℕ}
    {zs : List ℕ} : Decidable (m.Inside E x zs) :=
  inferInstanceAs (Decidable (_ ∧ _))

instance Values.decidableSpares {E : Alternatives Ty Val} {throws : Bool} {m : Values Ty Val}
    {x y : ℕ} {inner : Inner} : Decidable (m.Spares E throws x y inner) :=
  inferInstanceAs (Decidable (ite _ _ _ ∧ _))

instance Values.decidablePermits {E : Alternatives Ty Val} {types : List Ty} {m : Values Ty Val} :
    ∀ c : Call Ty Val F, Decidable (m.Permits E types c)
  | .perform (.default x) => inferInstanceAs (Decidable (m x = none))
  | .perform (.value x T _ _) => inferInstanceAs (Decidable (m x = none ∧ T ∈ types))
  | .perform (.copy x y _) | .perform (.move x y _) =>
    inferInstanceAs (Decidable (m x = none ∧ (m y).isSome))
  | .perform (.assignCopy x y throws inner) | .perform (.assignMove x y throws inner) =>
    inferInstanceAs (Decidable ((((m x).isSome ∧ (m y).isSome) ∧
      inner.ends.Nodup ∧ m.Inside E x inner.ends ∧ m.Inside E y inner.reads) ∧
      m.Spares E throws x y inner))
  | .perform (.destroy x ends) =>
    inferInstanceAs (Decidable (((m x).isSome ∧ ends.Nodup ∧ m.Inside E x ends) ∧ x ∉ ends))
  | .is x _ | .empty x | .type x | .get x _ | .To x _ _ | .getIndexOf x _ | .visit x _ =>
    inferInstanceAs (Decidable (m x).isSome)
  | .equal x y | .less x y => inferInstanceAs (Decidable ((m x).isSome ∧ (m y).isSome))

/-- The model of a run. -/
def sums (E : Alternatives Ty Val) (types : List Ty) (before : Option Ty → Option Ty → Bool) :
    Model (Values Ty Val) (Call Ty Val F) (Ret Ty Val F) :=
  ⟨Values.after E, Values.answer types before, Values.Permits E types⟩

instance sums.decidablePermits {E : Alternatives Ty Val} {types : List Ty}
    {before : Option Ty → Option Ty → Bool} (m : Values Ty Val) (c : Call Ty Val F) :
    Decidable ((sums E types before).Permits m c) :=
  Values.decidablePermits c

end Sums

/-- What a storage shows as a sum. -/
def contents (v : Var Ty Val) : Option (Ty × Val) := (held v).map fun o => (o.type, o.value)

/-- What all of them show. -/
def shown (s : State Ty Val) : Values Ty Val := fun x => (s.var x).map contents

section Reading

variable {types : List Ty} {E : Alternatives Ty Val} {v : Var Ty Val} {T : Ty} {dflt : Val}

/-- A storage with an alternative holds a live object of the type in the tag. -/
theorem Matches.cases (h : Matches types v) :
    (v.typeIndex = none ∧ contents v = none) ∨
      ∃ o, v.typeIndex = some o.type ∧ v.data = .live o ∧ contents v = some (o.type, o.value) ∧
        o.type ∈ types := by
  obtain ⟨_ | T, d⟩ := v
  · have hheld : held ⟨none, d⟩ = none := h
    exact .inl ⟨rfl, by rw [contents, hheld, Option.map_none]⟩
  · obtain ⟨hT, o, rfl, rfl⟩ := h
    exact .inr ⟨o, rfl, rfl, rfl, hT⟩

/-- The tag is the type of what is shown. -/
theorem typeIndex_eq (h : Matches types v) : v.typeIndex = (contents v).map Prod.fst := by
  obtain ⟨hid, hc⟩ | ⟨o, hid, -, hc, -⟩ := Matches.cases h <;> rw [hid, hc] <;> rfl

variable [DecidableEq Ty]

/-- The value is read where the tag names its type, and only there. -/
theorem readAs_if (h : Matches types v) :
    (if Is T v then (readAs E T v.data).map some else some none) =
      some (valueAs T (contents v)) := by
  obtain ⟨hid, hc⟩ | ⟨o, hid, hd, hc, -⟩ := Matches.cases h
  · simp [Is, hid, hc, valueAs]
  · by_cases hT : o.type = T
    · simp [Is, hid, hd, hc, valueAs, readAs, hT]
    · simp [Is, hid, hc, valueAs, hT]

/-- `Get` answers as the sum does. -/
theorem Get_eq (h : Matches types v) : Get E T v = some (valueAs T (contents v)) := readAs_if h

/-- So does `Is`. -/
theorem Is_eq (h : Matches types v) : Is T v = (valueAs T (contents v)).isSome := by
  obtain ⟨hid, hc⟩ | ⟨o, hid, -, hc, -⟩ := Matches.cases h
  · simp [Is, hid, hc, valueAs]
  · by_cases hT : o.type = T <;> simp [Is, hid, hc, valueAs, hT]

/-- So does `To`. -/
theorem To_eq (h : Matches types v) :
    To E T dflt v = some ((valueAs T (contents v)).getD dflt, (valueAs T (contents v)).isSome) := by
  have hread := readAs_if (E := E) (T := T) h
  unfold To
  rw [Is_eq h] at hread ⊢
  cases hv : valueAs T (contents v) with
  | none => simp
  | some z =>
    rw [hv, Option.isSome_some, if_pos rfl] at hread
    obtain ⟨z', hz', he⟩ := Option.map_eq_some_iff.mp hread
    obtain rfl := Option.some.inj he
    simp [hz']

/-- So does `Visit` with one function. -/
theorem VisitOne_eq (h : Matches types v) (f : Ty × F) :
    VisitOne E v f = some ((valueAs f.1 (contents v)).map fun z => (f.2, z)) := by
  rw [VisitOne, Is_eq h, Get_eq h]
  cases valueAs f.1 (contents v) <;> rfl

/-- The first function for the type of the alternative is called. -/
theorem Visit_eq (h : Matches types v) (fs : List (Ty × F)) :
    Visit E v fs =
      some (fs.findSome? fun f => (valueAs f.1 (contents v)).map fun z => (f.2, z)) := by
  induction fs with
  | nil => rfl
  | cons f rest ih =>
    have hone := VisitOne_eq (E := E) h f
    cases rest with
    | nil =>
      rw [Visit, hone, List.findSome?_singleton]
    | cons g rest =>
      have hmore : Visit E v (f :: g :: rest) =
          if Is f.1 v then VisitOne E v f else Visit E v (g :: rest) := by
        rw [Visit]
        exact List.cons_ne_nil g rest
      rw [hmore, ih, hone, Is_eq h]
      generalize g :: rest = others
      rw [List.findSome?_cons]
      cases valueAs f.1 (contents v) <;> rfl

/-- The index is the position of the first such type, or the number of types. -/
theorem Index_eq (T : Ty) (types : List Ty) : Index T types = types.idxOf T := by
  induction types with
  | nil => rfl
  | cons U rest ih =>
    rw [List.idxOf_cons]
    by_cases hT : T = U
    · subst hT
      simp only [Index, GetLeftSize, if_true, List.length_cons, BEq.rfl, cond_true]
      omega
    · have hcond : (U == T) = false := by simpa using Ne.symm hT
      rw [hcond, cond_false, Int.natCast_add, ← ih, Index, Index, GetLeftSize, if_neg hT,
        List.length_cons]
      omega

end Reading

section Shown

variable {types : List Ty} {E : Alternatives Ty Val} {s t : State Ty Val} {x y : ℕ}
variable {v w : Var Ty Val} {throws : Bool}

/-- A variant shows what it holds. -/
theorem shown_of_var (hx : s.var x = some v) : shown s x = some (contents v) := by
  rw [shown, hx, Option.map_some]

/-- A variant that is set shows what it was set to. -/
@[simp] theorem shown_put (s : State Ty Val) (x : ℕ) (v : Option (Var Ty Val)) :
    shown (s.put x v) = Function.update (shown s) x (v.map contents) := by
  funext y
  by_cases hy : y = x
  · subst hy
    simp [shown]
  · simp [shown, put_of_ne s v hy, Function.update_of_ne hy]

/-- A variant that holds nothing shows nothing. -/
theorem contents_of_held (h : held v = none) : contents v = none := by
  rw [contents, h, Option.map_none]

/-- After a destructor nothing is shown. -/
theorem shown_afterDestroy (s : State Ty Val) (x : ℕ) (v : Var Ty Val) :
    shown (afterDestroy x v s) = Function.update (shown s) x (some none) := by
  have hput := shown_put s x (some (ended v))
  rwa [Option.map_some, contents_of_held (held_ended v)] at hput

/-- A new object is shown, unless its constructor throws. -/
theorem placeNew_shown (E : Alternatives Ty Val) (throws : Bool) (hx : s.var x = some v)
    (T : Ty) (z : Val) :
    ∃ s' d, s.placeNew E T z throws x = (s', raises E throws (some (T, z))) ∧
      s'.var x = some ⟨v.typeIndex, d⟩ ∧ (∀ u, u ≠ x → s'.var u = s.var u) ∧
      shown s' = Function.update (shown s) x
        (some (if raises E throws (some (T, z)) then none else some (T, z))) := by
  have hr : raises E throws (some (T, z)) = (throws && !E.scalar T) := rfl
  rw [State.placeNew, hr]
  have hdata := setData_eq hx
  by_cases ht : (throws && !E.scalar T) = true
  · rw [if_pos ht, ht, if_pos rfl, hdata]
    exact ⟨_, .raw, rfl, put_self .., fun u hu => put_of_ne s _ hu, shown_put ..⟩
  · rw [if_neg ht, Bool.eq_false_iff.mpr ht, hdata]
    exact ⟨_, _, rfl, put_self .., fun u hu => put_of_ne s _ hu, shown_put ..⟩

variable [DecidableEq Ty]

/-- What copying and moving do, with what arrives and what stays behind. -/
structure Carries (E : Alternatives Ty Val) (types : List Ty) (throws : Bool)
    (arrives stays : Ty → Val → Val) (transfer : Transfer Ty Val) : Prop where
  void : ∀ y x s, transfer types none y x s = some (s, false)
  typed : ∀ T ∈ types, ∀ y x s w, s.var y = some w →
    transfer types (some T) y x s = (readAs E T w.data).map fun z =>
      (s.setData y (w.data.withValue (stays T z))).placeNew E T (arrives T z) throws x
  scalar : ∀ T z, E.scalar T = true → arrives T z = z

/-- The dispatch finds the type of the tag. -/
theorem copyAs_mem {T : Ty} (hT : T ∈ types) :
    copyAs E throws types (some T) y x s = copyAs E throws [T] (some T) y x s := by
  induction types with
  | nil => simp at hT
  | cons U rest ih =>
    by_cases hU : T = U
    · subst hU
      simp [copyAs]
    · simpa [copyAs, hU] using ih ((List.mem_cons.mp hT).resolve_left hU)

/-- Of the types only the one that is held matters. -/
theorem moveAs_mem {T : Ty} (hT : T ∈ types) :
    moveAs E throws types (some T) y x s = moveAs E throws [T] (some T) y x s := by
  induction types with
  | nil => simp at hT
  | cons U rest ih =>
    by_cases hU : T = U
    · subst hU
      simp [moveAs]
    · simpa [moveAs, hU] using ih ((List.mem_cons.mp hT).resolve_left hU)

/-- A copy carries the value and leaves the source. -/
theorem copy_carries : Carries E types throws E.copied (fun _ => id) (copyAs E throws) where
  void := copy_transfers.void
  typed T hT y x s w hw := by
    rw [copyAs_mem hT]
    simp only [copyAs, if_true, hw, Option.bind_eq_bind, Option.bind_some, id_eq]
    cases hz : readAs E T w.data with
    | none => rfl
    | some z =>
      have hsame : s.setData y (w.data.withValue z) = s := by
        rw [withValue_of_readAs hz, setData_eq hw]
        simp [State.put, ← hw]
      rw [Option.map_some, hsame]
      rfl
  scalar T z hs := E.copied_scalar T z hs

/-- A move carries what was taken and leaves the rest. -/
theorem move_carries : Carries E types throws E.taken (moved E throws) (moveAs E throws) where
  void := move_transfers.void
  typed T hT y x s w hw := by
    rw [moveAs_mem hT]
    simp only [moveAs, if_true, hw, Option.bind_eq_bind, Option.bind_some]
    cases readAs E T w.data <;> rfl
  scalar T z hs := E.taken_scalar T z hs

/-- Copy or move between two variants, into a storage without an object. -/
theorem transfer_shown {transfer : Transfer Ty Val} {arrives stays : Ty → Val → Val}
    (hc : Carries E types throws arrives stays transfer) (hm : Matches types w) (hne : y ≠ x)
    (hx : s.var x = some v) (hv : held v = none) (hy : s.var y = some w) :
    ∃ s' w' d, transfer types w.typeIndex y x s = some (s', raises E throws (contents w)) ∧
      s'.var y = some w' ∧ w'.typeIndex = w.typeIndex ∧ s'.var x = some ⟨v.typeIndex, d⟩ ∧
      shown s' = Function.update (Function.update (shown s) y (some (become stays (contents w)))) x
        (some (if raises E throws (contents w) then none else become arrives (contents w))) := by
  obtain ⟨hid, hcw⟩ | ⟨o, hid, hd, hcw, hT⟩ := Matches.cases hm
  · have hyw := (shown_of_var hy).trans (congrArg some hcw)
    have hxv := (shown_of_var hx).trans (congrArg some (contents_of_held hv))
    refine ⟨s, w, v.data, ?_, hy, rfl, hx, ?_⟩
    · rw [hid, hcw]
      exact hc.void y x s
    · rw [hcw]
      have hsame : ∀ {u}, shown s u = some none →
          Function.update (shown s) u (some none) = shown s := fun hu => by
        rw [← hu, Function.update_eq_self]
      change _ = Function.update (Function.update (shown s) y (some none)) x (some none)
      rw [hsame hyw, hsame hxv]
  · have hread : readAs E o.type w.data = some o.value := by simp [readAs, hd]
    have hleft : w.data.withValue (stays o.type o.value) =
        .live { o with value := stays o.type o.value } := by
      rw [hd]
      rfl
    -- the source keeps its object, with what stays
    obtain ⟨s', d, hplace, hx', hsame, hshown⟩ := placeNew_shown E throws
      ((put_of_ne s (some { w with data := .live { o with value := stays o.type o.value } })
        hne.symm).trans hx) o.type (arrives o.type o.value)
    refine ⟨s', _, d, ?_, (hsame y hne).trans (put_self ..), rfl, hx', ?_⟩
    · rw [hid, hc.typed o.type hT y x s w hy, hread, Option.map_some, hleft, setData_eq hy, hplace,
        hcw]
      rfl
    · rw [hshown, shown_put, hcw]
      rfl

end Shown

section Members

variable {types : List Ty} {E : Alternatives Ty Val} {s t : State Ty Val} {x y : ℕ}
variable {v w : Var Ty Val} {throws : Bool} {transfer : Transfer Ty Val}
variable {arrives stays : Ty → Val → Val} {op : Op Ty Val}

/-- The tag of the sum is the type of the variant. -/
theorem tag_eq (h : Intact types s) : (shown s).tag x = typeOf s x := by
  cases hx : s.var x with
  | none => simp [Values.tag, shown, typeOf, hx]
  | some v => simp [Values.tag, shown, typeOf, hx, typeIndex_eq (h.matched x v hx)]

/-- Something is thrown by constructors of types that are no scalars. -/
theorem raises_iff {c : Option (Ty × Val)} :
    raises E throws c = true ↔ throws = true ∧ ∃ T ∈ c.map Prod.fst, E.scalar T = false := by
  cases c <;> simp [raises]

/-- The sums that are there are those of the variants. -/
theorem shown_isSome (s : State Ty Val) (x : ℕ) : (shown s x).isSome = (s.var x).isSome :=
  Option.isSome_map

/-- The same variants live in what it holds. -/
theorem inside_iff (h : Intact types s) (zs : List ℕ) :
    (shown s).Inside E x zs ↔ Inside E s x zs := by
  simp only [Values.Inside, Inside, shown_isSome, tag_eq h]

/-- What sums permit is what the storages are ready for. -/
theorem ready_of_permits (h : Intact types s)
    (hp : (shown s).Permits E types (.perform op : Call Ty Val F)) :
    Ready E types s op ∧ Safe E s op := by
  have hnone : ∀ {x}, shown s x = none → (s.var x).isNone := fun hx =>
    Option.isNone_iff_eq_none.mpr (Option.map_eq_none_iff.mp hx)
  have hsome : ∀ {x}, (shown s x).isSome → (s.var x).isSome := fun hx => by
    rwa [shown, Option.isSome_map] at hx
  have hsafe : ∀ {x y throws inner}, (shown s).Spares E throws x y inner →
      SafeAssign E throws s x y inner := by
    intro x y throws inner ⟨hs, hapart⟩
    rw [tag_eq h] at hs hapart
    refine ⟨fun he T hT => ?_, fun hne hthrows hT => ?_, hapart⟩
    · rw [if_pos he] at hs
      exact hs T hT
    · rw [if_neg hne] at hs
      have htag : typeOf s y = (shown s y).join.map Prod.fst := (tag_eq h).symm
      exact hs (raises_iff.mpr ⟨hthrows, htag ▸ hT⟩)
  cases op with
  | default x => exact ⟨hnone hp, trivial⟩
  | value x T z throws => exact ⟨⟨hnone hp.1, hp.2⟩, trivial⟩
  | copy x y throws | move x y throws => exact ⟨⟨hnone hp.1, hsome hp.2⟩, trivial⟩
  | assignCopy x y throws inner | assignMove x y throws inner =>
    obtain ⟨⟨⟨hx, hy⟩, hnodup, hends, hreads⟩, hs⟩ := hp
    exact ⟨⟨⟨hsome hx, hsome hy⟩, hnodup, (inside_iff h _).mp hends, (inside_iff h _).mp hreads⟩,
      hsafe hs⟩
  | destroy x ends =>
    obtain ⟨⟨hx, hnodup, hends⟩, hxe⟩ := hp
    exact ⟨⟨hsome hx, hnodup, (inside_iff h _).mp hends⟩, hxe⟩

variable [DecidableEq Ty]

/-- A construction does to the sums what it does to the variants. -/
theorem construct_shown (hc : Carries E types throws arrives stays transfer) (h : Intact types s)
    (hx : s.var x = none) (hy : s.var y = some w) :
    ∃ t, constructFrom transfer types x y s = some t ∧
      shown t = (shown s).transfer E throws arrives stays x y := by
  have hne : y ≠ x := fun he => by simp [he, hx] at hy
  obtain ⟨s', w', d, htransfer, -, -, -, hshown⟩ := transfer_shown hc (h.matched y w hy) hne
    (put_self s x (some ⟨w.typeIndex, .raw⟩)) rfl ((put_of_ne s _ hne).trans hy)
  have hxs : shown s x = none := by rw [shown, hx, Option.map_none]
  refine ⟨if raises E throws (contents w) then s'.put x none else s',
    by simp [constructFrom, hy, htransfer], ?_⟩
  rw [Values.transfer, shown_of_var hy, Option.join_some]
  cases hr : raises E throws (contents w) with
  | true =>
    rw [if_pos rfl, if_pos rfl, shown_put, hshown, shown_put]
    funext u
    rcases eq_or_ne u x with rfl | hu
    · simp [hxs, hne.symm]
    · simp [Function.update_apply, hu]
  | false =>
    rw [if_neg Bool.false_ne_true, if_neg Bool.false_ne_true, hshown, hr, shown_put]
    funext u
    rcases eq_or_ne u x with rfl | hu
    · simp
    · simp [Function.update_apply, hu]

/-- After `Destroy` a variant shows nothing, and those that ended are gone. -/
theorem destroyWith_shown {ends : List ℕ} (h : Intact types s) (hx : s.var x = some v)
    (hnodup : ends.Nodup) (hsome : ∀ z ∈ ends, (s.var z).isSome) (hxe : x ∉ ends) :
    ∃ s₁, destroyWith types ends x s = some s₁ ∧ s₁.var x = some (ended v) ∧
      (∀ u, u ≠ x → s₁.var u = if u ∈ ends then none else s.var u) ∧
      shown s₁ = Function.update ((shown s).drop ends) x (some none) := by
  obtain ⟨s₁, hdestroy, -, hxd, hvar⟩ := destroyWith_spec h hx hnodup hsome hxe
  refine ⟨s₁, hdestroy, hxd, hvar, ?_⟩
  funext u
  by_cases hu : u = x
  · subst hu
    rw [Function.update_self, shown_of_var hxd, contents_of_held (held_ended v)]
  · rw [Function.update_of_ne hu, shown, hvar u hu, Values.drop]
    split <;> rfl

/-- So does an assignment. -/
theorem assign_shown {inner : Inner} (hc : Carries E types throws arrives stays transfer)
    (h : Intact types s) (hne : y ≠ x) (hx : s.var x = some v) (hy : s.var y = some w)
    (hnodup : inner.ends.Nodup) (hends : Inside E s x inner.ends) (hreads : Inside E s y inner.reads)
    (hapart : Apart E s x y inner)
    (hspares : raises E throws (contents w) = true → contents v = none) :
    ∃ t, assignFrom E transfer types x y inner s = some t ∧
      shown t = ((shown s).drop inner.ends).transfer E throws arrives stays x y := by
  have hall := all_readable h hx hnodup hends hreads hapart
  obtain ⟨hxe, hye, -⟩ := hapart
  obtain ⟨s₁, hdestroy, hxd, hvar, hshown₁⟩ := destroyWith_shown h hx hnodup hends.1 hxe
  have hyd : s₁.var y = some w := by rw [hvar y hne, if_neg hye, hy]
  obtain ⟨s', w', d, htransfer, hy', hid, hx', hshown⟩ := transfer_shown hc (h.matched y w hy) hne
    hxd (held_ended v) hyd
  have hread := hall s₁ hdestroy
  have hxs : (shown s).drop inner.ends x = some (contents v) := by
    rw [Values.drop, if_neg hxe, shown_of_var hx]
  have hys : (shown s).drop inner.ends y = some (contents w) := by
    rw [Values.drop, if_neg hye, shown_of_var hy]
  rw [Values.transfer, hys, Option.join_some]
  cases hr : raises E throws (contents w) with
  | true =>
    rw [hr] at htransfer
    refine ⟨s', ?_, ?_⟩
    · simp only [assignFrom, hdestroy, hyd, if_pos hread, htransfer, Option.bind_eq_bind,
        Option.bind_some, if_true]
      rfl
    rw [if_pos rfl, hshown, hr, hshown₁]
    funext u
    rcases eq_or_ne u x with rfl | hu
    · simp [hxs, hne.symm, hspares hr]
    · simp [Function.update_apply, hu]
  | false =>
    rw [hr] at htransfer
    refine ⟨s'.setTypeIndex x w.typeIndex, ?_, ?_⟩
    · simp only [assignFrom, hdestroy, hyd, if_pos hread, htransfer, hy', hid, Option.bind_eq_bind,
        Option.bind_some, Bool.false_eq_true, if_false]
      rfl
    have hxs' := congrFun hshown x
    rw [Function.update_self, shown_of_var hx'] at hxs'
    have hcontents : contents ⟨w.typeIndex, d⟩ = contents ⟨(ended v).typeIndex, d⟩ := rfl
    rw [if_neg Bool.false_ne_true, setTypeIndex_eq hx', shown_put, Option.map_some, hcontents, hxs',
      hshown, hr, hshown₁]
    funext u
    rcases eq_or_ne u x with rfl | hu
    · simp
    · simp [Function.update_apply, hu]

/-- A void variant or a scalar that is assigned to itself is made anew, with the same value. -/
theorem assignSelf_shown (hc : Carries E types throws arrives stays transfer) (h : Intact types s)
    (hx : s.var x = some v) (hs : ∀ T ∈ v.typeIndex, E.scalar T = true) :
    ∃ t, assignFrom E transfer types x x .none s = some t ∧ shown t = shown s := by
  have hm := h.matched x v hx
  have hdestroy := destroyAs_eq hx hm
  have hxd : (afterDestroy x v s).var x = some (ended v) := put_self ..
  have hxs := shown_of_var hx
  obtain ⟨hid, hcv⟩ | ⟨o, hid, hd, hcv, hT⟩ := Matches.cases hm
  · have htag : (ended v).typeIndex = none := hid
    refine ⟨(afterDestroy x v s).setTypeIndex x none,
      by simp [assignFrom, destroyWith, Inner.none, hx, hdestroy, hxd, htag, hc.void], ?_⟩
    rw [setTypeIndex_eq hxd, shown_put, shown_afterDestroy, Function.update_idem, Option.map_some]
    have hnone : contents { ended v with typeIndex := none } = none :=
      contents_of_held (held_ended v)
    rw [hnone, ← hcv, ← hxs, Function.update_eq_self]
  · have hsc : E.scalar o.type = true := hs o.type hid
    have htag : (ended v).typeIndex = some o.type := hid
    have hread : readAs E o.type (ended v).data = some o.value := by simp [readAs, ended, hd, hsc]
    have htransfer := hc.typed o.type hT x x _ _ hxd
    rw [hread, Option.map_some, setData_eq hxd, hc.scalar o.type o.value hsc] at htransfer
    obtain ⟨s', d, hplace, hx', -, hshown⟩ := placeNew_shown E throws
      (put_self (afterDestroy x v s) x (some { ended v with
        data := (ended v).data.withValue (stays o.type o.value) })) o.type o.value
    have hr : raises E throws (some (o.type, o.value)) = false := by simp [raises, hsc]
    rw [hplace, hr] at htransfer
    refine ⟨s'.setTypeIndex x (some o.type),
      by simp [assignFrom, destroyWith, Inner.none, hx, hdestroy, hxd, htag, htransfer, hx'], ?_⟩
    have hxs' := congrFun hshown x
    rw [Function.update_self, shown_of_var hx', hr, if_neg Bool.false_ne_true] at hxs'
    have hcontents : contents ⟨some o.type, d⟩ = contents ⟨(ended v).typeIndex, d⟩ := rfl
    rw [setTypeIndex_eq hx', shown_put, Option.map_some, hcontents, hxs', hshown, shown_put,
      shown_afterDestroy, Function.update_idem, Function.update_idem, Function.update_idem, ← hcv,
      ← hxs, Function.update_eq_self]

/-- A special member does to what is shown what it does to sums. -/
theorem step_shown (h : Intact types s)
    (hp : (shown s).Permits E types (.perform op : Call Ty Val F)) :
    ∃ t, step E types s op = some t ∧ shown t = (shown s).perform E op := by
  obtain ⟨hready, hsafe⟩ := ready_of_permits h hp
  have hgone : ∀ {x}, (s.var x).isNone → s.var x = none := Option.isNone_iff_eq_none.mp
  have hassign : ∀ {x y throws inner arrives stays transfer},
      Carries E types throws arrives stays transfer → (s.var x).isSome → (s.var y).isSome →
      inner.ends.Nodup → Inside E s x inner.ends → Inside E s y inner.reads →
      SafeAssign E throws s x y inner → ∃ t, assignFrom E transfer types x y inner s = some t ∧
        shown t = if x = y then shown s
          else ((shown s).drop inner.ends).transfer E throws arrives stays x y := by
    intro x y throws inner arrives stays transfer hc hx hy hnodup hends hreads ⟨hself, hthrow, hapart⟩
    obtain ⟨v, hv⟩ := Option.isSome_iff_exists.mp hx
    obtain ⟨w, hw⟩ := Option.isSome_iff_exists.mp hy
    have htx : typeOf s x = v.typeIndex := by simp [typeOf, hv]
    by_cases hxy : x = y
    · subst hxy
      obtain ⟨ends, reads⟩ := inner
      obtain rfl : ends = [] := hends.eq_nil (hself rfl)
      obtain rfl : reads = [] := hreads.eq_nil (hself rfl)
      rw [if_pos rfl]
      exact assignSelf_shown hc h hv (htx ▸ hself rfl)
    · rw [if_neg hxy]
      refine assign_shown hc h (Ne.symm hxy) hv hw hnodup hends hreads hapart fun hr => ?_
      have hty : (contents w).map Prod.fst = typeOf s y := by
        rw [← typeIndex_eq (h.matched y w hw)]
        simp [typeOf, hw]
      have hvoid := hthrow hxy (raises_iff.mp hr).1 (hty ▸ (raises_iff.mp hr).2)
      rw [htx, typeIndex_eq (h.matched x v hv)] at hvoid
      exact Option.map_eq_none_iff.mp hvoid
  cases op with
  | default x => exact ⟨_, rfl, shown_put ..⟩
  | value x T z throws =>
    obtain ⟨s', d, hplace, -, -, hshown⟩ := placeNew_shown E throws
      (put_self s x (some ⟨some T, .raw⟩)) T z
    have hxs : shown s x = none := hp.1
    refine ⟨if raises E throws (some (T, z)) then s'.put x none else s', by simp [step, hplace], ?_⟩
    rw [Values.perform]
    cases hr : raises E throws (some (T, z)) with
    | true =>
      rw [if_pos rfl, if_pos rfl, shown_put, hshown, shown_put, Function.update_idem,
        Function.update_idem, Option.map_none, ← hxs, Function.update_eq_self]
    | false =>
      rw [if_neg Bool.false_ne_true, if_neg Bool.false_ne_true, hshown, hr, shown_put,
        Function.update_idem, if_neg Bool.false_ne_true]
  | copy x y throws =>
    obtain ⟨w, hw⟩ := Option.isSome_iff_exists.mp hready.2
    exact construct_shown copy_carries h (hgone hready.1) hw
  | move x y throws =>
    obtain ⟨w, hw⟩ := Option.isSome_iff_exists.mp hready.2
    exact construct_shown move_carries h (hgone hready.1) hw
  | assignCopy x y throws inner =>
    obtain ⟨⟨hx, hy⟩, hnodup, hends, hreads⟩ := hready
    exact hassign copy_carries hx hy hnodup hends hreads hsafe
  | assignMove x y throws inner =>
    obtain ⟨⟨hx, hy⟩, hnodup, hends, hreads⟩ := hready
    exact hassign move_carries hx hy hnodup hends hreads hsafe
  | destroy x ends =>
    obtain ⟨hx, hnodup, hends⟩ := hready
    obtain ⟨v, hv⟩ := Option.isSome_iff_exists.mp hx
    obtain ⟨s₁, hdestroy, -, -, hshown₁⟩ := destroyWith_shown h hv hnodup hends.1 hsafe
    refine ⟨s₁.put x none, by simp [step, hdestroy], ?_⟩
    rw [shown_put, hshown₁, Function.update_idem]
    rfl

/-- A use of a variant answers what the sum answers. -/
theorem use_shown (before : Option Ty → Option Ty → Bool) (h : Intact types s) {c : Call Ty Val F}
    (hp : (shown s).Permits E types c) :
    ∃ t, use E types before s c = some (t, (shown s).answer types before c) ∧ Intact types t ∧
      shown t = (shown s).after E c := by
  have hread : ∀ {x}, (shown s x).isSome → ∃ v, s.var x = some v ∧ Matches types v ∧
      shown s x = some (contents v) ∧ v.typeIndex = (shown s).tag x := fun {x} hx => by
    obtain ⟨v, hv⟩ := Option.isSome_iff_exists.mp (Option.isSome_map.symm.trans hx)
    have hm := h.matched x v hv
    refine ⟨v, hv, hm, shown_of_var hv, ?_⟩
    rw [typeIndex_eq hm, Values.tag, shown_of_var hv, Option.join_some]
  cases c with
  | perform op =>
    obtain ⟨hready, hsafe⟩ := ready_of_permits h hp
    obtain ⟨t, ht, hi, -⟩ := (sound_iff h hready).mpr hsafe
    obtain ⟨t', ht', hshown⟩ := step_shown h hp
    obtain rfl := Option.some.inj (ht.symm.trans ht')
    exact ⟨t, by rw [use, ht]; rfl, hi, hshown⟩
  | is x T =>
    obtain ⟨v, hv, -, -, hid⟩ := hread hp
    exact ⟨s, by rw [use, hv, Values.answer, ← hid]; rfl, h, rfl⟩
  | empty x =>
    obtain ⟨v, hv, -, -, hid⟩ := hread hp
    exact ⟨s, by rw [use, hv, Values.answer, ← hid]; rfl, h, rfl⟩
  | type x =>
    obtain ⟨v, hv, -, -, hid⟩ := hread hp
    exact ⟨s, by rw [use, hv, Values.answer, ← hid]; rfl, h, rfl⟩
  | get x T =>
    obtain ⟨v, hv, hm, hs, -⟩ := hread hp
    exact ⟨s, by rw [use, hv, Option.bind_some, Get_eq hm, Values.answer, hs]; rfl, h, rfl⟩
  | To x T dflt =>
    obtain ⟨v, hv, hm, hs, -⟩ := hread hp
    exact ⟨s, by rw [use, hv, Option.bind_some, To_eq hm, Values.answer, hs]; rfl, h, rfl⟩
  | getIndexOf x T =>
    obtain ⟨v, hv, -⟩ := hread hp
    exact ⟨s, by rw [use, hv, Option.map_some, Index_eq]; rfl, h, rfl⟩
  | visit x fs =>
    obtain ⟨v, hv, hm, hs, -⟩ := hread hp
    exact ⟨s, by rw [use, hv, Option.bind_some, Visit_eq hm, Values.answer, hs]; rfl, h, rfl⟩
  | equal x y =>
    obtain ⟨v, hv, -, -, hid⟩ := hread hp.1
    obtain ⟨w, hw, -, -, hid'⟩ := hread hp.2
    exact ⟨s, by rw [use, hv, hw, Values.answer, ← hid, ← hid']; rfl, h, rfl⟩
  | less x y =>
    obtain ⟨v, hv, -, -, hid⟩ := hread hp.1
    obtain ⟨w, hw, -, -, hid'⟩ := hread hp.2
    exact ⟨s, by rw [use, hv, hw, Values.answer, ← hid, ← hid']; rfl, h, rfl⟩

/-- Every run of the members of variants answers as sums do, in storages that match their
tags, if it assigns nothing but scalars to itself, throws over no alternative and uses
nothing that ends with the alternative of a target. -/
theorem variants_answer_as_sums (E : Alternatives Ty Val) (types : List Ty)
    (before : Option Ty → Option Ty → Bool) {cs : List (Call Ty Val F)}
    (h : (sums E types before).PermitsAll (fun _ => none) cs) :
    ∃ t, calls (use E types before) State.empty cs =
        some (t, (sums E types before).answers (fun _ => none) cs) ∧
      Intact types t ∧ shown t = (sums E types before).final (fun _ => none) cs := by
  refine Model.calls_answer (R := fun s m => Intact types s ∧ shown s = m) ?_ ⟨intact_empty, rfl⟩ h
  rintro s _ c ⟨hi, rfl⟩ hp
  exact use_shown before hi hp

end Members

/-- A text is moved over a number, and the numbers and texts are read; a text ends with
another one. -/
def readings : List (Call Kind ℕ String) :=
  [.perform (.value 0 .string 7 false), .perform (.value 1 .int 3 false), .perform (.default 2),
    .perform (.assignCopy 1 1 false .none), .get 1 .int, .perform (.copy 3 0 false),
    .perform (.assignMove 1 0 false .none), .get 1 .int, .To 1 .string 9, .To 0 .string 9,
    .To 2 .string 9, .get 3 .string,
    .visit 1 [(.int, "number"), (.string, "text"), (.string, "again")], .visit 2 [(.int, "number")],
    .equal 0 1, .less 2 0, .getIndexOf 0 .string, .perform (.destroy 1 [3]), .empty 2]

/-- An order in which `typeid(void)` comes first. -/
def emptyFirst (a b : Option Kind) : Bool := a.isNone && b.isSome

/-- The readers answer for variants that are copied, moved and owned. -/
theorem variants_answer_as_sums_readings :
    ∃ t, calls (use intOrString [.int, .string] emptyFirst) State.empty readings =
        some (t, [.done, .done, .done, .done, .got (some 3), .done, .done, .got none, .read 7 true,
          .read 0 true, .read 9 false, .got (some 7), .visited (some ("text", 7)), .visited none,
          .bool true, .bool true, .index 1, .done, .bool true]) ∧
      Intact [.int, .string] t ∧
      shown t = (sums intOrString [.int, .string] emptyFirst).final (fun _ => none) readings :=
  variants_answer_as_sums intOrString [.int, .string] emptyFirst (by decide)

end KernelLib.VariantValues
