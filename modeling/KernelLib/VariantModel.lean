import Mathlib.Logic.Function.Basic
import Mathlib.Data.List.Nodup

/-!
# Tagged storage

A `Variant` keeps the type index of its alternative next to raw storage, and
dispatches on the index through the list of its types to destroy, move or
copy what the storage holds. The steps of each special member are taken one
by one, as tag and storage disagree between them. Objects in storages are
numbered as they are constructed; a destructor runs on a live object of its
type and nothing is read from an object that is gone, except that a scalar
stays readable, as its destructor does nothing. What else the alternatives
do is a parameter. A constructor of an alternative may throw. Variants may
live inside of the objects in other ones, as in the nodes of a list: the
destructor of such an object ends them, and its copy is made from them.
-/

namespace KernelLib.VariantModel

/-- What the special members of the alternatives do. -/
structure Alternatives (Ty Val : Type) where
  /-- Types without a destructor of their own, whose constructors never throw. -/
  scalar : Ty → Bool
  /-- The value of a copy. -/
  copied : Ty → Val → Val
  /-- The value that is moved to the new object. -/
  taken : Ty → Val → Val
  /-- The value that a move leaves in its source; the flag says that it threw. -/
  left : Bool → Ty → Val → Val
  copied_scalar : ∀ T v, scalar T = true → copied T v = v
  taken_scalar : ∀ T v, scalar T = true → taken T v = v

/-- An object in a storage. -/
structure Object (Ty Val : Type) where
  /-- Its number among all objects constructed. -/
  id : ℕ
  /-- Its type. -/
  type : Ty
  /-- Its value. -/
  value : Val
  deriving DecidableEq, Repr

/-- What a storage holds. -/
inductive Storage (Ty Val : Type) where
  /-- No object. -/
  | raw
  /-- A live object. -/
  | live (o : Object Ty Val)
  /-- An object whose destructor has run. -/
  | dead (o : Object Ty Val)
  deriving DecidableEq, Repr

variable {Ty Val : Type}

/-- Overwrite the value of the object in a storage. -/
def Storage.withValue (z : Val) : Storage Ty Val → Storage Ty Val
  | .raw => .raw
  | .live o => .live { o with value := z }
  | .dead o => .dead { o with value := z }

/-- A variant: `m_typeIndex`, with `none` for `typeid(void)`, and `m_data`. -/
structure Var (Ty Val : Type) where
  /-- `m_typeIndex`. -/
  typeIndex : Option Ty
  /-- `m_data`. -/
  data : Storage Ty Val
  deriving DecidableEq, Repr

/-- All variants, and the objects ever constructed in them. -/
structure State (Ty Val : Type) where
  /-- The variants that are constructed. -/
  var : ℕ → Option (Var Ty Val)
  /-- How many objects were constructed. -/
  created : ℕ
  /-- Destroyed objects, in order. -/
  destroyed : List ℕ

/-- No variant yet. -/
def State.empty : State Ty Val := ⟨fun _ => none, 0, []⟩

/-- Begin, overwrite or end a variant. -/
def State.put (x : ℕ) (v : Option (Var Ty Val)) (s : State Ty Val) : State Ty Val :=
  { s with var := Function.update s.var x v }

/-- Write the storage of a variant. -/
def State.setData (x : ℕ) (d : Storage Ty Val) (s : State Ty Val) : State Ty Val :=
  s.put x ((s.var x).map fun v => { v with data := d })

/-- Write the tag of a variant. -/
def State.setTypeIndex (x : ℕ) (id : Option Ty) (s : State Ty Val) : State Ty Val :=
  s.put x ((s.var x).map fun v => { v with typeIndex := id })

variable [DecidableEq Ty]

/-- `reinterpret_cast<T*>(data)->~T()`. -/
def State.runDestructor (T : Ty) (x : ℕ) (s : State Ty Val) : Option (State Ty Val) :=
  match (s.var x).map Var.data with
  | some (.live o) =>
    if o.type = T then
      some { s.setData x (.dead o) with destroyed := s.destroyed ++ [o.id] }
    else none
  | _ => none

/-- The value read through `reinterpret_cast<T*>` at a storage. -/
def readAs (E : Alternatives Ty Val) (T : Ty) : Storage Ty Val → Option Val
  | .live o => if o.type = T then some o.value else none
  | .dead o => if o.type = T ∧ E.scalar T = true then some o.value else none
  | .raw => none

/-- `new (data) T(...)` with a value; the flag says that the constructor threw. -/
def State.placeNew (E : Alternatives Ty Val) (T : Ty) (z : Val) (throws : Bool) (x : ℕ)
    (s : State Ty Val) : State Ty Val × Bool :=
  if throws && !E.scalar T then (s.setData x .raw, true)
  else ({ s.setData x (.live ⟨s.created, T, z⟩) with created := s.created + 1 }, false)

/-- `VariantHelper::Destroy`. -/
def destroyAs : List Ty → Option Ty → ℕ → State Ty Val → Option (State Ty Val)
  | [], _, _, s => some s
  | T :: rest, id, x, s =>
    if id = some T then s.runDestructor T x else destroyAs rest id x s

/-- `VariantHelper::copy`, from the storage of one variant to another's. -/
def copyAs (E : Alternatives Ty Val) (throws : Bool) :
    List Ty → Option Ty → ℕ → ℕ → State Ty Val → Option (State Ty Val × Bool)
  | [], _, _, _, s => some (s, false)
  | T :: rest, old, y, x, s =>
    if old = some T then do
      let v ← s.var y
      let z ← readAs E T v.data
      return s.placeNew E T (E.copied T z) throws x
    else copyAs E throws rest old y x s

/-- `VariantHelper::move`. The source keeps what the move leaves of it. -/
def moveAs (E : Alternatives Ty Val) (throws : Bool) :
    List Ty → Option Ty → ℕ → ℕ → State Ty Val → Option (State Ty Val × Bool)
  | [], _, _, _, s => some (s, false)
  | T :: rest, old, y, x, s =>
    if old = some T then do
      let v ← s.var y
      let z ← readAs E T v.data
      let s := s.setData y (v.data.withValue (E.left (throws && !E.scalar T) T z))
      return s.placeNew E T (E.taken T z) throws x
    else moveAs E throws rest old y x s

/-- What the objects in two variants have to do with other variants. -/
structure Inner where
  /-- The variants that end with the old object of the target, in order. -/
  ends : List ℕ
  /-- The variants from which the object of the source is copied or moved. -/
  reads : List ℕ
  deriving DecidableEq, Repr

/-- The objects own no variants. -/
def Inner.none : Inner := ⟨[], []⟩

/-- The special members; the flag of a construction or assignment says that a
constructor of the alternative would throw. -/
inductive Op (Ty Val : Type) where
  /-- `Variant()`. -/
  | default (x : ℕ)
  /-- `Variant(T&& value)`. -/
  | value (x : ℕ) (T : Ty) (z : Val) (throws : Bool)
  /-- `Variant(const Variant& old)`. -/
  | copy (x y : ℕ) (throws : Bool)
  /-- `Variant(Variant&& old)`. -/
  | move (x y : ℕ) (throws : Bool)
  /-- `operator=(const Variant& old)`. -/
  | assignCopy (x y : ℕ) (throws : Bool) (inner : Inner)
  /-- `operator=(Variant&& old)`. -/
  | assignMove (x y : ℕ) (throws : Bool) (inner : Inner)
  /-- `~Variant()`, with the variants that end with the object. -/
  | destroy (x : ℕ) (ends : List ℕ)
  deriving DecidableEq, Repr

/-- `~Variant()` of a variant inside of an object. -/
def endVariant (types : List Ty) (s : State Ty Val) (z : ℕ) : Option (State Ty Val) := do
  let w ← s.var z
  let s ← destroyAs types w.typeIndex z s
  return s.put z none

/-- `VariantHelper::Destroy` of a variant, with the variants that end with its object. -/
def destroyWith (types : List Ty) (ends : List ℕ) (x : ℕ) (s : State Ty Val) :
    Option (State Ty Val) := do
  let v ← s.var x
  let s ← destroyAs types v.typeIndex x s
  ends.foldlM (endVariant types) s

/-- A variant can be read: it is there, with what its tag names. -/
def readable (E : Alternatives Ty Val) (s : State Ty Val) (z : ℕ) : Bool :=
  match s.var z with
  | none => false
  | some w =>
    match w.typeIndex with
    | none => true
    | some T => (readAs E T w.data).isSome

/-- `VariantHelper::copy` or `VariantHelper::move`. -/
abbrev Transfer (Ty Val : Type) :=
  List Ty → Option Ty → ℕ → ℕ → State Ty Val → Option (State Ty Val × Bool)

/-- Construct a variant from another one. -/
def constructFrom (transfer : Transfer Ty Val) (types : List Ty) (x y : ℕ)
    (s : State Ty Val) : Option (State Ty Val) := do
  let old ← s.var y
  let (s, threw) ← transfer types old.typeIndex y x (s.put x (some ⟨old.typeIndex, .raw⟩))
  -- the destructor of what was not constructed does not run
  return if threw then s.put x none else s

/-- Assign to a variant from another one, or from itself. -/
def assignFrom (E : Alternatives Ty Val) (transfer : Transfer Ty Val) (types : List Ty)
    (x y : ℕ) (inner : Inner) (s : State Ty Val) : Option (State Ty Val) := do
  let s ← destroyWith types inner.ends x s
  let old ← s.var y
  let (s, threw) ←
    if inner.reads.all (readable E s) then transfer types old.typeIndex y x s else none
  if threw then return s
  let old ← s.var y
  return s.setTypeIndex x old.typeIndex

/-- Perform one operation on variants of the listed types. -/
def step (E : Alternatives Ty Val) (types : List Ty) (s : State Ty Val) :
    Op Ty Val → Option (State Ty Val)
  | .default x => some (s.put x (some ⟨none, .raw⟩))
  | .value x T z throws =>
    let (s, threw) := (s.put x (some ⟨some T, .raw⟩)).placeNew E T z throws x
    some (if threw then s.put x none else s)
  | .copy x y throws => constructFrom (copyAs E throws) types x y s
  | .move x y throws => constructFrom (moveAs E throws) types x y s
  | .assignCopy x y throws inner => assignFrom E (copyAs E throws) types x y inner s
  | .assignMove x y throws inner => assignFrom E (moveAs E throws) types x y inner s
  | .destroy x ends => do
    let s ← destroyWith types ends x s
    return s.put x none

end KernelLib.VariantModel
