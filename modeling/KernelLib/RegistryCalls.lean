import KernelLib.RegistryTree
import Mathlib.Data.List.MinMax
import Mathlib.Data.List.Sort
import Mathlib.Logic.Relation

/-!
# The calls of the registry class

`Registry` and `RegistryPrivate` with their helpers, on the keys below the one
that the constructor names. The helpers that recurse are given how deep they
may go and fail behind that, as does a read behind the data of a value. The
groups are never entered, so that the prefix of all keys is empty.
-/

namespace KernelLib.RegistryCalls

open WideMemory SplitPaths RegistryValues RegistryKeys RegistryTree

variable {F : Caseless}

/-- `ChildSpec`. -/
inductive ChildSpec where
  /-- `AllKeys`. -/
  | allKeys
  /-- `ChildKeys`. -/
  | childKeys
  /-- `ChildGroups`. -/
  | childGroups
  deriving DecidableEq

/-- `NameSet`, a map from names to empty text, in the order of the names. -/
abbrev NameSet := List WString

/-- `insert` of a `NameSet`. -/
def NameSet.insert (ns : NameSet) (s : WString) : NameSet :=
  if s ∈ ns then ns else ns.orderedInsert (· ≤ ·) s

/-- `mergeKeySets`. -/
def mergeKeySets (dest : NameSet) (src : List WString) : NameSet := src.foldl NameSet.insert dest

/-- `openKey`. -/
def openKey (t : Tree F) (parentHandle : Path) (rSubKey : WString) : Option Path :=
  t.regOpenKeyEx parentHandle rSubKey

/-- `createOrOpenKey`. -/
def createOrOpenKey (t : Tree F) (parentHandle : Path) (rSubKey : WString) :
    Option (Tree F × Path) :=
  match openKey t parentHandle rSubKey with
  | some resultHandle => some (t, resultHandle)
  | none => t.regCreateKeyEx parentHandle rSubKey

/-- `childKeysOrGroups`. -/
def childKeysOrGroups (t : Tree F) (parentHandle : Path) (spec : ChildSpec) : List WString :=
  let items := if spec = .childKeys then t.regEnumValue parentHandle
    else t.regEnumKeyEx parentHandle
  items.map fun item => if item = [] then dot else item

/-- `allKeys`, going no deeper than given. -/
def allKeys : ℕ → Tree F → Path → WString → NameSet → Option NameSet
  | 0, _, _, _, _ => none
  | depth + 1, t, parentHandle, rSubKey, result =>
    match openKey t parentHandle rSubKey with
    | none => some result
    | some handle =>
      let childKeys := childKeysOrGroups t handle .childKeys
      let childGroups := childKeysOrGroups t handle .childGroups
      let s := if rSubKey ≠ [] then rSubKey ++ [backslash] else rSubKey
      let result := childKeys.foldl (fun result key => result.insert (s ++ key)) result
      childGroups.foldlM (fun result group => allKeys depth t parentHandle (s ++ group) result) result

/-- The loop of `deleteChildGroups`, with the call for the groups below. -/
def deleteLoop (below : Tree F → Path → Option (Tree F)) (parentHandle : Path) :
    Tree F → List WString → Option (Tree F)
  | t, [] => some t
  | t, group :: childGroups =>
    match openKey t parentHandle group with
    | none => deleteLoop below parentHandle t childGroups
    | some childGroupHandle =>
      match below t childGroupHandle with
      | none => none
      | some t =>
        match t.regDeleteKey parentHandle group with
        | none => some t
        | some t => deleteLoop below parentHandle t childGroups

/-- `deleteChildGroups`, going no deeper than given. -/
def deleteChildGroups : ℕ → Tree F → Path → Option (Tree F)
  | 0, _, _ => none
  | depth + 1, t, parentHandle =>
    deleteLoop (deleteChildGroups depth) parentHandle t
      (childKeysOrGroups t parentHandle .childGroups)

/-- `Registry::Status`. -/
inductive Status where
  /-- `NoError`. -/
  | noError
  /-- `AccessError`. -/
  | accessError
  /-- `FormatError`. -/
  | formatError
  deriving DecidableEq

/-- `RegistryKey`, after `handle()` has tried to open it. -/
structure RegistryKey where
  /-- `m_handle` is not null. -/
  opened : Bool
  /-- `m_read_only`. -/
  readOnly : Bool

/-- `RegistryPrivate`, with the keys below its location. -/
structure RegistryPrivate (F : Caseless) where
  /-- The keys below the location. -/
  tree : Tree F
  /-- `regList`, to which the constructor adds one location or none. -/
  regList : Option RegistryKey
  /-- `deleteWriteHandleOnExit`. -/
  deleteWriteHandleOnExit : Bool
  /-- `_s`. -/
  status : Status

/-- `groupPrefix`, which is never assigned. -/
def groupPrefix : WString := []

/-- `Registry::group`. -/
def group : WString := groupPrefix.dropLast

/-- A tree has no longer paths. -/
def height (t : Tree F) : ℕ := (t.keys.map fun k => k.path.length).foldr max 0

/-- No path is longer than the tree is high. -/
theorem length_le_height {t : Tree F} {k : Key} (hk : k ∈ t.keys) : k.path.length ≤ height t :=
  List.le_max_of_le' 0 (List.mem_map_of_mem hk) (Nat.le_refl _)

/-- `RegistryPrivate::actualKey`. -/
def actualKey (key : WString) : Option WString := do
  let n ← normalizedKey key
  return groupPrefix ++ n

/-- `RegistryPrivate::readKey`: whether there is a value, and which. -/
def readKey (t : Tree F) (parentHandle : Path) (rSubKey : WString) : Option (Option RegVariant) :=
  match openKey t parentHandle (keyPath rSubKey) with
  | none => some none
  | some handle =>
    match t.regQueryValueEx handle (keyName rSubKey) with
    | none => some none
    | some v => (readData v).map some

/-- `remove` up to the value: try to delete value bar in key foo. -/
def removeValue (t : Tree F) (writeHandle : Path) (rKey : WString) : Tree F :=
  match openKey t writeHandle (keyPath rKey) with
  | none => t
  | some handle => t.regDeleteValue handle (keyName rKey)

/-- `remove` from there on: try to delete key foo/bar and all subkeys. -/
def removeKey (t : Tree F) (writeHandle : Path) (rKey : WString) : Option (Tree F) :=
  match openKey t writeHandle rKey with
  | none => some t
  | some handle => do
    let t ← deleteChildGroups (height t + 1) t handle
    if rKey = [] then
      let childKeys := childKeysOrGroups t handle .childKeys
      return childKeys.foldl (fun t group => t.regDeleteValue handle group) t
    else
      return (t.regDeleteKey writeHandle rKey).getD t

namespace RegistryPrivate

variable (d : RegistryPrivate F)

/-- `writeHandle`. -/
def writeHandle : Option Path :=
  match d.regList with
  | none => none
  | some key => if !key.opened || key.readOnly then none else some []

/-- `remove`. -/
def remove (uKey : WString) : Option (RegistryPrivate F) :=
  match d.writeHandle with
  | none => some { d with status := .accessError }
  | some writeHandle => do
    let rKey := escapedKey uKey
    let tree ← removeKey (removeValue d.tree writeHandle rKey) writeHandle rKey
    return { d with tree := tree }

/-- `set`; the empty variant leaves the type without a value. -/
def set (uKey : WString) (value : RegVariant) (expand : Bool) : Option (RegistryPrivate F) :=
  match d.writeHandle with
  | none => some { d with status := .accessError }
  | some writeHandle =>
    let rKey := escapedKey uKey
    match createOrOpenKey d.tree writeHandle (keyPath rKey) with
    | none => some { d with status := .accessError }
    | some (tree, handle) => do
      let v ← writeData expand value
      return { d with
        tree := tree.regSetValueEx handle (keyName rKey) (passed v)
        deleteWriteHandleOnExit := false }

/-- `get`: whether there is a value, and which. -/
def get (uKey : WString) : Option (Option RegVariant) :=
  let rKey := escapedKey uKey
  match d.regList with
  | none => some none
  | some key => if key.opened then readKey d.tree [] rKey else some none

/-- `children`. -/
def children (uKey : WString) (spec : ChildSpec) : Option (List WString) :=
  let rKey := escapedKey uKey
  match d.regList with
  | none => some []
  | some key =>
    if !key.opened then some [] else
    match openKey d.tree [] rKey with
    | none => some []
    | some handle =>
      if spec = .allKeys then do
        let keys ← allKeys (height d.tree + 1) d.tree handle [] []
        return mergeKeySets [] keys
      else some (mergeKeySets [] (childKeysOrGroups d.tree handle spec))

/-- `clear`. -/
def clear : Option (RegistryPrivate F) := do
  let d ← d.remove []
  return { d with deleteWriteHandleOnExit := true }

end RegistryPrivate

/-- `Registry`. -/
structure Registry (F : Caseless) where
  /-- `d`. -/
  d : RegistryPrivate F

namespace Registry

variable (reg : Registry F)

/-- `allKeys`. -/
def allKeys : Option (List WString) := reg.d.children groupPrefix .allKeys

/-- `setValue`. -/
def setValue (key : WString) (value : RegVariant) (exSz : Bool) : Option (Registry F) := do
  let k ← actualKey key
  let d ← reg.d.set k value exSz
  return ⟨d⟩

/-- `value`. -/
def value (key : WString) (defaultValue : RegVariant) : Option RegVariant := do
  let k ← actualKey key
  let result ← reg.d.get k
  return result.getD defaultValue

/-- `remove`. -/
def remove (key : WString) : Option (Registry F) := do
  let theKey ← normalizedKey key
  let theKey := if theKey = [] then group else groupPrefix ++ theKey
  let d ← if theKey = [] then reg.d.clear else reg.d.remove theKey
  return ⟨d⟩

/-- `contains`. -/
def contains (key : WString) : Option Bool := do
  let k ← actualKey key
  let result ← reg.d.get k
  return result.isSome

end Registry

end KernelLib.RegistryCalls
