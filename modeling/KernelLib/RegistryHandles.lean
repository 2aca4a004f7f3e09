import KernelLib.RegistryCalls
import KernelLib.RegistryPaths
import KernelLib.ScriptRecursion

/-!
# The handles of a registry object

`Registry` with its helpers as a script of calls to the system, which may
answer as it likes, a key may be refused, gone or another one at the next
call. A predefined key is no handle of its own and is not closed. The helpers
that recurse call themselves behind an answer.
-/

namespace KernelLib.RegistryHandles

open HandleLedger ScriptRecursion RegistryValues RegistryKeys RegistryPaths
open RegistryTree (cstr)
open RegistryCalls (ChildSpec NameSet mergeKeySets Status groupPrefix group actualKey)

/-- What a handle is for the system. -/
inductive Base where
  /-- A predefined key. -/
  | predefined (root : Root)
  /-- A key that was opened. -/
  | opened (k : ℕ)
  deriving DecidableEq, Repr

/-- A `HKEY` that is not null. -/
structure Handle where
  base : Base
  /-- It was asked for to write, or not asked for. -/
  write : Bool
  deriving DecidableEq, Repr

/-- `REGSAM`. -/
structure Perms where
  /-- `registryPermissions`, or `KEY_READ` only. -/
  write : Bool
  /-- `KEY_WOW64_64KEY`. -/
  wow64 : Bool
  deriving DecidableEq, Repr

/-- The calls of the registry, and what goes with them. -/
inductive Api where
  | RegOpenKeyEx (perms : Perms) (subKey : WString)
  | RegCreateKeyEx (perms : Perms) (subKey : WString)
  | RegQueryInfoKey
  | RegEnumValue (i : ℕ)
  | RegEnumKeyEx (i : ℕ)
  | RegQueryValueEx (name : WString)
  | RegCloseKey
  | RegDeleteValue (name : WString)
  | RegDeleteKey (subKey : WString)
  | RegSetValueEx (name : WString) (value : Stored)
  deriving DecidableEq

/-- A call and its handle. -/
structure Call where
  api : Api
  handle : Handle
  deriving DecidableEq

/-- An answer of the system. -/
structure Answer where
  /-- `ERROR_SUCCESS`. -/
  ok : Bool
  /-- `numSubgroups`. -/
  numSubgroups : BitVec 32
  /-- `numKeys`. -/
  numKeys : BitVec 32
  /-- A name that was enumerated. -/
  name : WString
  /-- A type and its data. -/
  value : Stored
  deriving DecidableEq

/-- A script of these calls. -/
abbrev Calls := Script Call Answer

/-- A call. -/
def Handle.call (h : Handle) (api : Api) : Calls Answer :=
  match h.base with
  | .predefined _ => ask ⟨api, h⟩
  | .opened k => askOn ⟨api, h⟩ (some k)

/-- A new handle. -/
def newHandle (write : Bool) : Calls Handle := do
  let k ← acquire
  return ⟨.opened k, write⟩

/-- `openKey`. A predefined key itself comes back as it is. -/
def openKey (parentHandle : Handle) (perms : Perms) (rSubKey : WString) :
    Calls (Option Handle) := do
  let res ← parentHandle.call (.RegOpenKeyEx perms (cstr rSubKey))
  if !res.ok then return none
  match parentHandle.base, cstr rSubKey with
  | .predefined root, [] => return some ⟨.predefined root, perms.write⟩
  | _, _ => some <$> newHandle perms.write

/-- `RegCloseKey`. -/
def closeKey (h : Handle) : Calls Unit :=
  match h.base with
  | .predefined _ => pure ()
  | .opened k => release ⟨.RegCloseKey, h⟩ (some k)

/-- `createOrOpenKey` with permissions. -/
def createOrOpenKey (parentHandle : Handle) (perms : Perms) (rSubKey : WString) :
    Calls (Option Handle) := do
  match ← openKey parentHandle perms rSubKey with
  | some resultHandle => return some resultHandle
  | none =>
    let res ← parentHandle.call (.RegCreateKeyEx perms (cstr rSubKey))
    if res.ok then some <$> newHandle perms.write else return none

/-- `createOrOpenKey` in read-write mode if possible, otherwise read-only. -/
def createOrOpenAny (parentHandle : Handle) (rSubKey : WString) (wow64 : Bool) :
    Calls (Option Handle) := do
  match ← createOrOpenKey parentHandle ⟨true, wow64⟩ rSubKey with
  | some resultHandle => return some resultHandle
  | none => createOrOpenKey parentHandle ⟨false, wow64⟩ rSubKey

/-- One item of `childKeysOrGroups`. -/
def childItem (parentHandle : Handle) (spec : ChildSpec) (result : List WString) (i : ℕ) :
    Calls (List WString) := do
  let res ← parentHandle.call (if spec = .childKeys then .RegEnumValue i else .RegEnumKeyEx i)
  if !res.ok then return result
  return result ++ [if res.name = [] then dot else res.name]

/-- `childKeysOrGroups`. The counts are compared as `int`. -/
def childKeysOrGroups (parentHandle : Handle) (spec : ChildSpec) : Calls (List WString) := do
  let res ← parentHandle.call .RegQueryInfoKey
  if !res.ok then return []
  let n := if spec = .childKeys then res.numKeys else res.numSubgroups
  (List.range n.toInt.toNat).foldlM (childItem parentHandle spec) []

/-- `allKeys`, with the call of itself. -/
def allKeysBody (parentHandle : Handle) (wow64 : Bool) (below : WString × NameSet → Calls NameSet) :
    WString × NameSet → Calls NameSet
  | (rSubKey, result) => do
    match ← openKey parentHandle ⟨false, wow64⟩ rSubKey with
    | none => return result
    | some handle =>
      let childKeys ← childKeysOrGroups handle .childKeys
      let childGroups ← childKeysOrGroups handle .childGroups
      closeKey handle
      let s := if rSubKey ≠ [] then rSubKey ++ [backslash] else rSubKey
      let result := childKeys.foldl (fun result key => result.insert (s ++ key)) result
      childGroups.foldlM (fun result group => below (s ++ group, result)) result

/-- `allKeys`. -/
def allKeys (parentHandle : Handle) (rSubKey : WString) (result : NameSet) (wow64 : Bool) :
    Calls NameSet :=
  recur (allKeysBody parentHandle wow64) (rSubKey, result)

/-- The loop of `deleteChildGroups`, with the call for the groups below. -/
def deleteLoop (parentHandle : Handle) (wow64 : Bool) (below : Handle → Calls Unit) :
    List WString → Calls Unit
  | [] => return ()
  | group :: childGroups => do
    match ← openKey parentHandle ⟨true, wow64⟩ group with
    | none => deleteLoop parentHandle wow64 below childGroups
    | some childGroupHandle =>
      below childGroupHandle
      closeKey childGroupHandle
      let res ← parentHandle.call (.RegDeleteKey (cstr group))
      if !res.ok then return ()
      deleteLoop parentHandle wow64 below childGroups

/-- `deleteChildGroups`, with the call of itself. -/
def deleteBody (wow64 : Bool) (below : Handle → Calls Unit) (parentHandle : Handle) :
    Calls Unit := do
  let childGroups ← childKeysOrGroups parentHandle .childGroups
  deleteLoop parentHandle wow64 below childGroups

/-- `deleteChildGroups`. -/
def deleteChildGroups (wow64 : Bool) : Handle → Calls Unit := recur (deleteBody wow64)

/-- `RegistryKey`. -/
structure RegistryKey where
  /-- `m_parent_handle`. -/
  parentHandle : Root
  /-- `m_handle`. -/
  handle : Option Handle
  /-- `m_key`. -/
  key : WString
  /-- `m_read_only`. -/
  readOnly : Bool
  /-- `_WOW64`. -/
  wow64 : Bool

/-- `RegistryKey::handle`. -/
def RegistryKey.getHandle (key : RegistryKey) : Calls RegistryKey := do
  if key.handle.isSome then return key
  let parent : Handle := ⟨.predefined key.parentHandle, true⟩
  if key.readOnly then
    let h ← openKey parent ⟨false, key.wow64⟩ key.key
    return { key with handle := h }
  match ← createOrOpenAny parent key.key key.wow64 with
  | none => return key
  | some h => return { key with handle := some h, readOnly := !h.write }

/-- `RegistryPrivate`. -/
structure RegistryPrivate where
  /-- `regList`, to which the constructor adds one location or none. -/
  regList : Option RegistryKey
  /-- `deleteWriteHandleOnExit`. -/
  deleteWriteHandleOnExit : Bool
  /-- `_s`. -/
  status : Status
  /-- `_WOW64`. -/
  wow64 : Bool

/-- `RegistryPrivate::RegistryPrivate`, which does not set the status. -/
def construct (towlower : WideMemory.WChar → WideMemory.WChar) (rPath : WString) (wow : Bool)
    (s : Status) : RegistryPrivate where
  regList := (location towlower rPath).map fun l => ⟨l.root, none, l.key, false, wow⟩
  deleteWriteHandleOnExit := false
  status := s
  wow64 := wow

namespace RegistryPrivate

/-- `regList.at(0).handle()`. -/
def getHandle (d : RegistryPrivate) : Calls (RegistryPrivate × Option Handle) := do
  match d.regList with
  | none => return (d, none)
  | some key =>
    let key ← key.getHandle
    return ({ d with regList := some key }, key.handle)

/-- `writeHandle`. -/
def writeHandle (d : RegistryPrivate) : Calls (RegistryPrivate × Option Handle) := do
  let (d, h) ← d.getHandle
  return (d, if d.regList.any (·.readOnly) then none else h)

/-- `readKey`: whether there is a value, and which. -/
def readKey (parentHandle : Handle) (rSubKey : WString) (wow64 : Bool) :
    Calls (Option RegVariant) := do
  match ← openKey parentHandle ⟨false, wow64⟩ (keyPath rSubKey) with
  | none => return none
  | some handle =>
    let name := cstr (keyName rSubKey)
    let res ← handle.call (.RegQueryValueEx name)
    if !res.ok then
      closeKey handle
      return none
    let data ← handle.call (.RegQueryValueEx name)
    if !data.ok then
      closeKey handle
      return none
    let v ← given (readData ⟨res.value.type, data.value.data⟩)
    closeKey handle
    return some v

/-- `get`: whether there is a value, and which. -/
def get (d : RegistryPrivate) (uKey : WString) : Calls (RegistryPrivate × Option RegVariant) := do
  let (d, h) ← d.getHandle
  match h with
  | none => return (d, none)
  | some handle =>
    let v ← readKey handle (escapedKey uKey) d.wow64
    return (d, v)

/-- `children`. -/
def children (d : RegistryPrivate) (uKey : WString) (spec : ChildSpec) :
    Calls (RegistryPrivate × List WString) := do
  let (d, h) ← d.getHandle
  match h with
  | none => return (d, [])
  | some parentHandle =>
    match ← openKey parentHandle ⟨false, d.wow64⟩ (escapedKey uKey) with
    | none => return (d, [])
    | some handle =>
      let names ← if spec = .allKeys then allKeys handle [] [] d.wow64
        else childKeysOrGroups handle spec
      closeKey handle
      return (d, mergeKeySets [] names)

/-- `set`. -/
def set (d : RegistryPrivate) (uKey : WString) (value : RegVariant) (expand : Bool) :
    Calls RegistryPrivate := do
  let (d, h) ← d.writeHandle
  match h with
  | none => return { d with status := .accessError }
  | some writeHandle =>
    let rKey := escapedKey uKey
    match ← createOrOpenKey writeHandle ⟨true, d.wow64⟩ (keyPath rKey) with
    | none => return { d with status := .accessError }
    | some handle =>
      let v ← given (writeData expand value)
      let res ← handle.call (.RegSetValueEx (cstr (keyName rKey)) (passed v))
      closeKey handle
      if res.ok then return { d with deleteWriteHandleOnExit := false }
      else return { d with status := .accessError }

/-- `remove` up to the value: try to delete value bar in key foo. -/
def removeValue (writeHandle : Handle) (rKey : WString) (wow64 : Bool) : Calls Unit := do
  match ← openKey writeHandle ⟨true, wow64⟩ (keyPath rKey) with
  | none => return ()
  | some handle =>
    let _ ← handle.call (.RegDeleteValue (cstr (keyName rKey)))
    closeKey handle

/-- `remove` from there on: try to delete key foo/bar and all subkeys. -/
def removeKey (writeHandle : Handle) (rKey : WString) (wow64 : Bool) : Calls Unit := do
  match ← openKey writeHandle ⟨true, wow64⟩ rKey with
  | none => return ()
  | some handle =>
    deleteChildGroups wow64 handle
    if rKey = [] then
      let childKeys ← childKeysOrGroups handle .childKeys
      childKeys.foldlM (fun _ group => do
        let _ ← handle.call (.RegDeleteValue (cstr group))) ()
    else
      let _ ← writeHandle.call (.RegDeleteKey (cstr rKey))
    closeKey handle

/-- `remove`. The write handle is kept, so that it is the same at each call. -/
def remove (d : RegistryPrivate) (uKey : WString) : Calls RegistryPrivate := do
  let (d, h) ← d.writeHandle
  match h with
  | none => return { d with status := .accessError }
  | some writeHandle =>
    let rKey := escapedKey uKey
    removeValue writeHandle rKey d.wow64
    removeKey writeHandle rKey d.wow64
    return d

/-- `clear`. -/
def clear (d : RegistryPrivate) : Calls RegistryPrivate := do
  let d ← d.remove []
  return { d with deleteWriteHandleOnExit := true }

/-- The end of `RegistryPrivate::~RegistryPrivate`: `RegistryKey::close` of each location. -/
def close (d : RegistryPrivate) : Calls Unit :=
  match d.regList.bind (·.handle) with
  | none => return ()
  | some h => closeKey h

/-- `RegistryPrivate::~RegistryPrivate`. -/
def destroy (d : RegistryPrivate) : Calls Unit := do
  if d.deleteWriteHandleOnExit then
    let (d, h) ← d.writeHandle
    match h with
    | none => d.close
    | some writeHandle =>
      let _ ← writeHandle.call (.RegDeleteKey [])
      d.close
  else d.close

end RegistryPrivate

/-- The methods of `Registry` that call the system. -/
inductive Method where
  | allKeys
  | childKeys
  | childGroups
  | isWritable
  | setValue (key : WString) (value : RegVariant) (exSz : Bool)
  | value (key : WString) (defaultValue : RegVariant)
  | remove (key : WString)
  | contains (key : WString)

/-- What a method returns. -/
inductive Result where
  | unit
  | bool (b : Bool)
  | variant (v : RegVariant)
  | names (ns : List WString)
  deriving DecidableEq

/-- A call of a method. -/
def perform (d : RegistryPrivate) : Method → Calls (RegistryPrivate × Result)
  | .allKeys => do
    let (d, ns) ← d.children groupPrefix .allKeys
    return (d, .names ns)
  | .childKeys => do
    let (d, ns) ← d.children groupPrefix .childKeys
    return (d, .names ns)
  | .childGroups => do
    let (d, ns) ← d.children groupPrefix .childGroups
    return (d, .names ns)
  | .isWritable => do
    let (d, h) ← d.writeHandle
    return (d, .bool h.isSome)
  | .setValue key value exSz => do
    let k ← given (actualKey key)
    let d ← d.set k value exSz
    return (d, .unit)
  | .value key defaultValue => do
    let k ← given (actualKey key)
    let (d, result) ← d.get k
    return (d, .variant (result.getD defaultValue))
  | .remove key => do
    let theKey ← given (normalizedKey key)
    let theKey := if theKey = [] then group else groupPrefix ++ theKey
    let d ← if theKey = [] then d.clear else d.remove theKey
    return (d, .unit)
  | .contains key => do
    let k ← given (actualKey key)
    let (d, result) ← d.get k
    return (d, .bool result.isSome)

/-- Methods, one after the other. -/
def performs (d : RegistryPrivate) (ms : List Method) : Calls RegistryPrivate :=
  ms.foldlM (fun d m => return (← perform d m).1) d

/-- The life of an object. -/
def life (d : RegistryPrivate) (ms : List Method) : Calls Unit := do
  let d ← performs d ms
  d.destroy

section Unrolled

variable {h parent : Handle} {sub : WString} {wow64 : Bool} {n : ℕ}
  {below below' : Handle → Calls Unit} {childGroups : List WString}

/-- A call through a handle takes one answer. -/
theorem takes_call {api : Api} : Takes 1 (h.call api) := by
  obtain ⟨root | k, write⟩ := h
  · exact takes_ask _
  · exact takes_askOn _ _

/-- A new handle takes none. -/
theorem takes_newHandle {write : Bool} : Takes 0 (newHandle write) :=
  (takes_modifyGet _).bind fun _ => takes_pure _

/-- Nor does closing a key. -/
theorem takes_closeKey : Takes 0 (closeKey h) := by
  obtain ⟨root | k, write⟩ := h
  · exact takes_pure _
  · exact takes_modifyGet _

/-- Opening a key takes one answer. -/
theorem takes_openKey {perms : Perms} : Takes 1 (openKey parent perms sub) := by
  refine takes_call.bind (k := 0) fun res => ?_
  split_ifs
  · exact takes_pure _
  · split
    · exact takes_pure _
    · exact takes_newHandle.bind fun _ => takes_pure _

/-- A list of the children takes one at least. -/
theorem takes_childKeysOrGroups {spec : ChildSpec} : Takes 1 (childKeysOrGroups h spec) := by
  have hitem : ∀ result i, Takes 0 (childItem h spec result i) := fun result i => by
    refine (takes_call.bind (k := 0) fun res => ?_).mono (Nat.zero_le 1)
    split_ifs <;> exact takes_pure _
  refine takes_call.bind (k := 0) fun res => ?_
  split_ifs
  · exact takes_pure _
  all_goals exact takes_foldlM hitem _

/-- A loop that deletes groups takes what there is to take. -/
theorem takes_deleteLoop (hbelow : ∀ child, Takes 0 (below child)) :
    Takes 0 (deleteLoop h wow64 below childGroups) := by
  induction childGroups with
  | nil => exact takes_pure _
  | cons group childGroups ih =>
    refine (takes_openKey.bind (k := 0) fun o => ?_).mono (Nat.zero_le 1)
    cases o with
    | none => exact ih
    | some child =>
      refine (hbelow child).bind (k := 0) fun _ => takes_closeKey.bind (k := 0) fun _ => ?_
      refine (takes_call.bind (k := 0) fun res => ?_).mono (Nat.zero_le 1)
      split_ifs
      · exact takes_pure _
      · exact ih

/-- It does the same when the calls below do. -/
theorem agree_deleteLoop (hbelow : ∀ child, Takes 0 (below' child))
    (h : ∀ child, Agree n (below child) (below' child)) :
    Agree n (deleteLoop parent wow64 below childGroups)
      (deleteLoop parent wow64 below' childGroups) := by
  induction childGroups with
  | nil => exact Agree.refl n _
  | cons group childGroups ih =>
    refine Agree.behind (takes_openKey.mono (Nat.zero_le 1)) fun o => ?_
    cases o with
    | none => exact ih
    | some child =>
      refine (h child).bind (hbelow child) fun _ => Agree.behind takes_closeKey fun _ => ?_
      refine Agree.behind (takes_call.mono (Nat.zero_le 1)) fun res => ?_
      split_ifs
      · exact Agree.refl n _
      · exact ih

/-- `allKeys` calls itself behind an answer, so that it is what its body says. -/
theorem allKeys_eq {result : NameSet} : allKeys parent sub result wow64 =
    allKeysBody parent wow64 (fun x => allKeys parent x.1 x.2 wow64)
      (sub, result) := by
  refine congrFun (recur_eq ⟨fun below hbelow ⟨sub, result⟩ => ?_,
    fun n below below' hbelow' h ⟨sub, result⟩ => ?_⟩) (sub, result)
  · refine (takes_openKey.bind (k := 0) fun o => ?_).mono (Nat.zero_le 1)
    cases o with
    | none => exact takes_pure _
    | some handle =>
      refine (takes_childKeysOrGroups.mono (Nat.zero_le 1)).bind (k := 0) fun childKeys => ?_
      refine (takes_childKeysOrGroups.mono (Nat.zero_le 1)).bind (k := 0) fun childGroups => ?_
      exact takes_closeKey.bind fun _ => takes_foldlM (fun _ _ => hbelow _) _
  · refine Agree.behind takes_openKey fun o => ?_
    cases o with
    | none => exact Agree.refl n _
    | some handle =>
      refine Agree.behind (takes_childKeysOrGroups.mono (Nat.zero_le 1)) fun childKeys => ?_
      refine Agree.behind (takes_childKeysOrGroups.mono (Nat.zero_le 1)) fun childGroups => ?_
      exact Agree.behind takes_closeKey fun _ =>
        agree_foldlM (fun _ _ => h _) (fun _ _ => hbelow' _) _

/-- So is `deleteChildGroups`. -/
theorem deleteChildGroups_eq :
    deleteChildGroups wow64 h = deleteBody wow64 (deleteChildGroups wow64) h := by
  refine congrFun (recur_eq ⟨fun below hbelow h => ?_, fun n below below' hbelow' h child => ?_⟩) h
  · exact (takes_childKeysOrGroups.bind fun _ => takes_deleteLoop hbelow).mono (Nat.zero_le 1)
  · exact Agree.behind takes_childKeysOrGroups fun _ => agree_deleteLoop hbelow' h

end Unrolled

end KernelLib.RegistryHandles
